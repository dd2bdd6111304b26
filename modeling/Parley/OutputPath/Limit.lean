/-
The bound on the integers of an output path. Digits inside names, quoted names, strings and
literals are not integers; all others are, and may be 2³⁰ at most, so that the arithmetic of
slices stays within words of 32 bits.
-/
import Parley.OutputPath.Token

namespace Parley.OutputPath

/-- The greatest integer that an expression may hold. -/
def integerMax : Nat := Nat.pow 2 30

/-- The text behind a part in quotes, which goes to the end of the text when nothing closes it. A
backslash takes the next character with it. -/
def behindQuote (close : Char) : List Char → List Char
  | [] => []
  | [_] => []
  | c :: d :: r =>
    if c = close then d :: r
    else if c = '\\' then behindQuote close r
    else behindQuote close (d :: r)

/-- The digits of the integers that an expression holds outside names and quotes; `fuel` bounds
the length of the text. -/
def bareIntegers : (fuel : Nat) → List Char → List (List Char)
  | _, [] => []
  | 0, _ :: _ => []
  | fuel + 1, c :: r =>
    if c = '\'' ∨ c = '"' ∨ c = Token.backtick then bareIntegers fuel (behindQuote c r)
    else if Token.startsName c then bareIntegers fuel (r.dropWhile Token.continuesName)
    else if c.isDigit then
      (c :: r.takeWhile Char.isDigit) :: bareIntegers fuel (r.dropWhile Char.isDigit)
    else bareIntegers fuel r

/-- The first integer of an expression that is too great, as it is written. -/
def integerBeyondMax? (s : String) : Option String :=
  ((bareIntegers s.toList.length s.toList).find? fun ds => integerMax < Token.ofDigits ds).map
    String.ofList

end Parley.OutputPath
