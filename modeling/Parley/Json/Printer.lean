/-
The text of a JSON value, compact or indented. Quotes, backslashes and the characters below the
space are escaped, all others stand for themselves.
-/
import Parley.Decimal.Shortest
import Parley.Json.Basic
import Parley.Text.Digit

namespace Parley.Json

/-! ## Strings and numbers -/

/-- The characters that stand for one character inside a string. -/
def escape (c : Char) : List Char :=
  if c = '"' then ['\\', '"']
  else if c = '\\' then ['\\', '\\']
  else if c = '\n' then ['\\', 'n']
  else if c = '\r' then ['\\', 'r']
  else if c = '\t' then ['\\', 't']
  else if c.toNat = 8 then ['\\', 'b']
  else if c.toNat = 12 then ['\\', 'f']
  else if c.toNat < 32 then
    ['\\', 'u', '0', '0', Text.lowerHexDigit (c.toNat / 16), Text.lowerHexDigit (c.toNat % 16)]
  else [c]

/-- A text in quotes. -/
def quoted (s : String) : List Char :=
  '"' :: (s.toList.flatMap escape ++ ['"'])

/-- The decimal digits of an integer. -/
def intChars (n : Int) : List Char :=
  if n < 0 then '-' :: Nat.toDigits 10 n.natAbs else Nat.toDigits 10 n.natAbs

/-- The characters of a number. -/
def Number.chars : Number → List Char
  | .int n => intChars n
  | .double x => x.chars

/-! ## Compact text -/

mutual

/-- The characters of a value without any blank. -/
def chars : Json → List Char
  | .null => ['n', 'u', 'l', 'l']
  | .bool true => ['t', 'r', 'u', 'e']
  | .bool false => ['f', 'a', 'l', 's', 'e']
  | .num n => n.chars
  | .str s => quoted s
  | .arr [] => ['[', ']']
  | .arr (v :: vs) => '[' :: (chars v ++ itemsChars vs)
  | .obj [] => ['{', '}']
  | .obj ((k, v) :: ms) => '{' :: (quoted k ++ ':' :: (chars v ++ membersChars ms))

/-- The items behind the first one, and the closing bracket. -/
def itemsChars : List Json → List Char
  | [] => [']']
  | v :: vs => ',' :: (chars v ++ itemsChars vs)

/-- The members behind the first one, and the closing brace. -/
def membersChars : List (String × Json) → List Char
  | [] => ['}']
  | (k, v) :: ms => ',' :: (quoted k ++ ':' :: (chars v ++ membersChars ms))

end

/-- The compact text of a value. -/
def text (v : Json) : String :=
  String.ofList v.chars

/-! ## Indented text -/

/-- A new line indented by two spaces a level. -/
def newLine (level : Nat) : List Char :=
  '\n' :: List.replicate (2 * level) ' '

mutual

/-- The characters of a value with one item or member a line; an empty list or object takes
none. -/
def indentedChars (level : Nat) : Json → List Char
  | .arr [] => ['[', ']']
  | .arr (v :: vs) =>
    '[' :: (newLine (level + 1) ++ indentedChars (level + 1) v ++ indentedItems level vs)
  | .obj [] => ['{', '}']
  | .obj ((k, v) :: ms) =>
    '{' :: (newLine (level + 1) ++ quoted k ++ ':' :: ' ' :: indentedChars (level + 1) v
      ++ indentedMembers level ms)
  | v => v.chars

/-- The items behind the first one, and the closing bracket, each on its line. -/
def indentedItems (level : Nat) : List Json → List Char
  | [] => newLine level ++ [']']
  | v :: vs =>
    ',' :: (newLine (level + 1) ++ indentedChars (level + 1) v ++ indentedItems level vs)

/-- The members behind the first one, and the closing brace, each on its line. -/
def indentedMembers (level : Nat) : List (String × Json) → List Char
  | [] => newLine level ++ ['}']
  | (k, v) :: ms =>
    ',' :: (newLine (level + 1) ++ quoted k ++ ':' :: ' ' :: indentedChars (level + 1) v
      ++ indentedMembers level ms)

end

/-- The text of a value over several lines. -/
def indented (v : Json) : String :=
  String.ofList (v.indentedChars 0)

end Parley.Json
