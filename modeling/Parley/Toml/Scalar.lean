/-
Values of TOML documents that are neither strings nor hold other values: booleans, numbers and
dates. Each is a run of letters, digits and a few signs.
-/
import Parley.Decimal.Reading
import Parley.Toml.Basic
import Parley.Toml.Date

namespace Parley.Toml.Scalar

/-! ## Digits -/

/-- The digits of a run in which a single underscore may stand between two digits. -/
def separated (isDigit : Char → Bool) : List Char → Option (List Char)
  | [] => none
  | [c] => if isDigit c then some [c] else none
  | c :: '_' :: r => if isDigit c then (separated isDigit r).map (c :: ·) else none
  | c :: r => if isDigit c then (separated isDigit r).map (c :: ·) else none

/-- The digits at the start of a run, and the rest of it. -/
def group (cs : List Char) : Option (List Nat × List Char) :=
  let isPart (c : Char) : Bool := c.isDigit || c = '_'
  (separated Char.isDigit (cs.takeWhile isPart)).map fun ds =>
    (ds.filterMap Text.digit?, cs.dropWhile isPart)

/-- Takes the sign away from a run: whether it was a minus, and the rest. -/
def unsigned : List Char → Bool × List Char
  | '-' :: r => (true, r)
  | '+' :: r => (false, r)
  | r => (false, r)

/-! ## Numbers -/

/-- An integer that a word of 64 bits with a sign has room for. -/
def word? (n : Int) : Option Toml :=
  if -Int.ofNat (Nat.pow 2 63) ≤ n ∧ n < Int.ofNat (Nat.pow 2 63) then some (.int n) else none

/-- An integer by its digits in a base that is a power of two. -/
def based (base : Nat) (cs : List Char) : Option Toml :=
  let value? (c : Char) : Option Nat := (Text.hexValue? c).filter (· < base)
  (separated (fun c => (value? c).isSome) cs).bind fun ds =>
    word? (ds.foldl (fun n c => n * base + (value? c).getD 0) 0 : Nat)

/-- The fraction of a number, if there is one. -/
def fraction : List Char → Option (Option (List Nat) × List Char)
  | '.' :: r => (group r).map fun (ds, r) => (some ds, r)
  | r => some (none, r)

/-- The exponent at the end of a number, if there is one. -/
def exponent : List Char → Option (Option Int)
  | [] => some none
  | c :: r =>
    if c = 'e' ∨ c = 'E' then
      let (negative, r) := unsigned r
      match group r with
      | some (ds, []) =>
        some (some (if negative then -(Text.ofDigits ds : Int) else Text.ofDigits ds))
      | _ => none
    else none

/-- A number in decimal notation: an integer when it has neither fraction nor exponent. A floating
point number may fall below the least one, but not rise above the greatest. -/
def decimal (cs : List Char) : Option Toml :=
  let (negative, r) := unsigned cs
  match group r with
  | none => none
  | some (ds, r) =>
    if ds.head? = some 0 ∧ ds.length ≠ 1 then none
    else
      match fraction r with
      | none => none
      | some (f, r) =>
        match exponent r with
        | none => none
        | some e =>
          if f.isNone && e.isNone then
            word? (if negative then -(Text.ofDigits ds : Int) else Text.ofDigits ds)
          else
            let x := (Decimal.Numeral.mk negative ds (f.getD []) (e.getD 0)).nearest
            if x.isFinite || negative then some (.float x) else none

/-- The numbers that have no digits. -/
def special (cs : List Char) : Option Toml :=
  let (negative, r) := unsigned cs
  let signed (f : Float) : Toml := .float (.ofFloat (if negative then -f else f))
  match r with
  | ['i', 'n', 'f'] => some (signed (1 / 0))
  | ['n', 'a', 'n'] => some (signed (0 / 0))
  | _ => none

/-! ## All kinds -/

/-- Whether a character may stand in a value of this kind. -/
def isPart (c : Char) : Bool :=
  c.isAlphanum || c = '_' || c = '+' || c = '-' || c = '.' || c = ':'

/-- The value of a run. -/
def parse? : List Char → Option Toml
  | ['t', 'r', 'u', 'e'] => some (.bool true)
  | ['f', 'a', 'l', 's', 'e'] => some (.bool false)
  | '0' :: 'x' :: r => based 16 r
  | '0' :: 'o' :: r => based 8 r
  | '0' :: 'b' :: r => based 2 r
  | cs =>
    match Date.parse? cs with
    | some text => some (.date (String.ofList text))
    | none => (decimal cs).or (special cs)

/-- The value at the start of a text. A space may stand between a day and a time. -/
def read (cs : List Char) : Text.Step Toml :=
  let run := cs.takeWhile isPart
  match Date.day run, cs.dropWhile isPart with
  | some (_, []), ' ' :: r =>
    match r.takeWhile isPart with
    | [] => (parse? run).map (·, ' ' :: r)
    | time => (parse? (run ++ ' ' :: time)).map (·, r.dropWhile isPart)
  | _, r => (parse? run).map (·, r)

end Parley.Toml.Scalar
