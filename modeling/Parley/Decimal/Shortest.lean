/-
The fewest decimal digits that identify a floating point number, found by exact arithmetic on
naturals: the reals that round to the number form an interval, and the coarsest decimal grid with
a point in it gives the digits.
-/
import Parley.Decimal.Binary64

namespace Parley.Decimal

/-- The reals that round to one number, over a common denominator: from `low` to `high`, with
`value` the number itself and the two ends counting when `closed`. -/
structure Rounding where
  low : Nat
  value : Nat
  high : Nat
  denominator : Nat
  closed : Bool

/-- Half way to the neighbours on both sides; a half rounds to the even mantissa. -/
def Magnitude.rounding (x : Magnitude) : Rounding :=
  let up := Nat.pow 2 (x.exponent - 2).toNat
  { low := (4 * x.mantissa - if x.narrowBelow then 1 else 2) * up
    value := 4 * x.mantissa * up
    high := (4 * x.mantissa + 2) * up
    denominator := Nat.pow 2 (2 - x.exponent).toNat
    closed := x.mantissa % 2 = 0 }

/-- The decimal `digits * 10 ^ exponent`. -/
structure Digits where
  digits : Nat
  exponent : Int

/-- Whether the multiple `n` of `10 ^ grid` rounds to the number. -/
def Rounding.contains (r : Rounding) (grid : Int) (n : Nat) : Bool :=
  let point := n * r.denominator * Nat.pow 10 grid.toNat
  let scale := Nat.pow 10 (-grid).toNat
  if r.closed then r.low * scale ≤ point && point ≤ r.high * scale
  else r.low * scale < point && point < r.high * scale

/-- The multiple of `10 ^ grid` at or below the number. -/
def Rounding.floor (r : Rounding) (grid : Int) : Nat :=
  r.value * Nat.pow 10 (-grid).toNat / (r.denominator * Nat.pow 10 grid.toNat)

/-- The point of the grid that rounds to the number: of the two neighbours the nearer one, and of
two that are equally near the even one. -/
def Rounding.onGrid (r : Rounding) (grid : Int) : Option Nat :=
  let n := r.floor grid
  match r.contains grid n, r.contains grid (n + 1) with
  | false, false => none
  | true, false => some n
  | false, true => some (n + 1)
  | true, true =>
    let twice := 2 * r.value * Nat.pow 10 (-grid).toNat
    let middle := (2 * n + 1) * r.denominator * Nat.pow 10 grid.toNat
    if twice < middle then some n
    else if middle < twice then some (n + 1)
    else if n % 2 = 0 then some n else some (n + 1)

/-- Whether the number is below `10 ^ k`. -/
def Rounding.isBelow (r : Rounding) (k : Int) : Bool :=
  r.value * Nat.pow 10 (-k).toNat < r.denominator * Nat.pow 10 k.toNat

/-- The least power of ten above a number that is not zero, started from its binary logarithm. -/
def Magnitude.scale (x : Magnitude) : Int :=
  let low := ((x.mantissa.log2 + x.exponent) * 30103).fdiv 100000
  ((List.range 3).map fun i => low + (i : Nat)).find? (x.rounding.isBelow ·) |>.getD (low + 3)

/-- Moves the zeros at the end of the digits into the exponent; `fuel` bounds their count. -/
def Digits.strip : (fuel : Nat) → Digits → Digits
  | 0, d => d
  | fuel + 1, d =>
    if d.digits ≠ 0 ∧ d.digits % 10 = 0 then strip fuel ⟨d.digits / 10, d.exponent + 1⟩ else d

/-- The fewest digits that read back as the number; seventeen always do. -/
def Magnitude.shortest (x : Magnitude) : Digits :=
  if x.mantissa = 0 then ⟨0, 0⟩
  else
    let found := (List.range 17).findSome? fun i =>
      let grid := x.scale - (i + 1 : Nat)
      (x.rounding.onGrid grid).map fun n => Digits.mk n grid
    (found.getD ⟨x.rounding.floor (x.scale - 17), x.scale - 17⟩).strip 17

/-! ## Written form -/

/-- How digits are laid out: the powers of ten of a first digit that is written in its place. -/
structure Layout where
  leastPlain : Int
  greatestPlain : Int

/-- Plain between `1e-5` and `1e16`, and with an exponent outside. -/
def standardLayout : Layout := ⟨-5, 15⟩

/-- The digits with a point in their place, or with a single digit before the point and a signed
exponent; a plain number has a digit after the point. -/
def Layout.write (l : Layout) (d : Digits) : List Char :=
  let ds := Nat.toDigits 10 d.digits
  let lead := d.exponent + ds.length - 1
  if d.digits = 0 then ['0', '.', '0']
  else if l.leastPlain ≤ lead ∧ lead ≤ l.greatestPlain then
    if lead < 0 then '0' :: '.' :: (List.replicate (-lead - 1).toNat '0' ++ ds)
    else if 0 ≤ d.exponent then ds ++ List.replicate d.exponent.toNat '0' ++ ['.', '0']
    else ds.take (lead + 1).toNat ++ '.' :: ds.drop (lead + 1).toNat
  else
    let fraction := ds.drop 1
    let sign := if lead < 0 then '-' else '+'
    ds.take 1 ++ (if fraction.isEmpty then [] else '.' :: fraction)
      ++ 'e' :: sign :: Nat.toDigits 10 lead.natAbs

/-- The text of a finite number. -/
def Binary64.chars (x : Binary64) : List Char :=
  (if x.isNegative then ['-'] else []) ++ standardLayout.write x.magnitude.shortest

end Parley.Decimal
