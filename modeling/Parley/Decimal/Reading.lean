/-
Reading decimal notation. Leading digits are gathered as long as they fit into a word of 64 bits;
the word is then scaled by a power of ten in floating point, so the last bit of a long numeral may
differ from the nearest number.
-/
import Parley.Decimal.Binary64
import Parley.Text.Digit

namespace Parley.Decimal

/-- The greatest number that fits into a word. -/
def wordMax : Nat := Nat.pow 2 64 - 1

/-- Digits gathered so far, worth `word * 10 ^ exponent`. -/
structure Gathered where
  word : Nat
  exponent : Int

/-- Takes the digits before the point: once one does not fit, this one and all behind it only
count. -/
def Gathered.whole (g : Gathered) : List Nat → Gathered
  | [] => g
  | d :: ds =>
    if g.word * 10 + d ≤ wordMax then whole ⟨g.word * 10 + d, g.exponent⟩ ds
    else ⟨g.word, g.exponent + (ds.length + 1 : Nat)⟩

/-- Takes the digits behind the point: the first one that does not fit ends the numeral. -/
def Gathered.fraction (g : Gathered) : List Nat → Gathered
  | [] => g
  | d :: ds =>
    if g.word * 10 + d ≤ wordMax then fraction ⟨g.word * 10 + d, g.exponent - 1⟩ ds else g

/-- The number nearest to a power of ten up to the largest one below infinity. -/
def powerOfTen (n : Nat) : Float := Float.ofScientific 1 false n

/-- Divides by a power of ten, in steps of at most the largest one. -/
def scaleDown (f : Float) (n : Nat) : Float :=
  if n ≤ 308 then f / powerOfTen n
  else if f == 0 then f
  else scaleDown (f / powerOfTen 308) (n - 308)
  termination_by n

/-- The number that gathered digits stand for, and none when it is too large. -/
def Gathered.toFloat? (g : Gathered) : Option Float :=
  let f := g.word.toUInt64.toFloat
  if g.exponent < 0 then some (scaleDown f g.exponent.natAbs)
  else if g.exponent ≤ 308 then
    let scaled := f * powerOfTen g.exponent.toNat
    if scaled.isInf then none else some scaled
  else if g.word = 0 then some f
  else none

/-- A numeral as it is written: the digits on both sides of the point and the exponent. -/
structure Numeral where
  negative : Bool
  whole : List Nat
  fraction : List Nat
  exponent : Int

/-- The floating point number of a numeral, and none when it is too large. -/
def Numeral.toBinary64? (n : Numeral) : Option Binary64 :=
  let g := (Gathered.mk 0 0).whole n.whole |>.fraction n.fraction
  (Gathered.toFloat? ⟨g.word, g.exponent + n.exponent⟩).map fun f =>
    .ofFloat (if n.negative then -f else f)

/-- How many digits a numeral has in front of its point once its exponent is worked in. -/
def Numeral.order (n : Numeral) : Int :=
  ((n.whole ++ n.fraction).dropWhile (· = 0)).length - n.fraction.length + n.exponent

/-- The floating point number nearest to a numeral. It is infinite for one that is too large; one
of more than four hundred digits in front of its point, or zeros behind it, is not worked out. -/
def Numeral.nearest (n : Numeral) : Binary64 :=
  let digits := Text.ofDigits (n.whole ++ n.fraction)
  let shift := n.exponent - n.fraction.length
  let f :=
    if digits = 0 ∨ n.order < -400 then 0
    else if 400 < n.order then 1 / 0
    else Float.ofScientific digits (shift < 0) shift.natAbs
  .ofFloat (if n.negative then -f else f)

end Parley.Decimal
