/-
Binary floating point numbers of 64 bits, as values with decidable equality: a number is its bit
pattern. A finite one is read as an integer times a power of two.
-/

namespace Parley.Decimal

/-- A floating point number, given by its bits. -/
structure Binary64 where
  bits : UInt64
  deriving DecidableEq, Repr

/-- The magnitude `mantissa * 2 ^ exponent` of a finite number. -/
structure Magnitude where
  mantissa : Nat
  exponent : Int
  /-- Whether the next smaller magnitude is only half as far away as the next larger one. -/
  narrowBelow : Bool

namespace Binary64

/-- The number that the arithmetic of the machine works on. -/
def toFloat (x : Binary64) : Float := Float.ofBits x.bits

/-- The number that the arithmetic of the machine gave. -/
def ofFloat (f : Float) : Binary64 := ⟨f.toBits⟩

/-- Whether the sign bit is set, which it is for the negative zero too. -/
def isNegative (x : Binary64) : Bool := Nat.pow 2 63 ≤ x.bits.toNat

/-- The eleven bits that hold the exponent. -/
def exponentField (x : Binary64) : Nat := x.bits.toNat / Nat.pow 2 52 % Nat.pow 2 11

/-- The fifty-two bits that hold the fraction. -/
def fractionField (x : Binary64) : Nat := x.bits.toNat % Nat.pow 2 52

/-- Neither an infinity nor a result that is no number. -/
def isFinite (x : Binary64) : Bool := x.exponentField ≠ Nat.pow 2 11 - 1

/-- What a finite number is worth, apart from its sign. -/
def magnitude (x : Binary64) : Magnitude :=
  if x.exponentField = 0 then ⟨x.fractionField, -1074, false⟩
  else ⟨Nat.pow 2 52 + x.fractionField, (x.exponentField : Int) - 1075,
    x.fractionField = 0 && 1 < x.exponentField⟩

end Binary64

end Parley.Decimal
