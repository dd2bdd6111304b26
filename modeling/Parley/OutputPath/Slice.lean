/-
Slices of lists. A bound below zero counts from the end; bounds beyond the list are moved to its
ends, and the step may go backwards.
-/

namespace Parley.OutputPath

/-- The item at an index, which counts from the end when it is below zero. -/
def itemAt? {α : Type} (xs : List α) (i : Int) : Option α :=
  if 0 ≤ i then xs[i.toNat]? else if i.natAbs ≤ xs.length then xs[xs.length - i.natAbs]? else none

namespace Slice

/-- Where a bound lies in a list of the given length, for steps of the given sign. -/
def clamp (length bound : Int) (backward : Bool) : Int :=
  if bound < 0 then
    if 0 ≤ bound + length then bound + length else if backward then -1 else 0
  else if bound < length then bound
  else if backward then length - 1
  else length

/-- The first position of a slice. -/
def first (length : Int) (start : Option Int) (backward : Bool) : Int :=
  match start with
  | some bound => clamp length bound backward
  | none => if backward then length - 1 else 0

/-- The position that a slice does not reach. -/
def last (length : Int) (stop : Option Int) (backward : Bool) : Int :=
  match stop with
  | some bound => clamp length bound backward
  | none => if backward then -1 else length

/-- The positions from `i` on in steps of `step` while they are before `stop`; `fuel` bounds their
count. -/
def positions (stop step : Int) : (fuel : Nat) → (i : Int) → List Int
  | 0, _ => []
  | fuel + 1, i =>
    if (if 0 < step then i < stop else stop < i) then i :: positions stop step fuel (i + step)
    else []

end Slice

/-- The items of a slice, for a step that is not zero. -/
def slice {α : Type} (xs : List α) (start stop : Option Int) (step : Int) : List α :=
  let backward := decide (step < 0)
  let length : Int := xs.length
  (Slice.positions (Slice.last length stop backward) step xs.length
    (Slice.first length start backward)).filterMap fun i => xs[i.toNat]?

end Parley.OutputPath
