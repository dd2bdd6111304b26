/-
JSON values. An object is the list of its members in order, so the order of the members is part
of the value; a number is an integer or a floating point number, and `1` and `1.0` differ.
-/
import Parley.Decimal.Binary64

namespace Parley

/-- A number: an integer of at most 64 bits, or a finite floating point number. -/
inductive Json.Number where
  | int (value : Int)
  | double (value : Decimal.Binary64)
  deriving DecidableEq, Repr

/-- A JSON value. -/
inductive Json where
  | null
  | bool (value : Bool)
  | num (value : Json.Number)
  | str (value : String)
  | arr (items : List Json)
  | obj (members : List (String × Json))
  deriving Repr, Inhabited

namespace Json

/-! ## Equality -/

mutual

/-- Whether two values are the same, members in the same order. -/
def same : Json → Json → Bool
  | .null, .null => true
  | .bool a, .bool b => a == b
  | .num a, .num b => a == b
  | .str a, .str b => a == b
  | .arr as, .arr bs => sameItems as bs
  | .obj as, .obj bs => sameMembers as bs
  | _, _ => false

/-- Whether lists are the same item by item. -/
def sameItems : List Json → List Json → Bool
  | [], [] => true
  | a :: as, b :: bs => same a b && sameItems as bs
  | _, _ => false

/-- Whether objects are the same member by member. -/
def sameMembers : List (String × Json) → List (String × Json) → Bool
  | [], [] => true
  | (k, a) :: as, (l, b) :: bs => k == l && same a b && sameMembers as bs
  | _, _ => false

end

mutual

theorem same_iff : ∀ a b : Json, same a b = true ↔ a = b
  | .null, b => by cases b <;> simp [same]
  | .bool x, b => by cases b <;> simp [same]
  | .num x, b => by cases b <;> simp [same]
  | .str x, b => by cases b <;> simp [same]
  | .arr x, b => by cases b <;> simp [same, sameItems_iff x]
  | .obj x, b => by cases b <;> simp [same, sameMembers_iff x]

theorem sameItems_iff : ∀ as bs : List Json, sameItems as bs = true ↔ as = bs
  | [], bs => by cases bs <;> simp [sameItems]
  | a :: as, bs => by cases bs <;> simp [sameItems, same_iff a, sameItems_iff as]

theorem sameMembers_iff : ∀ as bs : List (String × Json), sameMembers as bs = true ↔ as = bs
  | [], bs => by cases bs <;> simp [sameMembers]
  | (k, a) :: as, bs => by
    rcases bs with _ | ⟨⟨l, b⟩, bs⟩ <;> simp [sameMembers, same_iff a, sameMembers_iff as]

end

instance : DecidableEq Json := fun a b => decidable_of_iff _ (same_iff a b)

/-! ## Members -/

/-- The members of an object. -/
abbrev Members := List (String × Json)

/-- The value of the first member of a name. -/
def Members.get? (ms : Members) (name : String) : Option Json :=
  ms.lookup name

/-- Gives a member a value: one that is there keeps its place, a new one goes to the end. -/
def Members.insert : Members → String → Json → Members
  | [], k, v => [(k, v)]
  | m :: ms, k, v => if m.1 = k then (k, v) :: ms else m :: Members.insert ms k v

/-- Members in which every name stands once: a repeated one keeps its first place and takes its
last value. -/
def Members.distinct (ms : Members) : Members :=
  ms.foldl (fun acc m => acc.insert m.1 m.2) []

/-- The value of a member, when the value is an object that has it. -/
def get? : Json → String → Option Json
  | .obj ms, k => Members.get? ms k
  | _, _ => none

/-- The text of a string value. -/
def str? : Json → Option String
  | .str s => some s
  | _ => none

/-- A natural number. -/
def ofNat (n : Nat) : Json := .num (.int n)

/-- Whether a value is null. -/
def isNull : Json → Bool
  | .null => true
  | _ => false

mutual

/-- The value with every repeated member name settled, inside and out. -/
def collapse : Json → Json
  | .arr items => .arr (collapseItems items)
  | .obj ms => .obj (Members.distinct (collapseMembers ms))
  | v => v

/-- The items of a list with their repeated names settled. -/
def collapseItems : List Json → List Json
  | [] => []
  | v :: vs => collapse v :: collapseItems vs

/-- The members of an object with the repeated names inside them settled. -/
def collapseMembers : List (String × Json) → List (String × Json)
  | [] => []
  | (k, v) :: ms => (k, collapse v) :: collapseMembers ms

end

end Json

end Parley
