/-
Dictionaries: entries in ascending order of their names, by code point, with every name once.
-/

namespace Parley

/-- A dictionary from names to values. -/
abbrev Dictionary (α : Type) := List (String × α)

namespace Dictionary

variable {α : Type}

/-- Gives a name a value, in place of the one it has. -/
def insert : Dictionary α → String → α → Dictionary α
  | [], k, v => [(k, v)]
  | e :: es, k, v =>
    if k = e.1 then (k, v) :: es
    else if k < e.1 then (k, v) :: e :: es
    else e :: insert es k v

/-- The dictionary of entries in any order; of two with one name the later counts. -/
def ofEntries (es : List (String × α)) : Dictionary α :=
  es.foldl (fun d e => d.insert e.1 e.2) []

/-- The value of a name. -/
def get? (d : Dictionary α) (k : String) : Option α := d.lookup k

theorem lookup_insert_self (d : Dictionary α) (k : String) (v : α) :
    (d.insert k v).lookup k = some v := by
  induction d with
  | nil => simp [insert]
  | cons e es ih =>
    obtain ⟨l, u⟩ := e
    unfold insert
    split
    · simp
    · rename_i hne
      split
      · simp
      · have : (k == l) = false := by simpa using hne
        simp [List.lookup_cons, this, ih]

end Dictionary

end Parley
