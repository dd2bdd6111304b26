/-
Reading a text from its start on.
-/

namespace Parley.Text

/-- What a reader of a part of a text gives: the part, and the characters behind it; none where
the text does not start with such a part. -/
abbrev Step (α : Type) := Option (α × List Char)

/-- Puts a character in front of what a reader of characters gives. -/
def prepend (c : Option Char) (rest : Step (List Char)) : Step (List Char) :=
  match c, rest with
  | some c, some (cs, r) => some (c :: cs, r)
  | _, _ => none

end Parley.Text
