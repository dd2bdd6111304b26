/-
Texts in lines and columns.
-/

namespace Parley.Text

/-- Lines, each with its end. -/
def unlines (ls : List String) : String :=
  String.join (ls.map fun l => l ++ "\n")

/-- A text with blanks behind it, up to a width. -/
def column (width : Nat) (s : String) : String :=
  s ++ String.ofList (List.replicate (width - s.length) ' ')

/-- The first line of a text, without its end. -/
def firstLine (s : String) : String :=
  let cs := s.toList
  let line := cs.takeWhile (· ≠ '\n')
  if line.getLast? = some '\r' ∧ line.length < cs.length then String.ofList line.dropLast
  else String.ofList line

end Parley.Text
