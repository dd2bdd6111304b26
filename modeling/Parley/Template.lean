/-
Templates with placeholders. A placeholder is written `${ key }`, with blanks of ASCII around a
key that has neither a blank nor a closing brace. Rendering puts the value of the key in its
place, or the key in braces when it has none; what is put in is not looked at again.
-/
import Parley.Json.Printer
import Parley.Text.Blank

namespace Parley

/-- A part of a template. -/
inductive Template.Piece where
  | literal (c : Char)
  | placeholder (key : String)
  deriving DecidableEq, Repr

namespace Template

/-- Whether a character may stand in a key. -/
def isKeyChar (c : Char) : Bool :=
  c ≠ '}' && !Text.isAsciiBlank c

/-- The key of the placeholder whose `${` stands before the text, and the text behind it. -/
def placeholder? (cs : List Char) : Option (String × List Char) :=
  let body := cs.dropWhile Text.isAsciiBlank
  let key := body.takeWhile isKeyChar
  match (body.dropWhile isKeyChar).dropWhile Text.isAsciiBlank with
  | '}' :: rest => if key.isEmpty then none else some (String.ofList key, rest)
  | _ => none

theorem length_dropWhile_le {α : Type} (p : α → Bool) (l : List α) :
    (l.dropWhile p).length ≤ l.length :=
  (List.dropWhile_suffix p).length_le

theorem length_lt_of_placeholder? {cs rest : List Char} {key : String}
    (h : placeholder? cs = some (key, rest)) : rest.length < cs.length := by
  unfold placeholder? at h
  simp only at h
  split at h
  · rename_i r hr
    split at h
    · cases h
    · simp only [Option.some.injEq, Prod.mk.injEq] at h
      have h1 := length_dropWhile_le Text.isAsciiBlank cs
      have h2 := length_dropWhile_le isKeyChar (cs.dropWhile Text.isAsciiBlank)
      have h3 := length_dropWhile_le Text.isAsciiBlank
        ((cs.dropWhile Text.isAsciiBlank).dropWhile isKeyChar)
      rw [hr] at h3
      simp only [List.length_cons] at h3
      rw [← h.2]
      omega
  · cases h

/-- The parts of a template, each placeholder at its leftmost place. -/
def split : List Char → List Piece
  | [] => []
  | '$' :: '{' :: cs =>
    match h : placeholder? cs with
    | some (key, rest) =>
      have := length_lt_of_placeholder? h
      .placeholder key :: split rest
    | none => .literal '$' :: split ('{' :: cs)
  | c :: cs => .literal c :: split cs
  termination_by cs => cs.length

/-- A value as it is put into a text: a string as it is, any other value as JSON. -/
def display : Json → String
  | .str s => s
  | v => v.text

/-- What a part of a template becomes. -/
def Piece.render (context : Json.Members) : Piece → List Char
  | .literal c => [c]
  | .placeholder key =>
    match context.get? key with
    | some v => (display v).toList
    | none => '{' :: (key.toList ++ ['}'])

/-- The keys of the placeholders, in order. -/
def keys (pieces : List Piece) : List String :=
  pieces.filterMap fun
    | .placeholder key => some key
    | .literal _ => none

/-- A rendered template, and the keys of the context that went into it. -/
structure Rendered where
  text : String
  keys : List String
  deriving DecidableEq, Repr

/-- Puts the values of the context into a template. -/
def render (template : String) (context : Json.Members) : Rendered :=
  let pieces := split template.toList
  { text := String.ofList (pieces.flatMap (Piece.render context))
    keys := (keys pieces).filter fun key => (context.get? key).isSome }

end Template

end Parley
