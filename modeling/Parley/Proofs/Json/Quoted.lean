/-
Strings inside JSON text. What is written for a character is read back as that character, so a
string in quotes is read to its end and says which string it is (`quoted_injective`). A text that is
made of a string in quotes and of parts that do not depend on the string (`Displays`) says it too:
two strings that look the same in one place of an indented text are the same.
-/
import Parley.Json.Parser
import Parley.Json.Printer
import Mathlib.Tactic.SplitIfs

namespace Parley.Json

open Text (prepend)

/-! ## Strings in quotes -/

/-- The digits of a character below the space stand for its code point. -/
theorem ofHex?_lowerHexDigits {n : Nat} (h : n < 32) :
    Text.ofHex? ['0', '0', Text.lowerHexDigit (n / 16), Text.lowerHexDigit (n % 16)] = some n := by
  revert n
  decide

theorem single?_toNat (c : Char) : Parser.single? c.toNat = some c := by
  have hvalid : ¬ (0xd800 ≤ c.toNat ∧ c.toNat ≤ 0xdfff) := by
    have hc : c.toNat.isValidChar := c.valid
    unfold Nat.isValidChar at hc
    omega
  rw [Parser.single?, if_neg hvalid, Char.ofNat_toNat]

theorem eq_of_toNat_eq {c : Char} {n : Nat} (h : c.toNat = n) : c = Char.ofNat n := by
  rw [← h, Char.ofNat_toNat]

/-- A written character is read as itself. -/
theorem stringBody_escape (c : Char) (rest : List Char) :
    Parser.stringBody (escape c ++ rest) = prepend (some c) (Parser.stringBody rest) := by
  unfold escape
  -- one case for each way in which a character is written
  split_ifs with hquote hslash hline hreturn htab hback hfeed hlow
  · subst hquote; rfl
  · subst hslash; rfl
  · subst hline; rfl
  · subst hreturn; rfl
  · subst htab; rfl
  · rw [eq_of_toNat_eq hback]; rfl
  · rw [eq_of_toNat_eq hfeed]; rfl
  · show Parser.stringBody ('\\' :: 'u' :: '0' :: '0' :: Text.lowerHexDigit (c.toNat / 16) ::
      Text.lowerHexDigit (c.toNat % 16) :: rest) = _
    rw [Parser.stringBody, ofHex?_lowerHexDigits hlow]
    dsimp only
    rw [single?_toNat]
  · rw [List.singleton_append, Parser.stringBody, if_neg hlow]
    · exact hquote
    · exact fun _ _ _ _ _ h _ => hslash h
    · exact fun _ _ h _ => hslash h

/-- A string in quotes is read to its end. -/
theorem stringBody_flatMap_escape (cs rest : List Char) :
    Parser.stringBody (cs.flatMap escape ++ '"' :: rest) = some (cs, rest) := by
  induction cs with
  | nil => rfl
  | cons c cs ih =>
    rw [List.flatMap_cons, List.append_assoc, stringBody_escape, ih]
    rfl

theorem quoted_injective {s t : String} (h : quoted s = quoted t) : s = t := by
  have hbody : s.toList.flatMap escape ++ ['"'] = t.toList.flatMap escape ++ ['"'] :=
    List.tail_eq_of_cons_eq h
  have hread := stringBody_flatMap_escape s.toList []
  rw [hbody, stringBody_flatMap_escape, Option.some.injEq, Prod.mk.injEq] at hread
  exact String.toList_inj.1 hread.1.symm

/-! ## Strings in one place of a text -/

/-- A text shows a string in quotes, between parts that do not depend on the string. -/
def Displays (f : String → List Char) : Prop :=
  ∃ before after, ∀ s, f s = before ++ (quoted s ++ after)

theorem displays_quoted : Displays quoted :=
  ⟨[], [], fun _ => (List.append_nil _).symm⟩

theorem displays_str (level : Nat) : Displays fun s => indentedChars level (.str s) := by
  simpa only [indentedChars, chars] using displays_quoted

theorem Displays.injective {f : String → List Char} (h : Displays f) {s t : String}
    (hst : f s = f t) : s = t := by
  obtain ⟨before, after, hf⟩ := h
  rw [hf, hf] at hst
  exact quoted_injective (List.append_cancel_right (List.append_cancel_left hst))

theorem Displays.between {f : String → List Char} (h : Displays f) (before after : List Char) :
    Displays fun s => before ++ (f s ++ after) := by
  obtain ⟨b, a, hf⟩ := h
  refine ⟨before ++ b, a ++ after, fun s => ?_⟩
  simp only [hf, List.append_assoc]

/-- The members of an object show what one of them shows. -/
theorem displays_indentedMembers {v : String → Json} {level : Nat}
    (h : Displays fun s => indentedChars (level + 1) (v s)) (key : String) (pre post : Members) :
    Displays fun s => indentedMembers level (pre ++ (key, v s) :: post) := by
  induction pre with
  | nil =>
    have := h.between (',' :: (newLine (level + 1) ++ quoted key ++ [':', ' ']))
      (indentedMembers level post)
    simpa [indentedMembers] using this
  | cons m pre ih =>
    have := ih.between (',' :: (newLine (level + 1) ++ quoted m.1 ++ ':' :: ' ' ::
      indentedChars (level + 1) m.2)) []
    simpa [indentedMembers] using this

theorem displays_indentedObj {v : String → Json} {level : Nat}
    (h : Displays fun s => indentedChars (level + 1) (v s)) (key : String) (pre post : Members) :
    Displays fun s => indentedChars level (.obj (pre ++ (key, v s) :: post)) := by
  cases pre with
  | nil =>
    have := h.between ('{' :: (newLine (level + 1) ++ quoted key ++ [':', ' ']))
      (indentedMembers level post)
    simpa [indentedChars] using this
  | cons m pre =>
    have := (displays_indentedMembers h key pre post).between ('{' :: (newLine (level + 1) ++
      quoted m.1 ++ ':' :: ' ' :: indentedChars (level + 1) m.2)) []
    simpa [indentedChars] using this

end Parley.Json
