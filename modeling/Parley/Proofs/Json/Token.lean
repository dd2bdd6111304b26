/-
JSON text as tokens with blanks between them. A value has one sequence of tokens (`tokens`); the
compact text writes them one after the other (`flatten_tokens`), and every text of the value differs
from that only by blanks in front of the tokens and at the end (`Spells`).
-/
import Parley.Json.Parser
import Parley.Json.Printer
import Mathlib.Data.List.DropRight

namespace Parley.Json

open Json.Parser (isSpace skip)

/-! ## Tokens -/

mutual

/-- The tokens of a value, as the compact text writes them. -/
def tokens : Json → List (List Char)
  | .null => [chars .null]
  | .bool b => [chars (.bool b)]
  | .num n => [n.chars]
  | .str s => [quoted s]
  | .arr [] => [['['], [']']]
  | .arr (v :: vs) => ['['] :: (tokens v ++ itemsTokens vs)
  | .obj [] => [['{'], ['}']]
  | .obj ((k, v) :: ms) => ['{'] :: quoted k :: [':'] :: (tokens v ++ membersTokens ms)

/-- The tokens behind the first item of a list. -/
def itemsTokens : List Json → List (List Char)
  | [] => [[']']]
  | v :: vs => [','] :: (tokens v ++ itemsTokens vs)

/-- The tokens behind the first member of an object. -/
def membersTokens : List (String × Json) → List (List Char)
  | [] => [['}']]
  | (k, v) :: ms => [','] :: quoted k :: [':'] :: (tokens v ++ membersTokens ms)

end

mutual

/-- The compact text is the tokens without a blank. -/
theorem flatten_tokens : ∀ v : Json, v.tokens.flatten = v.chars
  | .null => rfl
  | .bool _ => List.append_nil _
  | .num _ => List.append_nil _
  | .str _ => List.append_nil _
  | .arr [] => rfl
  | .arr (v :: vs) => by
    simp [tokens, chars, flatten_tokens v, flatten_itemsTokens vs]
  | .obj [] => rfl
  | .obj ((k, v) :: ms) => by
    simp [tokens, chars, flatten_tokens v, flatten_membersTokens ms]

theorem flatten_itemsTokens : ∀ vs : List Json, (itemsTokens vs).flatten = itemsChars vs
  | [] => rfl
  | v :: vs => by
    simp [itemsTokens, itemsChars, flatten_tokens v, flatten_itemsTokens vs]

theorem flatten_membersTokens :
    ∀ ms : List (String × Json), (membersTokens ms).flatten = membersChars ms
  | [] => rfl
  | (k, v) :: ms => by
    simp [membersTokens, membersChars, flatten_tokens v, flatten_membersTokens ms]

end

/-! ## Blanks -/

/-- Characters that may stand between two tokens. -/
def IsBlank (cs : List Char) : Prop :=
  ∀ c ∈ cs, isSpace c = true

instance (cs : List Char) : Decidable (IsBlank cs) := List.decidableBAll _ cs

theorem isBlank_nil : IsBlank [] := nofun

/-- Tokens one after the other, with blanks in front of any of them. -/
inductive Spaced : List (List Char) → List Char → Prop
  | nil : Spaced [] []
  | cons {blank token cs : List Char} {ts : List (List Char)} :
    IsBlank blank → Spaced ts cs → Spaced (token :: ts) (blank ++ (token ++ cs))

/-- A text of a value: its tokens with any blanks in front, between and behind. -/
def Spells (v : Json) (s : String) : Prop :=
  ∃ cs blank, Spaced v.tokens cs ∧ IsBlank blank ∧ s.toList = cs ++ blank

/-- The same blanks in front of every token. -/
theorem spaced_flatMap {blank : List Char} (h : IsBlank blank) (ts : List (List Char)) :
    Spaced ts (ts.flatMap (blank ++ ·)) := by
  induction ts with
  | nil => exact .nil
  | cons t ts ih =>
    rw [List.flatMap_cons, List.append_assoc]
    exact .cons h ih

/-- The compact text is a text of the value. -/
theorem spells_text (v : Json) : Spells v v.text := by
  refine ⟨v.tokens.flatMap ([] ++ ·), [], spaced_flatMap isBlank_nil _, isBlank_nil, ?_⟩
  rw [text, String.toList_ofList, ← flatten_tokens]
  simp [List.flatMap_def]

theorem Spaced.append {ts us : List (List Char)} {cs : List Char} (h : Spaced (ts ++ us) cs) :
    ∃ front back, cs = front ++ back ∧ Spaced ts front ∧ Spaced us back := by
  induction ts generalizing cs with
  | nil => exact ⟨[], cs, rfl, .nil, h⟩
  | cons t ts ih =>
    cases h with
    | cons hb h =>
      obtain ⟨front, back, rfl, hf, hk⟩ := ih h
      refine ⟨_, back, ?_, .cons hb hf, hk⟩
      simp only [List.append_assoc]

theorem Spaced.mem {ts : List (List Char)} {cs token : List Char} {c : Char} (h : Spaced ts cs)
    (ht : token ∈ ts) (hc : c ∈ token) : c ∈ cs := by
  induction h with
  | nil => cases ht
  | cons _ _ ih =>
    rcases List.mem_cons.1 ht with rfl | ht
    · simp [hc]
    · simp [ih ht]

/-! ## Skipping blanks -/

theorem skip_append {blank : List Char} (h : IsBlank blank) (cs : List Char) :
    skip (blank ++ cs) = skip cs := by
  unfold skip
  rw [List.dropWhile_append, List.dropWhile_eq_nil_iff.2 h]
  rfl

theorem skip_of_not_space {c : Char} (h : isSpace c = false) (cs : List Char) :
    skip (c :: cs) = c :: cs := by
  unfold skip
  rw [List.dropWhile_cons, h]
  rfl

theorem skip_skip (cs : List Char) : skip (skip cs) = skip cs :=
  List.dropWhile_idempotent _ _

theorem length_skip_le_length (cs : List Char) : (skip cs).length ≤ cs.length :=
  (List.dropWhile_suffix isSpace).length_le

theorem length_skip_le (front back : List Char) :
    (skip back).length ≤ (skip (front ++ back)).length := by
  unfold skip
  rw [List.dropWhile_append]
  split
  · exact Nat.le_refl _
  · rw [List.length_append]
    have := length_skip_le_length back
    unfold skip at this
    omega

/-- The next token is found behind the blanks. -/
theorem Spaced.skip_cons {c : Char} {token cs : List Char} {ts : List (List Char)}
    (h : Spaced ((c :: token) :: ts) cs) (hc : isSpace c = false) :
    ∃ back, Spaced ts back ∧ ∀ rest, skip (cs ++ rest) = c :: (token ++ (back ++ rest)) := by
  cases h with
  | @cons _ _ back _ hb h =>
    refine ⟨back, h, fun rest => ?_⟩
    rw [List.append_assoc, skip_append hb, List.cons_append, List.cons_append, List.append_assoc]
    exact skip_of_not_space hc _

end Parley.Json
