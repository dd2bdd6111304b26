/-
Reading back what was written. The text of a value, with any blanks between its tokens, is read as
that value, its members in the same order (`parse?_of_spells`), as long as the reader can take the
value up at all (`Plain`): containers nested no deeper than it goes, numbers that are integers of a
word, and no name twice in an object.

A value is read up to its last token and not further (`Reads`); what follows a token of a number must
not go on with it (`Delimited`).
-/
import Parley.Proofs.Json.Quoted
import Parley.Proofs.Json.Token
import Parley.Proofs.Text.Digit

namespace Parley.Json

open Json.Parser (isSpace skip value)

/-! ## Plain values -/

/-- An integer that a word of 64 bits has room for, with or without a sign. -/
def IsWord (n : Int) : Prop := -2 ^ 63 ≤ n ∧ n < 2 ^ 64

instance (n : Int) : Decidable (IsWord n) := inferInstanceAs (Decidable (_ ∧ _))

/-- A value that is nested `depth` deep at most, whose numbers are integers of a word and whose
objects have no name twice. -/
inductive Plain : (depth : Nat) → Json → Prop
  | null {depth : Nat} : Plain depth .null
  | bool {depth : Nat} {b : Bool} : Plain depth (.bool b)
  | num {depth : Nat} {n : Int} : IsWord n → Plain depth (.num (.int n))
  | str {depth : Nat} {s : String} : Plain depth (.str s)
  | arr {depth : Nat} {vs : List Json} : (∀ v ∈ vs, Plain depth v) → Plain (depth + 1) (.arr vs)
  | obj {depth : Nat} {ms : Members} : (ms.map Prod.fst).Nodup → (∀ m ∈ ms, Plain depth m.2) →
    Plain (depth + 1) (.obj ms)

/-! ## Repeated names -/

theorem Members.insert_of_not_mem {ms : Members} {k : String} (h : k ∉ ms.map Prod.fst) (v : Json) :
    ms.insert k v = ms ++ [(k, v)] := by
  induction ms with
  | nil => rfl
  | cons m ms ih =>
    rw [List.map_cons, List.mem_cons, not_or] at h
    rw [Members.insert, if_neg (Ne.symm h.1), ih h.2]
    rfl

theorem Members.distinct_of_nodup {ms : Members} (h : (ms.map Prod.fst).Nodup) :
    ms.distinct = ms := by
  -- the names that were taken up before are not among those to come
  suffices hfold : ∀ (ms acc : Members), ((acc ++ ms).map Prod.fst).Nodup →
      ms.foldl (fun acc m => acc.insert m.1 m.2) acc = acc ++ ms from hfold ms [] h
  intro ms
  induction ms with
  | nil => exact fun acc _ => (List.append_nil acc).symm
  | cons m ms ih =>
    intro acc hn
    have hm : m.1 ∉ acc.map Prod.fst := by
      rw [List.map_append, List.map_cons, List.nodup_append] at hn
      exact fun hmem => hn.2.2 _ hmem _ List.mem_cons_self rfl
    rw [List.foldl_cons, Members.insert_of_not_mem hm, ih (acc ++ [m]) (by simpa using hn),
      List.append_assoc]
    rfl

theorem collapseItems_eq {vs : List Json} (h : ∀ v ∈ vs, collapse v = v) : collapseItems vs = vs := by
  induction vs with
  | nil => rfl
  | cons v vs ih =>
    obtain ⟨hv, hvs⟩ := List.forall_mem_cons.1 h
    rw [collapseItems, hv, ih hvs]

theorem collapseMembers_eq {ms : Members} (h : ∀ m ∈ ms, collapse m.2 = m.2) :
    collapseMembers ms = ms := by
  induction ms with
  | nil => rfl
  | cons m ms ih =>
    obtain ⟨hm, hms⟩ := List.forall_mem_cons.1 h
    rw [collapseMembers, hm, ih hms]

/-- A plain value has no repeated name to settle. -/
theorem Plain.collapse_eq {depth : Nat} {v : Json} (h : Plain depth v) : collapse v = v := by
  induction h with
  | null | bool | num | str => rfl
  | arr _ ih => rw [collapse, collapseItems_eq ih]
  | obj hn _ ih => rw [collapse, collapseMembers_eq ih, Members.distinct_of_nodup hn]

/-! ## Numbers -/

/-- A text that does not go on with the token in front of it. -/
def Delimited (rest : List Char) : Prop :=
  ∀ c ∈ rest.head?, isSpace c = true ∨ c = ',' ∨ c = ']' ∨ c = '}'

theorem delimited_nil : Delimited [] := nofun

theorem delimited_cons {c : Char} {rest : List Char}
    (h : isSpace c = true ∨ c = ',' ∨ c = ']' ∨ c = '}') : Delimited (c :: rest) := by
  rintro d ⟨⟩
  exact h

section Numbers

variable {rest : List Char}

/-- The characters that could go on with a number. -/
theorem Delimited.head_ne {c : Char} (h : Delimited (c :: rest)) :
    c.isDigit = false ∧ c ≠ '.' ∧ c ≠ 'e' ∧ c ≠ 'E' := by
  have hc := h c rfl
  simp only [isSpace, Bool.or_eq_true, decide_eq_true_eq] at hc
  rcases hc with (((rfl | rfl) | rfl) | rfl) | rfl | rfl | rfl <;> decide

theorem fraction_of_delimited (h : Delimited rest) : Parser.fraction rest = some (none, rest) := by
  unfold Parser.fraction
  split
  · exact absurd rfl h.head_ne.2.1
  · rfl

theorem exponent_of_delimited (h : Delimited rest) : Parser.exponent rest = some (none, rest) := by
  cases rest with
  | nil => rfl
  | cons c rest =>
    obtain ⟨-, -, he, hE⟩ := h.head_ne
    simp [Parser.exponent, he, hE]

/-- The digits of a number are read to their end. -/
theorem numeral_toDigits (n : Nat) (h : Delimited rest) :
    Parser.numeral (Nat.toDigits 10 n ++ rest) =
      some ((Text.values (Nat.toDigits 10 n), none, none), rest) := by
  have hdigits : Text.digits (Nat.toDigits 10 n ++ rest) = (Text.values (Nat.toDigits 10 n), rest) := by
    refine Text.digits_toDigits n ?_
    cases rest with
    | nil => exact nofun
    | cons c rest =>
      rintro d ⟨⟩
      exact h.head_ne.1
  have hne : Text.values (Nat.toDigits 10 n) ≠ [] := by simp [Text.values]
  -- a leading zero is the only digit
  have hlead : ¬ ((Text.values (Nat.toDigits 10 n)).head? = some 0 ∧
      (Text.values (Nat.toDigits 10 n)).length ≠ 1) := by
    rintro ⟨hz, hl⟩
    rw [Text.eq_zero_of_head?_values n hz] at hl
    exact hl rfl
  unfold Parser.numeral
  rw [hdigits]
  split
  · rename_i hd
    exact absurd (congrArg Prod.fst hd) hne
  · rename_i hd
    cases hd
    rw [if_neg hlead, fraction_of_delimited h]
    simp only [exponent_of_delimited h]
    rfl

theorem unsignedNumber_toDigits (negative : Bool) (n : Nat) (h : Delimited rest) :
    Parser.unsignedNumber negative (Nat.toDigits 10 n ++ rest) =
      (Parser.wholeNumber negative (Text.values (Nat.toDigits 10 n))).map (·, rest) := by
  unfold Parser.unsignedNumber
  rw [numeral_toDigits n h]
  rfl

/-- An integer of a word is read as itself. -/
theorem number_intChars {n : Int} (hn : IsWord n) (h : Delimited rest) :
    Parser.number (intChars n ++ rest) = some (.int n, rest) := by
  obtain ⟨hlow, hhigh⟩ := hn
  unfold intChars
  by_cases hneg : n < 0
  · rw [if_pos hneg, List.cons_append, Parser.number, unsignedNumber_toDigits true _ h,
      Parser.wholeNumber, Text.ofDigits_values]
    have hfits : n.natAbs ≠ 0 ∧ n.natAbs ≤ Nat.pow 2 63 := by
      show _ ∧ n.natAbs ≤ 2 ^ 63
      omega
    have hback : -(n.natAbs : Int) = n := by omega
    simp only [if_true, if_pos hfits, hback]
    rfl
  · rw [if_neg hneg]
    have hfits : n.natAbs ≤ Decimal.wordMax := by
      show n.natAbs ≤ 2 ^ 64 - 1
      omega
    have hback : (n.natAbs : Int) = n := by omega
    have hread := unsignedNumber_toDigits false n.natAbs h
    rw [Parser.wholeNumber, Text.ofDigits_values] at hread
    simp only [Bool.false_eq_true, if_false, if_pos hfits, hback] at hread
    -- the first character is a digit, so it is no sign
    unfold Parser.number
    split
    · rename_i r hr
      obtain ⟨d, ds, hds⟩ := List.exists_cons_of_ne_nil (Nat.toDigits_ne_nil (n := n.natAbs) (b := 10))
      have hd : d.isDigit = true := Text.isDigit_of_mem_decimal (hds ▸ List.mem_cons_self)
      rw [hds] at hr
      cases hr
      cases hd
    · exact hread

end Numbers

/-! ## Values -/

/-- A value is read from its tokens, whatever blanks are in front of them. -/
def Reads (depth : Nat) (v : Json) : Prop :=
  ∀ cs rest, Spaced v.tokens cs → Delimited rest →
    value .strict depth (skip (cs ++ rest)) = some (v, rest)

section Values

variable {depth : Nat}

/-- What has one token is read when the token is. -/
theorem reads_of_token {v : Json} {c : Char} {token : List Char} (ht : v.tokens = [c :: token])
    (hc : isSpace c = false)
    (hv : ∀ rest, Delimited rest → value .strict depth (c :: (token ++ rest)) = some (v, rest)) :
    Reads depth v := by
  intro cs rest hs hr
  rw [ht] at hs
  obtain ⟨back, hback, hskip⟩ := hs.skip_cons hc
  cases hback
  rw [hskip]
  exact hv rest hr

theorem reads_null : Reads depth .null := by
  refine reads_of_token rfl rfl fun rest _ => ?_
  cases depth <;> rfl

theorem reads_bool (b : Bool) : Reads depth (.bool b) := by
  cases b <;> refine reads_of_token rfl rfl fun rest _ => ?_ <;> cases depth <;> rfl

theorem value_quote (cs : List Char) : value .strict depth ('"' :: cs) =
    (Parser.stringBody cs).map fun r => (.str (String.ofList r.1), r.2) := by
  cases depth <;> rfl

theorem reads_str (s : String) : Reads depth (.str s) := by
  refine reads_of_token rfl rfl fun rest _ => ?_
  rw [value_quote, List.append_assoc, List.singleton_append, stringBody_flatMap_escape]
  simp

/-- No number starts with a blank. -/
theorem isSpace_of_numeric {c : Char} (hc : c = '-' ∨ c.isDigit = true) : isSpace c = false := by
  simp only [isSpace, Bool.or_eq_false_iff, decide_eq_false_iff_not]
  refine ⟨⟨⟨?_, ?_⟩, ?_⟩, ?_⟩ <;> rintro rfl <;> rcases hc with hc | hc <;> cases hc

/-- A number is what starts like one. -/
theorem value_numeric {c : Char} (hc : c = '-' ∨ c.isDigit = true) (cs : List Char) :
    value .strict depth (c :: cs) =
      (Parser.number (c :: cs)).map fun r => (.num r.1, r.2) := by
  rw [Parser.value.eq_def]
  split
  case h_7 => rfl
  all_goals
    rename_i h
    cases h
    rcases hc with hc | hc <;> cases hc

theorem intChars_cons (n : Int) : ∃ c cs, intChars n = c :: cs ∧ (c = '-' ∨ c.isDigit = true) := by
  unfold intChars
  split
  · exact ⟨_, _, rfl, .inl rfl⟩
  · obtain ⟨d, ds, hds⟩ := List.exists_cons_of_ne_nil (Nat.toDigits_ne_nil (n := n.natAbs) (b := 10))
    exact ⟨d, ds, hds, .inr (Text.isDigit_of_mem_decimal (hds ▸ List.mem_cons_self))⟩

theorem reads_num {n : Int} (hn : IsWord n) : Reads depth (.num (.int n)) := by
  obtain ⟨c, cs, hcs, hc⟩ := intChars_cons n
  have ht : (Json.num (.int n)).tokens = [c :: cs] := by rw [← hcs]; rfl
  refine reads_of_token ht (isSpace_of_numeric hc) fun rest hr => ?_
  have hread := number_intChars hn hr
  rw [hcs] at hread
  rw [value_numeric hc, ← List.cons_append, hread]
  rfl

/-! ### Containers -/

/-- A text that a value is read from, whatever comes behind it. -/
def Spelling (depth : Nat) (v : Json) (cs : List Char) : Prop :=
  ∀ rest, Delimited rest → value .strict depth (skip (cs ++ rest)) = some (v, rest)

theorem Spelling.behind_blank {v : Json} {blank cs : List Char} (h : Spelling depth v cs)
    (hb : IsBlank blank) : Spelling depth v (blank ++ cs) := by
  intro rest hr
  rw [List.append_assoc, skip_append hb]
  exact h rest hr

/-- Things one after the other, each with a text of its own, with a comma between two of them and a
closing bracket behind the last. -/
inductive Listed {α : Type} (P : α → List Char → Prop) (close : Char) : List α → List Char → Prop
  | last {a : α} {cs blank : List Char} :
    P a cs → IsBlank blank → Listed P close [a] (cs ++ (blank ++ [close]))
  | more {a : α} {as : List α} {cs blank back : List Char} :
    P a cs → IsBlank blank → Listed P close as back →
      Listed P close (a :: as) (cs ++ (blank ++ ',' :: back))

/-- What parts or closes the things in a container does not go on with the one in front. -/
theorem IsBlank.delimited_append {blank : List Char} {c : Char} (h : IsBlank blank)
    (hc : c = ',' ∨ c = ']' ∨ c = '}') (rest : List Char) : Delimited (blank ++ c :: rest) := by
  cases blank with
  | nil => exact delimited_cons (.inr hc)
  | cons b blank => exact delimited_cons (.inl (h b List.mem_cons_self))

theorem skip_blank {blank : List Char} {c : Char} (h : IsBlank blank) (hc : isSpace c = false)
    (rest : List Char) : skip (blank ++ c :: rest) = c :: rest := by
  rw [skip_append h, skip_of_not_space hc]

/-- There is a comma or a bracket for each of the things. -/
theorem Listed.length_le {α : Type} {P : α → List Char → Prop} {close : Char} {as : List α}
    {cs : List Char} (h : Listed P close as cs) (hc : isSpace close = false) (rest : List Char) :
    as.length ≤ (skip (cs ++ rest)).length := by
  induction h with
  | @last a cs blank _ hb =>
    have hle := length_skip_le cs (blank ++ close :: rest)
    rw [skip_blank hb hc] at hle
    simp only [List.append_assoc, List.singleton_append, List.length_cons, List.length_nil] at hle ⊢
    omega
  | @more a as cs blank back _ hb _ ih =>
    have hle := length_skip_le cs (blank ++ ',' :: (back ++ rest))
    have hle' := length_skip_le_length (back ++ rest)
    rw [skip_blank hb rfl] at hle
    simp only [List.append_assoc, List.cons_append, List.length_cons] at hle ⊢
    omega

/-! ### Lists -/

theorem items_of_listed {vs : List Json} {cs : List Char}
    (h : Listed (Spelling depth) ']' vs cs) {fuel : Nat} (hf : vs.length ≤ fuel) (i : Nat)
    (rest : List Char) :
    Parser.items (fun _ => value .strict depth) fuel i (cs ++ rest) = some (vs, rest) := by
  induction h generalizing fuel i with
  | @last v cs blank hv hb =>
    obtain ⟨fuel, rfl⟩ : ∃ n, fuel = n + 1 := ⟨fuel - 1, by rw [List.length_cons] at hf; omega⟩
    have hread := hv (blank ++ ']' :: rest) (hb.delimited_append (.inr (.inl rfl)) rest)
    have hskip : skip (blank ++ ']' :: rest) = ']' :: rest := skip_blank hb rfl rest
    simp only [List.append_assoc, List.singleton_append, Parser.items, hread, hskip]
  | @more v vs cs blank back hv hb _ ih =>
    obtain ⟨fuel, rfl⟩ : ∃ n, fuel = n + 1 := ⟨fuel - 1, by rw [List.length_cons] at hf; omega⟩
    have hread := hv (blank ++ ',' :: (back ++ rest)) (hb.delimited_append (.inl rfl) _)
    have hskip : skip (blank ++ ',' :: (back ++ rest)) = ',' :: (back ++ rest) := skip_blank hb rfl _
    have hmore := ih (Nat.le_of_succ_le_succ hf) (i + 1)
    simp only [List.append_assoc, List.cons_append, Parser.items, hread, hskip, hmore]
    rfl

theorem items_skip (read : Nat → List Char → Text.Step Json) (fuel i : Nat) (cs : List Char) :
    Parser.items read fuel i (skip cs) = Parser.items read fuel i cs := by
  cases fuel with
  | zero => rfl
  | succ fuel => rw [Parser.items, Parser.items, skip_skip]

/-- A value does not start with a closing bracket. -/
theorem value_bracket (cs : List Char) : value .strict depth (']' :: cs) = none := by
  cases depth <;> rfl

theorem list_of_ne {read : Nat → List Char → Text.Step Json} {cs : List Char}
    (h : ∀ r, skip cs ≠ ']' :: r) : Parser.list read cs =
      (Parser.items read (skip cs).length 0 (skip cs)).map fun r => (.arr r.1, r.2) := by
  unfold Parser.list
  split
  · rename_i r hr
    exact absurd hr (h r)
  · rfl

theorem spelling_arr_nil {blank : List Char} (h : IsBlank blank) :
    Spelling (depth + 1) (.arr []) ('[' :: (blank ++ [']'])) := by
  intro rest _
  show Parser.list _ ((blank ++ [']']) ++ rest) = _
  unfold Parser.list
  rw [List.append_assoc, List.singleton_append, skip_blank h rfl]
  rfl

theorem spelling_arr {vs : List Json} {cs : List Char} (h : Listed (Spelling depth) ']' vs cs) :
    Spelling (depth + 1) (.arr vs) ('[' :: cs) := by
  intro rest _
  show Parser.list (fun _ => value .strict depth) (cs ++ rest) = _
  -- the text goes on with the first item, so not with the bracket
  have hne : ∀ r, skip (cs ++ rest) ≠ ']' :: r := by
    intro r hr
    obtain ⟨v, front, back, hv, hd, hcs⟩ : ∃ v front back, Spelling depth v front ∧
        Delimited back ∧ cs ++ rest = front ++ back := by
      cases h with
      | last hv hb =>
        exact ⟨_, _, _, hv, hb.delimited_append (.inr (.inl rfl)) rest, by simp⟩
      | @more v vs front blank back hv hb _ =>
        exact ⟨_, _, _, hv, hb.delimited_append (.inl rfl) (back ++ rest), by simp⟩
    have hread := hv back hd
    rw [← hcs, hr, value_bracket] at hread
    cases hread
  rw [list_of_ne hne, items_skip, items_of_listed h (h.length_le rfl rest) 0 rest]
  rfl

/-- The tokens of the items of a list, the first without a comma in front. -/
theorem listed_items {v : Json} {vs : List Json} (h : ∀ u ∈ v :: vs, Reads depth u)
    {cs : List Char} (hs : Spaced (v.tokens ++ itemsTokens vs) cs) :
    Listed (Spelling depth) ']' (v :: vs) cs := by
  obtain ⟨hv, hvs⟩ := List.forall_mem_cons.1 h
  obtain ⟨front, back, rfl, hfront, hback⟩ := hs.append
  have hspell : Spelling depth v front := fun rest => hv front rest hfront
  cases vs with
  | nil =>
    obtain _ | ⟨hb, hnil⟩ := hback
    cases hnil
    exact .last hspell hb
  | cons u us =>
    obtain _ | ⟨hb, hitems⟩ := hback
    exact .more hspell hb (listed_items hvs hitems)

theorem reads_arr {vs : List Json} (h : ∀ v ∈ vs, Reads depth v) : Reads (depth + 1) (.arr vs) := by
  intro cs rest hs
  cases vs with
  | nil =>
    obtain _ | ⟨hb, hs⟩ := hs
    obtain _ | ⟨hb', hnil⟩ := hs
    cases hnil
    exact (spelling_arr_nil hb').behind_blank hb rest
  | cons v vs =>
    obtain _ | ⟨hb, hitems⟩ := hs
    exact (spelling_arr (listed_items h hitems)).behind_blank hb rest

/-! ### Objects -/

/-- A text of a member: its name in quotes, a colon and a text of its value. -/
inductive MemberText (depth : Nat) : String × Json → List Char → Prop
  | mk {k : String} {v : Json} {blank colon cs : List Char} :
    IsBlank blank → IsBlank colon → Spelling depth v cs →
      MemberText depth (k, v) (blank ++ (quoted k ++ (colon ++ ':' :: cs)))

theorem skip_quoted {blank : List Char} (h : IsBlank blank) (k : String) (back : List Char) :
    skip (blank ++ (quoted k ++ back)) = '"' :: (k.toList.flatMap escape ++ '"' :: back) := by
  rw [quoted, List.cons_append, skip_blank h rfl, List.append_assoc, List.singleton_append]

theorem members_of_listed {ms : Members} {cs : List Char}
    (h : Listed (MemberText depth) '}' ms cs) {fuel : Nat} (hf : ms.length ≤ fuel)
    (rest : List Char) :
    Parser.members Parser.stringBody (fun _ => value .strict depth) fuel (cs ++ rest) =
      some (ms, rest) := by
  have hbefore {colon : List Char} (hb : IsBlank colon) (back : List Char) :
      skip (colon ++ ':' :: back) = ':' :: back := skip_blank hb rfl back
  induction h generalizing fuel with
  | @last m cs close hm hclose =>
    obtain ⟨fuel, rfl⟩ : ∃ n, fuel = n + 1 := ⟨fuel - 1, by rw [List.length_cons] at hf; omega⟩
    obtain @⟨k, v, blank, colon, cs, hb, hcolon, hv⟩ := hm
    have hread := hv (close ++ '}' :: rest) (hclose.delimited_append (.inr (.inr rfl)) rest)
    have hskip : skip (close ++ '}' :: rest) = '}' :: rest := skip_blank hclose rfl rest
    simp only [List.append_assoc, List.cons_append, List.nil_append, Parser.members, skip_quoted hb,
      stringBody_flatMap_escape, hbefore hcolon, hread, hskip, String.ofList_toList]
  | @more m ms cs comma back hm hcomma _ ih =>
    obtain ⟨fuel, rfl⟩ : ∃ n, fuel = n + 1 := ⟨fuel - 1, by rw [List.length_cons] at hf; omega⟩
    obtain @⟨k, v, blank, colon, cs, hb, hcolon, hv⟩ := hm
    have hread := hv (comma ++ ',' :: (back ++ rest)) (hcomma.delimited_append (.inl rfl) _)
    have hskip : skip (comma ++ ',' :: (back ++ rest)) = ',' :: (back ++ rest) :=
      skip_blank hcomma rfl _
    have hmore := ih (Nat.le_of_succ_le_succ hf)
    simp only [List.append_assoc, List.cons_append, Parser.members, skip_quoted hb,
      stringBody_flatMap_escape, hbefore hcolon, hread, hskip, hmore, String.ofList_toList]
    rfl

theorem members_skip (read : String → List Char → Text.Step Json) (fuel : Nat) (cs : List Char) :
    Parser.members Parser.stringBody read fuel (skip cs) =
      Parser.members Parser.stringBody read fuel cs := by
  cases fuel with
  | zero => rfl
  | succ fuel => rw [Parser.members, Parser.members, skip_skip]

theorem object_of_quote {read : String → List Char → Text.Step Json} {cs r : List Char}
    (h : skip cs = '"' :: r) : Parser.object Parser.stringBody read cs =
      (Parser.members Parser.stringBody read (skip cs).length cs).map fun r => (.obj r.1, r.2) := by
  rw [← members_skip]
  unfold Parser.object
  rw [h]
  rfl

theorem spelling_obj_nil {blank : List Char} (h : IsBlank blank) :
    Spelling (depth + 1) (.obj []) ('{' :: (blank ++ ['}'])) := by
  intro rest _
  show Parser.object _ _ ((blank ++ ['}']) ++ rest) = _
  unfold Parser.object
  rw [List.append_assoc, List.singleton_append, skip_blank h rfl]
  rfl

theorem spelling_obj {ms : Members} {cs : List Char} (h : Listed (MemberText depth) '}' ms cs) :
    Spelling (depth + 1) (.obj ms) ('{' :: cs) := by
  intro rest _
  show Parser.object Parser.stringBody (fun _ => value .strict depth) (cs ++ rest) = _
  -- the text goes on with the name of the first member
  obtain ⟨r, hquote⟩ : ∃ r, skip (cs ++ rest) = '"' :: r := by
    cases h with
    | last hm _ | more hm _ _ =>
      cases hm with
      | mk hb _ _ =>
        simp only [List.append_assoc, skip_quoted hb]
        exact ⟨_, rfl⟩
  rw [object_of_quote hquote, members_of_listed h (h.length_le rfl rest) rest]
  rfl

/-- The tokens of the members of an object, the first without a comma in front. -/
theorem listed_members {k : String} {v : Json} {ms : Members}
    (h : ∀ m ∈ (k, v) :: ms, Reads depth m.2) {cs : List Char}
    (hs : Spaced (quoted k :: [':'] :: (v.tokens ++ membersTokens ms)) cs) :
    Listed (MemberText depth) '}' ((k, v) :: ms) cs := by
  obtain ⟨hv, hms⟩ := List.forall_mem_cons.1 h
  obtain _ | ⟨hb, hs⟩ := hs
  obtain _ | ⟨hcolon, hs⟩ := hs
  obtain ⟨front, back, rfl, hfront, hback⟩ := hs.append
  have hspell := MemberText.mk (k := k) hb hcolon fun rest => hv front rest hfront
  cases ms with
  | nil =>
    obtain _ | ⟨hclose, hnil⟩ := hback
    cases hnil
    simpa using Listed.last hspell hclose
  | cons m ms =>
    obtain _ | ⟨hcomma, hmembers⟩ := hback
    simpa using Listed.more hspell hcomma (listed_members hms hmembers)

theorem reads_obj {ms : Members} (h : ∀ m ∈ ms, Reads depth m.2) :
    Reads (depth + 1) (.obj ms) := by
  intro cs rest hs
  cases ms with
  | nil =>
    obtain _ | ⟨hb, hs⟩ := hs
    obtain _ | ⟨hb', hnil⟩ := hs
    cases hnil
    exact (spelling_obj_nil hb').behind_blank hb rest
  | cons m ms =>
    obtain _ | ⟨hb, hmembers⟩ := hs
    exact (spelling_obj (listed_members h hmembers)).behind_blank hb rest

end Values

/-! ## Texts -/

/-- A plain value is read from its tokens. -/
theorem Plain.reads {depth : Nat} {v : Json} (h : Plain depth v) : Reads depth v := by
  induction h with
  | null => exact reads_null
  | bool => exact reads_bool _
  | num hn => exact reads_num hn
  | str => exact reads_str _
  | arr _ ih => exact reads_arr ih
  | obj _ _ ih => exact reads_obj ih

theorem IsBlank.delimited {blank : List Char} (h : IsBlank blank) : Delimited blank := by
  cases blank with
  | nil => exact delimited_nil
  | cons c blank => exact delimited_cons (.inl (h c List.mem_cons_self))

/-- A text is read when nothing but blanks is left of it. -/
theorem parseAs?_eq_some_iff {read : Parser.Reader} {s : String} {v : Json} :
    parseAs? read s = some v ↔
      ∃ r, read Parser.maxDepth (skip s.toList) = some (v, r) ∧ skip r = [] := by
  unfold parseAs?
  cases read Parser.maxDepth (skip s.toList) with
  | none => simp
  | some step =>
    obtain ⟨u, r⟩ := step
    by_cases hr : skip r = [] <;> simp [hr]

theorem parse?_of_read {s : String} {v : Json} {r : List Char}
    (hread : Parser.whole Parser.maxDepth (skip s.toList) = some (v, r)) (hend : skip r = []) :
    parse? s = some (collapse v) :=
  Option.map_eq_some_iff.2 ⟨v, parseAs?_eq_some_iff.2 ⟨r, hread, hend⟩, rfl⟩

/-- A text of a value, with blanks behind it, is read as the value with its repeated names settled. -/
theorem parse?_of_spelling {v : Json} {cs blank : List Char} {s : String}
    (h : Spelling Parser.maxDepth v cs) (hb : IsBlank blank) (hs : s.toList = cs ++ blank) :
    parse? s = some (collapse v) := by
  have hread : Parser.whole Parser.maxDepth (skip s.toList) = some (v, blank) := by
    rw [hs]
    exact h blank hb.delimited
  have hend : skip blank = [] := by
    rw [← List.append_nil blank, skip_append hb]
    rfl
  exact parse?_of_read hread hend

/-- A plain value is read from any text of it, with its members in the same order. -/
theorem parse?_of_spells {v : Json} {s : String} (h : Plain Parser.maxDepth v) (hs : Spells v s) :
    parse? s = some v := by
  obtain ⟨cs, blank, hcs, hblank, hs⟩ := hs
  have hspell : Spelling Parser.maxDepth v cs := fun rest => h.reads cs rest hcs
  rw [parse?_of_spelling hspell hblank hs, h.collapse_eq]

end Parley.Json
