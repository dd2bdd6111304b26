/-
Values that have a text. What the reader gives is nested no deeper than it goes and has numbers
that some text stands for (`legible_of_value`), and any such value can be written so that it is
given again (`Legible.spelling`): a number with the digits that it was taken from, a container by
the texts of what is in it. So an object that was read can be read with some of its members left
out (`parse?_of_sublist`).
-/
import Parley.Proofs.Json.Reading
import Mathlib.Data.List.Nodup

namespace Parley.Json

open Json.Parser (isSpace skip value)

/-! ## Digits -/

/-- Characters that do not go on with the digits in front of them. -/
def EndsDigits (rest : List Char) : Prop :=
  ∀ c ∈ rest.head?, c.isDigit = false

/-- Characters that do not go on with the integer in front of them by digits or a fraction. -/
def EndsInteger (rest : List Char) : Prop :=
  ∀ c ∈ rest.head?, c.isDigit = false ∧ c ≠ '.'

theorem EndsInteger.endsDigits {rest : List Char} (h : EndsInteger rest) : EndsDigits rest :=
  fun c hc => (h c hc).1

theorem Delimited.endsInteger {rest : List Char} (h : Delimited rest) : EndsInteger rest := by
  cases rest with
  | nil => exact nofun
  | cons c rest =>
    rintro d ⟨⟩
    exact ⟨h.head_ne.1, h.head_ne.2.1⟩

/-- Digits, one at least, that some characters stand for, whatever ends them. -/
def Written (ds : List Nat) : Prop :=
  ds ≠ [] ∧ ∃ c cs, c.isDigit = true ∧ ∀ rest, EndsDigits rest →
    Text.digits (c :: (cs ++ rest)) = (ds, rest)

theorem exists_values (cs : List Char) :
    ∃ front, (∀ c ∈ front, c.isDigit = true) ∧ Text.values front = (Text.digits cs).1 := by
  induction cs with
  | nil => exact ⟨[], nofun, rfl⟩
  | cons c cs ih =>
    obtain ⟨front, hfront, hvalues⟩ := ih
    rw [Text.digits, Text.digit?]
    by_cases hc : c.isDigit = true
    · refine ⟨c :: front, List.forall_mem_cons.2 ⟨hc, hfront⟩, ?_⟩
      rw [if_pos hc]
      exact congrArg _ hvalues
    · rw [if_neg hc]
      exact ⟨[], nofun, rfl⟩

/-- Digits that were read can be written. -/
theorem written_of_digits {cs r : List Char} {ds : List Nat} (h : Text.digits cs = (ds, r))
    (hne : ds ≠ []) : Written ds := by
  obtain ⟨front, hfront, hvalues⟩ := exists_values cs
  rw [h] at hvalues
  cases front with
  | nil => exact absurd hvalues.symm hne
  | cons c front =>
    refine ⟨hne, c, front, hfront c List.mem_cons_self, fun rest hr => ?_⟩
    rw [← List.cons_append, Text.digits_append hfront hr, hvalues]

/-! ## Parts of a number -/

theorem written_of_fraction {cs r : List Char} {ds : List Nat}
    (h : Parser.fraction cs = some (some ds, r)) : Written ds := by
  unfold Parser.fraction at h
  split at h
  · split at h
    · cases h
    · rename_i hne hd
      cases h
      exact written_of_digits hd hne
  · cases h

/-- The exponent that digits stand for, with a sign. -/
def signed (negative : Bool) (ds : List Nat) : Int :=
  if negative then -(Text.ofDigits ds : Int) else Text.ofDigits ds

theorem written_of_exponent {cs r : List Char} {e : Int}
    (h : Parser.exponent cs = some (some e, r)) :
    ∃ negative ds, Written ds ∧ e = signed negative ds := by
  unfold Parser.exponent at h
  dsimp only at h
  split at h
  · cases h
  split at h
  case isFalse => cases h
  -- in front of the digits there is a plus, a minus or no sign
  split at h
  all_goals
    split at h
    · cases h
    · rename_i hne hd
      cases h
      exact ⟨_, _, written_of_digits hd hne, rfl⟩

/-! ## Numbers -/

/-- A fraction is written with its digits, and its absence with nothing. -/
theorem exists_fraction {f : Option (List Nat)} (h : ∀ ds, f = some ds → Written ds) :
    ∃ front, ∀ rest, EndsInteger rest →
      Parser.fraction (front ++ rest) = some (f, rest) ∧ EndsDigits (front ++ rest) := by
  cases f with
  | none =>
    refine ⟨[], fun rest hr => ⟨?_, hr.endsDigits⟩⟩
    rw [List.nil_append]
    unfold Parser.fraction
    split
    · exact absurd rfl (hr '.' rfl).2
    · rfl
  | some ds =>
    obtain ⟨hne, c, cs, -, hcs⟩ := h ds rfl
    obtain ⟨d, ds, rfl⟩ := List.exists_cons_of_ne_nil hne
    refine ⟨'.' :: c :: cs, fun rest hr => ⟨?_, ?_⟩⟩
    · simp only [List.cons_append, Parser.fraction, hcs rest hr.endsDigits]
    · rintro d ⟨⟩
      rfl

/-- An exponent is written with a sign and its digits, and its absence with nothing. -/
theorem exists_exponent {e : Option Int}
    (h : ∀ n, e = some n → ∃ negative ds, Written ds ∧ n = signed negative ds) :
    ∃ front, ∀ rest, Delimited rest →
      Parser.exponent (front ++ rest) = some (e, rest) ∧ EndsInteger (front ++ rest) := by
  cases e with
  | none => exact ⟨[], fun rest hr => ⟨exponent_of_delimited hr, hr.endsInteger⟩⟩
  | some n =>
    obtain ⟨negative, ds, ⟨hne, c, cs, -, hcs⟩, rfl⟩ := h n rfl
    obtain ⟨d, ds, rfl⟩ := List.exists_cons_of_ne_nil hne
    refine ⟨'e' :: (if negative then '-' else '+') :: c :: cs, fun rest hr => ⟨?_, ?_⟩⟩
    · have hread := hcs rest hr.endsInteger.endsDigits
      cases negative <;> simp [Parser.exponent, hread, signed]
    · rintro d ⟨⟩
      decide

/-- What a step gave is given again behind a digit, whatever delimits it. -/
def Repeats {α : Type} (step : List Char → Text.Step α) (a : α) : Prop :=
  ∃ c cs, c.isDigit = true ∧ ∀ rest, Delimited rest → step (c :: (cs ++ rest)) = some (a, rest)

theorem repeats_numeral {cs r : List Char} {n : List Nat × Option (List Nat) × Option Int}
    (h : Parser.numeral cs = some (n, r)) : Repeats Parser.numeral n := by
  unfold Parser.numeral at h
  split at h
  · cases h
  rename_i ds r hne hdigits
  split at h
  · cases h
  rename_i hlead
  split at h
  · cases h
  rename_i f r hfraction
  obtain ⟨⟨e, r⟩, hexponent, h⟩ := Option.map_eq_some_iff.1 h
  cases h
  obtain ⟨-, c, front, hc, hfront⟩ := written_of_digits hdigits hne
  obtain ⟨point, hpoint⟩ := exists_fraction (f := f) fun ds hds => by
    subst hds
    exact written_of_fraction hfraction
  obtain ⟨power, hpower⟩ := exists_exponent (e := e) fun n hn => by
    subst hn
    exact written_of_exponent hexponent
  refine ⟨c, front ++ (point ++ power), hc, fun rest hr => ?_⟩
  obtain ⟨hreadPower, hendsInteger⟩ := hpower rest hr
  obtain ⟨hreadPoint, hendsDigits⟩ := hpoint _ hendsInteger
  have hreadDigits := hfront _ hendsDigits
  obtain ⟨d, ds, rfl⟩ := List.exists_cons_of_ne_nil hne
  simp only [List.append_assoc, Parser.numeral, hreadDigits, if_neg hlead, hreadPoint, hreadPower]
  rfl

theorem repeats_unsignedNumber {negative : Bool} {cs r : List Char} {n : Number}
    (h : Parser.unsignedNumber negative cs = some (n, r)) :
    Repeats (Parser.unsignedNumber negative) n := by
  unfold Parser.unsignedNumber at h
  split at h
  · cases h
  rename_i ds f e r hnumeral
  obtain ⟨n, hn, h⟩ := Option.map_eq_some_iff.1 h
  cases h
  obtain ⟨c, front, hc, hfront⟩ := repeats_numeral hnumeral
  refine ⟨c, front, hc, fun rest hr => ?_⟩
  unfold Parser.unsignedNumber
  rw [hfront rest hr]
  simp only [hn]
  rfl

/-- A number that was read can be written, with a sign or a digit in front. -/
theorem exists_number {cs r : List Char} {n : Number} (h : Parser.number cs = some (n, r)) :
    ∃ c front, (c = '-' ∨ c.isDigit = true) ∧ ∀ rest, Delimited rest →
      Parser.number (c :: (front ++ rest)) = some (n, rest) := by
  unfold Parser.number at h
  split at h
  · obtain ⟨c, front, -, hfront⟩ := repeats_unsignedNumber h
    exact ⟨'-', c :: front, .inl rfl, hfront⟩
  · obtain ⟨c, front, hc, hfront⟩ := repeats_unsignedNumber h
    refine ⟨c, front, .inr hc, fun rest hr => ?_⟩
    unfold Parser.number
    split
    · rename_i heq
      cases heq
      cases hc
    · exact hfront rest hr

/-! ## Values -/

/-- A value that is nested `depth` deep at most and whose numbers some text stands for. -/
inductive Legible : (depth : Nat) → Json → Prop
  | null {depth : Nat} : Legible depth .null
  | bool {depth : Nat} {b : Bool} : Legible depth (.bool b)
  | num {depth : Nat} {n : Number} {cs r : List Char} :
    Parser.number cs = some (n, r) → Legible depth (.num n)
  | str {depth : Nat} {s : String} : Legible depth (.str s)
  | arr {depth : Nat} {vs : List Json} : (∀ v ∈ vs, Legible depth v) → Legible (depth + 1) (.arr vs)
  | obj {depth : Nat} {ms : Members} :
    (∀ m ∈ ms, Legible depth m.2) → Legible (depth + 1) (.obj ms)

section Values

variable {depth : Nat}

/-! ### What is written -/

/-- The tokens of a value are a text of it. -/
theorem Reads.spelling {v : Json} (h : Reads depth v) : ∃ cs, Spelling depth v cs :=
  ⟨_, fun rest => h _ rest (spaced_flatMap isBlank_nil v.tokens)⟩

theorem spelling_num {cs r : List Char} {n : Number} (h : Parser.number cs = some (n, r)) :
    ∃ cs, Spelling depth (.num n) cs := by
  obtain ⟨c, front, hc, hfront⟩ := exists_number h
  refine ⟨c :: front, fun rest hr => ?_⟩
  rw [List.cons_append, skip_of_not_space (isSpace_of_numeric hc), value_numeric hc, hfront rest hr]
  rfl

/-- Things that have a text each can be listed, if there is one at least. -/
theorem exists_listed {α : Type} {P : α → List Char → Prop} (close : Char) {a : α} {as : List α}
    (h : ∀ b ∈ a :: as, ∃ cs, P b cs) : ∃ cs, Listed P close (a :: as) cs := by
  induction as generalizing a with
  | nil =>
    obtain ⟨cs, hcs⟩ := h a List.mem_cons_self
    exact ⟨_, .last hcs isBlank_nil⟩
  | cons b as ih =>
    obtain ⟨⟨cs, hcs⟩, has⟩ := List.forall_mem_cons.1 h
    obtain ⟨back, hback⟩ := ih has
    exact ⟨_, .more hcs isBlank_nil hback⟩

/-- A legible value has a text. -/
theorem Legible.spelling {v : Json} (h : Legible depth v) : ∃ cs, Spelling depth v cs := by
  induction h with
  | null => exact reads_null.spelling
  | bool => exact (reads_bool _).spelling
  | num hn => exact spelling_num hn
  | str => exact (reads_str _).spelling
  | @arr depth vs _ ih =>
    cases vs with
    | nil => exact ⟨_, spelling_arr_nil isBlank_nil⟩
    | cons v vs =>
      obtain ⟨cs, hcs⟩ := exists_listed ']' ih
      exact ⟨_, spelling_arr hcs⟩
  | @obj depth ms _ ih =>
    cases ms with
    | nil => exact ⟨_, spelling_obj_nil isBlank_nil⟩
    | cons m ms =>
      have htext : ∀ n ∈ m :: ms, ∃ cs, MemberText depth n cs := by
        intro n hn
        obtain ⟨cs, hcs⟩ := ih n hn
        exact ⟨_, .mk isBlank_nil isBlank_nil hcs⟩
      obtain ⟨cs, hcs⟩ := exists_listed '}' htext
      exact ⟨_, spelling_obj hcs⟩

/-! ### What is read -/

/-- The items of a list are what their reader gave. -/
theorem forall_items {read : Nat → List Char → Text.Step Json} {P : Json → Prop}
    (hread : ∀ i cs v r, read i cs = some (v, r) → P v) {fuel i : Nat} {cs r : List Char}
    {vs : List Json} (h : Parser.items read fuel i cs = some (vs, r)) : ∀ v ∈ vs, P v := by
  induction fuel generalizing i cs vs r with
  | zero => cases h
  | succ fuel ih =>
    unfold Parser.items at h
    split at h
    · cases h
    rename_i v back hv
    have hfirst := hread _ _ _ _ hv
    split at h
    · obtain ⟨⟨us, r⟩, hus, h⟩ := Option.map_eq_some_iff.1 h
      cases h
      exact List.forall_mem_cons.2 ⟨hfirst, ih hus⟩
    · cases h
      exact List.forall_mem_singleton.2 hfirst
    · cases h

theorem forall_members {read : String → List Char → Text.Step Json} {P : Json → Prop}
    (hread : ∀ k cs v r, read k cs = some (v, r) → P v) {fuel : Nat} {cs r : List Char}
    {ms : Members} (h : Parser.members Parser.stringBody read fuel cs = some (ms, r)) :
    ∀ m ∈ ms, P m.2 := by
  induction fuel generalizing cs ms r with
  | zero => cases h
  | succ fuel ih =>
    unfold Parser.members at h
    split at h
    case h_2 => cases h
    split at h
    · cases h
    split at h
    case h_2 => cases h
    split at h
    · cases h
    rename_i v back hv
    have hfirst := hread _ _ _ _ hv
    split at h
    · obtain ⟨⟨ns, r⟩, hns, h⟩ := Option.map_eq_some_iff.1 h
      cases h
      exact List.forall_mem_cons.2 ⟨hfirst, ih hns⟩
    · cases h
      exact List.forall_mem_singleton.2 hfirst
    · cases h

theorem legible_of_list
    (hread : ∀ cs v r, value .strict depth cs = some (v, r) → Legible depth v) {cs r : List Char}
    {v : Json} (h : Parser.list (fun _ => value .strict depth) cs = some (v, r)) :
    Legible (depth + 1) v := by
  unfold Parser.list at h
  split at h
  · cases h
    exact .arr nofun
  · obtain ⟨_, hitems, h⟩ := Option.map_eq_some_iff.1 h
    cases h
    exact .arr (forall_items (fun _ => hread) hitems)

theorem legible_of_object
    (hread : ∀ cs v r, value .strict depth cs = some (v, r) → Legible depth v) {cs r : List Char}
    {v : Json}
    (h : Parser.object Parser.stringBody (fun _ => value .strict depth) cs = some (v, r)) :
    Legible (depth + 1) v := by
  unfold Parser.object at h
  split at h
  · cases h
    exact .obj nofun
  · obtain ⟨_, hmembers, h⟩ := Option.map_eq_some_iff.1 h
    cases h
    exact .obj (forall_members (fun _ => hread) hmembers)

/-- Whatever is read is legible. -/
theorem legible_of_value {cs r : List Char} {v : Json}
    (h : value .strict depth cs = some (v, r)) : Legible depth v := by
  induction depth using Nat.strong_induction_on generalizing cs v r with
  | _ depth ih =>
    rw [Parser.value.eq_def] at h
    split at h
    · cases h
      exact .null
    · cases h
      exact .bool
    · cases h
      exact .bool
    · obtain ⟨_, _, h⟩ := Option.map_eq_some_iff.1 h
      cases h
      exact .str
    · exact legible_of_list (fun _ _ _ => ih _ (Nat.lt_succ_self _)) h
    · exact legible_of_object (fun _ _ _ => ih _ (Nat.lt_succ_self _)) h
    · obtain ⟨_, hnumber, h⟩ := Option.map_eq_some_iff.1 h
      cases h
      exact .num hnumber

end Values

/-! ## Repeated names -/

namespace Members

theorem names_insert_of_mem {ms : Members} {k : String} (h : k ∈ ms.map Prod.fst) (v : Json) :
    (ms.insert k v).map Prod.fst = ms.map Prod.fst := by
  induction ms with
  | nil => cases h
  | cons m ms ih =>
    unfold insert
    split
    · rename_i hk
      rw [List.map_cons, List.map_cons, hk]
    · rename_i hk
      rw [List.map_cons, List.map_cons, ih ((List.mem_cons.1 h).resolve_left (Ne.symm hk))]

theorem nodup_insert {ms : Members} (h : (ms.map Prod.fst).Nodup) (k : String) (v : Json) :
    ((ms.insert k v).map Prod.fst).Nodup := by
  by_cases hk : k ∈ ms.map Prod.fst
  · rwa [names_insert_of_mem hk]
  · rw [insert_of_not_mem hk, List.map_append]
    exact h.append (List.nodup_singleton k) (List.disjoint_singleton.2 hk)

theorem mem_insert {ms : Members} {k : String} {v : Json} {m : String × Json}
    (h : m ∈ ms.insert k v) : m = (k, v) ∨ m ∈ ms := by
  induction ms with
  | nil => exact .inl (List.mem_singleton.1 h)
  | cons n ms ih =>
    unfold insert at h
    split at h
    · exact (List.mem_cons.1 h).imp_right (List.mem_cons_of_mem _)
    · rcases List.mem_cons.1 h with rfl | h
      · exact .inr List.mem_cons_self
      · exact (ih h).imp_right (List.mem_cons_of_mem _)

theorem nodup_distinct (ms : Members) : (ms.distinct.map Prod.fst).Nodup :=
  List.foldlRecOn (motive := fun acc : Members => (acc.map Prod.fst).Nodup) ms _ List.nodup_nil
    fun _ h m _ => nodup_insert h m.1 m.2

theorem mem_of_mem_distinct {ms : Members} {m : String × Json} (h : m ∈ ms.distinct) : m ∈ ms := by
  have hall : ∀ m ∈ ms.distinct, m ∈ ms := by
    refine List.foldlRecOn (motive := fun acc : Members => ∀ m ∈ acc, m ∈ ms) ms _ ?_ ?_
    · exact fun _ hm => nomatch hm
    · intro acc hacc n hn m hm
      rcases mem_insert hm with rfl | hm
      · exact hn
      · exact hacc m hm
  exact hall m h

end Members

theorem mem_collapseMembers {ms : Members} {k : String} {v : Json}
    (h : (k, v) ∈ collapseMembers ms) : ∃ u, (k, u) ∈ ms ∧ collapse u = v := by
  induction ms with
  | nil => cases h
  | cons m ms ih =>
    obtain ⟨l, w⟩ := m
    unfold collapseMembers at h
    rcases List.mem_cons.1 h with h | h
    · cases h
      exact ⟨w, List.mem_cons_self, rfl⟩
    · obtain ⟨u, hu, hv⟩ := ih h
      exact ⟨u, List.mem_cons_of_mem _ hu, hv⟩

/-! ## Texts -/

/-- The names in an object that was read are distinct, and its values come from legible ones. -/
theorem members_of_parse? {s : String} {ms : Members} (h : parse? s = some (.obj ms)) :
    (ms.map Prod.fst).Nodup ∧ ∃ depth, Parser.maxDepth = depth + 1 ∧
      ∀ m ∈ ms, ∃ u, Legible depth u ∧ collapse u = m.2 := by
  obtain ⟨v, hv, hcollapse⟩ := Option.map_eq_some_iff.1 h
  obtain ⟨_, hread, -⟩ := parseAs?_eq_some_iff.1 hv
  cases v with
  | obj raw =>
    unfold collapse at hcollapse
    cases hcollapse
    cases legible_of_value hread with
    | obj hraw =>
      refine ⟨Members.nodup_distinct _, _, rfl, fun m hm => ?_⟩
      obtain ⟨u, hu, hm⟩ := mem_collapseMembers (Members.mem_of_mem_distinct hm)
      exact ⟨u, hraw _ hu, hm⟩
  | null | bool | num | str | arr => cases hcollapse

/-- Members whose values come from legible ones are those of a legible object. -/
theorem exists_collapseMembers {depth : Nat} {ms : Members}
    (h : ∀ m ∈ ms, ∃ u, Legible depth u ∧ collapse u = m.2) :
    ∃ raw : Members, collapseMembers raw = ms ∧ ∀ m ∈ raw, Legible depth m.2 := by
  induction ms with
  | nil => exact ⟨[], rfl, nofun⟩
  | cons m ms ih =>
    obtain ⟨⟨u, hu, hm⟩, hms⟩ := List.forall_mem_cons.1 h
    obtain ⟨raw, hraw, hlegible⟩ := ih hms
    refine ⟨(m.1, u) :: raw, ?_, List.forall_mem_cons.2 ⟨hu, hlegible⟩⟩
    rw [collapseMembers, hm, hraw]

/-- An object that can be read can be read without some of its members. -/
theorem parse?_of_sublist {s : String} {ms ns : Members} (h : parse? s = some (.obj ms))
    (hs : ns.Sublist ms) : ∃ t, parse? t = some (.obj ns) := by
  obtain ⟨hnodup, depth, hdepth, hms⟩ := members_of_parse? h
  obtain ⟨raw, hraw, hlegible⟩ := exists_collapseMembers fun m hm => hms m (hs.subset hm)
  obtain ⟨cs, hcs⟩ := (Legible.obj hlegible).spelling
  rw [← hdepth] at hcs
  have htext : (String.ofList cs).toList = cs ++ [] := by
    rw [String.toList_ofList, List.append_nil]
  have hdistinct : Members.distinct ns = ns :=
    Members.distinct_of_nodup ((hs.map Prod.fst).nodup hnodup)
  refine ⟨String.ofList cs, ?_⟩
  rw [parse?_of_spelling hcs isBlank_nil htext, collapse, hraw, hdistinct]

end Parley.Json
