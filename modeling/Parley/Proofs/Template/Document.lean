/-
Templates of JSON text. When a template is read as JSON, its strings are taken as they are written,
placeholders included (`Tokens.raw`). The filled template has the same tree, with the placeholders
in its strings replaced (`parse?_render`), if each of them stands for the inside of a string. The
reader of the template and that of the filled one go on side by side: blanks, numbers and brackets
they read alike, and in a string a placeholder is passed by the one while the other reads what is put
there.
-/
import Parley.Proofs.Json.Literal
import Parley.Proofs.Template.Fill

namespace Parley.Template

open Text (Step delimited prepend)
open Json (Literal Denotes Delimited)
open Json.Parser (isSpace skip stringBody value)

/-! ## Strings -/

/-- The characters of a string in a template, where each placeholder stands for a text. -/
inductive Stands (means : String → String) : List Char → List Char → Prop
  | nil : Stands means [] []
  | char {u cs ds : List Char} {c : Char} : Denotes u c → ¬ Opens (u ++ cs) → Stands means cs ds →
    Stands means (u ++ cs) (c :: ds)
  | slot (s : Slot) {cs ds : List Char} : Stands means cs ds →
    Stands means (s.text cs) ((means (String.ofList s.key)).toList ++ ds)

theorem Slot.text_injective {s t : Slot} {cs ds : List Char} (h : s.text cs = t.text ds) :
    String.ofList s.key = String.ofList t.key ∧ cs = ds := by
  have hinner := congrArg placeholder? (List.cons.inj (List.cons.inj h).2).2
  rw [s.placeholder?_inner, t.placeholder?_inner] at hinner
  exact Prod.mk.inj (Option.some.inj hinner)

/-- The characters of a template stand for one text. -/
theorem rightUnique_stands (means : String → String) : Relator.RightUnique (Stands means) := by
  intro cs ds es h h'
  have hne {u back : List Char} {c : Char} (hu : Denotes u c) : u ++ back ≠ [] := by
    have := hu.length_pos
    exact List.append_ne_nil_of_left_ne_nil (List.ne_nil_of_length_pos this) _
  induction h generalizing es with
  | nil =>
    generalize hcs : ([] : List Char) = cs at h'
    cases h' with
    | nil => rfl
    | char hu => exact absurd hcs.symm (hne hu)
    | slot => cases hcs
  | @char u cs ds c hu hclosed _ ih =>
    generalize hcs : u ++ cs = back at h'
    cases h' with
    | nil => exact absurd hcs (hne hu)
    | char hu' _ hrest =>
      obtain ⟨rfl, rfl⟩ := hu.unique hu' hcs
      rw [ih hrest]
    | slot s => exact absurd ⟨s, _, hcs⟩ hclosed
  | @slot s cs ds _ ih =>
    generalize hcs : s.text cs = back at h'
    cases h' with
    | nil => cases hcs
    | char _ hclosed => exact absurd ⟨s, _, hcs.symm⟩ hclosed
    | slot t hrest =>
      obtain ⟨hkey, rfl⟩ := Slot.text_injective hcs
      rw [hkey, ih hrest]

/-- The placeholders of a text close no string: neither does the key of one, nor what is put in its
place. -/
def Fits (args : Json.Members) (means : String → String) (cs : List Char) : Prop :=
  ∀ key, .placeholder key ∈ split cs → (∃ ds, Literal key.toList ds) ∧
    ∃ s, args.get? key = some (.str s) ∧ Literal s.toList (means key).toList

section Strings

variable {args : Json.Members} {means : String → String} {cs ds r : List Char}

theorem Fits.of_reaches (h : Fits args means cs) (hr : Reaches cs r) : Fits args means r :=
  fun key hkey => h key (hr.mem hkey)

theorem Slot.text_append (s : Slot) (cs rest : List Char) :
    s.text cs ++ rest = s.text (cs ++ rest) := by
  simp [Slot.text, Slot.inner, Slot.tail]

theorem Opens.append (h : Opens cs) (rest : List Char) : Opens (cs ++ rest) := by
  obtain ⟨s, back, rfl⟩ := h
  exact ⟨s, back ++ rest, s.text_append back rest⟩

theorem ne_of_isAsciiBlank {c : Char} (h : Text.isAsciiBlank c = true) : c ≠ '"' ∧ c ≠ '\\' := by
  constructor <;> rintro rfl <;> cases h

/-- Up to its key a placeholder is read as it is. -/
theorem stringBody_key (s : Slot) (h : stringBody (s.text cs) = some (ds, r)) :
    Literal ('$' :: '{' :: s.before) ('$' :: '{' :: s.before) ∧
      ∃ es, ds = ('$' :: '{' :: s.before) ++ es ∧ stringBody (s.key ++ s.tail cs) = some (es, r) := by
  have hbefore : ∀ c ∈ '$' :: '{' :: s.before, c ≠ '"' ∧ c ≠ '\\' := by
    simp only [List.forall_mem_cons]
    exact ⟨by decide, by decide, fun c hc => ne_of_isAsciiBlank (s.before_blank c hc)⟩
  exact Json.literal_of_plain (s.key ++ s.tail cs) hbefore h

/-- A placeholder that is read as a part of a string. -/
theorem literal_of_slot (s : Slot) {keys : List Char} (hkey : Literal s.key keys)
    (h : stringBody (s.text cs) = some (ds, r)) :
    ∃ ks es, Literal (s.text []) ks ∧ ds = ks ++ es ∧ stringBody cs = some (es, r) := by
  have hafter : ∀ c ∈ s.after ++ ['}'], c ≠ '"' ∧ c ≠ '\\' := by
    simp only [List.forall_mem_append, List.forall_mem_singleton]
    exact ⟨fun c hc => ne_of_isAsciiBlank (s.after_blank c hc), by decide⟩
  have htail : s.tail cs = (s.after ++ ['}']) ++ cs := by simp [Slot.tail]
  -- the parts of the placeholder come off one by one
  obtain ⟨hfront, es, rfl, hmid⟩ := stringBody_key s h
  rw [hkey.stringBody_append, htail] at hmid
  obtain ⟨⟨fs, _⟩, hend, heq⟩ := Option.map_eq_some_iff.1 hmid
  cases heq
  obtain ⟨hback, gs, rfl, hrest⟩ := Json.literal_of_plain cs hafter hend
  exact ⟨('$' :: '{' :: s.before) ++ (keys ++ (s.after ++ ['}'])), gs,
    hfront.append (hkey.append hback), by simp, hrest⟩

/-- The key of a placeholder ends where no escape goes on. -/
theorem isApart_of_not_isKeyChar {c : Char} (h : isKeyChar c = false) : Json.IsApart c := by
  have hblank : ∀ n < 14, 9 ≤ n → Json.IsApart (Char.ofNat n) := by
    unfold Json.IsApart
    decide
  simp only [isKeyChar, Text.isAsciiBlank, Bool.and_eq_false_iff, Bool.not_eq_false',
    Bool.or_eq_true, Bool.and_eq_true, decide_eq_true_eq, decide_eq_false_iff_not, not_not] at h
  rcases h with rfl | rfl | ⟨hlow, hhigh⟩
  · unfold Json.IsApart
    decide
  · unfold Json.IsApart
    decide
  · rw [Json.eq_of_toNat_eq (c := c) rfl]
    exact hblank _ (Nat.lt_succ_of_le hhigh) hlow

/-- A placeholder that starts in a string stands inside of it, in front of the quote that closes it,
just when its key is the inside of a string. -/
theorem inside_iff (s : Slot) (h : stringBody (s.text cs) = some (ds, r)) :
    (∃ front, cs = front ++ '"' :: r) ↔ ∃ es, Literal s.key es := by
  constructor
  · rintro ⟨front, rfl⟩
    obtain ⟨-, es, -, hkey⟩ := stringBody_key s h
    obtain ⟨inside, hinside, hliteral⟩ := Json.literal_of_stringBody hkey
    obtain rfl : inside = s.key ++ s.tail front := by
      refine (List.append_cancel_right (?_ : _ ++ '"' :: r = inside ++ '"' :: r)).symm
      rw [← hinside]
      simp [Slot.tail]
    obtain ⟨c, back, htail, hc⟩ := s.tail_eq_cons front
    rw [htail] at hliteral
    exact hliteral.cut (isApart_of_not_isKeyChar hc)
  · rintro ⟨keys, hkeys⟩
    obtain ⟨_, es, -, -, hrest⟩ := literal_of_slot s hkeys h
    obtain ⟨front, hfront, -⟩ := Json.literal_of_stringBody hrest
    exact ⟨front, hfront⟩

/-- What the readers of a template and of the filled one give inside of a string. -/
structure StringFills (args : Json.Members) (means : String → String) (cs r ds : List Char) :
    Prop where
  reaches : Reaches cs r
  texts : ∃ literal es, cs = literal ++ '"' :: r ∧ Literal literal ds ∧ Stands means literal es ∧
    stringBody (fill args cs) = some (es, fill args r)

theorem stringFills_quote : StringFills args means ('"' :: r) r [] where
  reaches := reaches_cons (not_opens (by decide) r)
  texts := by
    refine ⟨[], [], rfl, .nil, .nil, ?_⟩
    rw [fill_cons (not_opens (by decide) r)]
    rfl

/-- A character is taken over as it is written. -/
theorem fill_unit (args : Json.Members) {u back : List Char} {c : Char} (hu : Denotes u c)
    (hopen : ¬ Opens (u ++ back)) :
    fill args (u ++ back) = u ++ fill args back ∧ Reaches (u ++ back) back := by
  rcases hu.dollar with rfl | hdollar
  · exact ⟨fill_cons hopen, reaches_cons hopen⟩
  · exact ⟨fill_append hdollar, reaches_append hdollar⟩

theorem StringFills.char {u back : List Char} {c : Char} (hu : Denotes u c)
    (hopen : ¬ Opens (u ++ back)) (h : StringFills args means back r ds) :
    StringFills args means (u ++ back) r (c :: ds) := by
  obtain ⟨hunit, hreach⟩ := fill_unit args hu hopen
  refine ⟨hreach.trans h.reaches, ?_⟩
  obtain ⟨literal, es, rfl, hliteral, hstands, hfill⟩ := h.texts
  have hclosed : ¬ Opens (u ++ literal) := fun h => hopen <| by
    rw [← List.append_assoc]
    exact h.append _
  refine ⟨u ++ literal, c :: es, by rw [List.append_assoc], .cons hu hliteral,
    .char hu hclosed hstands, ?_⟩
  rw [hunit, hu.stringBody_append, hfill]
  rfl

/-- A placeholder is passed, and what is put in its place is read. -/
theorem StringFills.slot (s : Slot) {ks : List Char} {t : String}
    (ht : args.get? (String.ofList s.key) = some (.str t))
    (hmeans : Literal t.toList (means (String.ofList s.key)).toList)
    (hks : Literal (s.text []) ks) (h : StringFills args means cs r ds) :
    StringFills args means (s.text cs) r (ks ++ ds) := by
  refine ⟨(reaches_text s).trans h.reaches, ?_⟩
  obtain ⟨literal, es, rfl, hliteral, hstands, hfill⟩ := h.texts
  have hrender : (Piece.placeholder (String.ofList s.key)).render args = t.toList := by
    simp only [Piece.render, ht, display]
  refine ⟨s.text literal, (means (String.ofList s.key)).toList ++ es,
    (s.text_append literal _).symm, ?_, .slot s hstands, ?_⟩
  · rw [← List.nil_append literal, ← s.text_append]
    exact hks.append hliteral
  · rw [fill_text, hrender, hmeans.stringBody_append, hfill]
    rfl

/-- A string of a template is read to the same place of the filled one. -/
theorem stringBody_fill (hf : Fits args means cs) (h : stringBody cs = some (ds, r)) :
    StringFills args means cs r ds := by
  induction hn : cs.length using Nat.strong_induction_on generalizing cs ds with
  | _ n ih =>
    subst hn
    by_cases hopen : Opens cs
    · obtain ⟨s, rest, rfl⟩ := hopen
      have hmem : .placeholder (String.ofList s.key) ∈ split (s.text rest) := by
        rw [split_text]
        exact List.mem_cons_self
      obtain ⟨⟨keys, hkeys⟩, t, ht, hmeans⟩ := hf _ hmem
      rw [String.toList_ofList] at hkeys
      obtain ⟨ks, es, hks, rfl, hrest⟩ := literal_of_slot s hkeys h
      have hlt : rest.length < (s.text rest).length := by
        simp [Slot.text, Slot.inner, Slot.tail]
        omega
      exact (ih _ hlt (hf.of_reaches (reaches_text s)) hrest rfl).slot s ht hmeans hks
    · rcases Json.stringBody_cases h with ⟨rfl, rfl⟩ | ⟨u, c, back, es, rfl, rfl, hu, hback⟩
      · exact stringFills_quote
      · have hlt : back.length < (u ++ back).length := by
          rw [List.length_append]
          have := hu.length_pos
          omega
        have hreach := (fill_unit args hu hopen).2
        exact (ih _ hlt (hf.of_reaches hreach) hback rfl).char hu hopen

end Strings

/-! ## Values -/

/-- Two values of one shape, with their numbers the same and their strings, names of members
included, related place by place. -/
inductive Reread (P : List Char → List Char → Prop) : Json → Json → Prop
  | null : Reread P .null .null
  | bool {b : Bool} : Reread P (.bool b) (.bool b)
  | num {n : Json.Number} : Reread P (.num n) (.num n)
  | str {s t : String} : P s.toList t.toList → Reread P (.str s) (.str t)
  | arr {vs ws : List Json} : List.Forall₂ (Reread P) vs ws → Reread P (.arr vs) (.arr ws)
  | obj {ms ns : Json.Members} :
    List.Forall₂ (fun k l => P k.toList l.toList) (ms.map Prod.fst) (ns.map Prod.fst) →
    List.Forall₂ (Reread P) (ms.map Prod.snd) (ns.map Prod.snd) → Reread P (.obj ms) (.obj ns)

section Unique

variable {P : List Char → List Char → Prop}

mutual

/-- Where a string has one other, so has a value. -/
theorem Reread.unique (hP : Relator.RightUnique P) :
    ∀ (u : Json) {v w : Json}, Reread P u v → Reread P u w → v = w
  | .null, _, _, .null, .null => rfl
  | .bool _, _, _, .bool, .bool => rfl
  | .num _, _, _, .num, .num => rfl
  | .str _, _, _, .str hs, .str ht => congrArg Json.str (String.toList_injective (hP hs ht))
  | .arr us, _, _, .arr hvs, .arr hws => congrArg Json.arr (reread_items_unique hP us hvs hws)
  | .obj ls, _, _, .obj hks hvs, .obj hls hws =>
    congrArg Json.obj (reread_members_unique hP ls hks hvs hls hws)

theorem reread_items_unique (hP : Relator.RightUnique P) :
    ∀ (us : List Json) {vs ws : List Json},
      List.Forall₂ (Reread P) us vs → List.Forall₂ (Reread P) us ws → vs = ws
  | [], _, _, .nil, .nil => rfl
  | u :: us, _, _, .cons hv hvs, .cons hw hws => by
    rw [Reread.unique hP u hv hw, reread_items_unique hP us hvs hws]

theorem reread_members_unique (hP : Relator.RightUnique P) :
    ∀ (ls : List (String × Json)) {ms ns : List (String × Json)},
      List.Forall₂ (fun k l => P k.toList l.toList) (ls.map Prod.fst) (ms.map Prod.fst) →
      List.Forall₂ (Reread P) (ls.map Prod.snd) (ms.map Prod.snd) →
      List.Forall₂ (fun k l => P k.toList l.toList) (ls.map Prod.fst) (ns.map Prod.fst) →
      List.Forall₂ (Reread P) (ls.map Prod.snd) (ns.map Prod.snd) → ms = ns
  | [], [], [], _, _, _, _ => rfl
  | (_, u) :: ls, m :: ms, n :: ns, .cons hk hks, .cons hv hvs, .cons hl hls, .cons hw hws => by
    have hname : m.1 = n.1 := String.toList_injective (hP hk hl)
    rw [Prod.ext hname (Reread.unique hP u hv hw), reread_members_unique hP ls hks hvs hls hws]

end

end Unique

/-- The tokens of a value whose strings are taken as they are written. -/
def raw : Json.Parser.Tokens := ⟨delimited '"', Json.Parser.number⟩

section Values

variable {args : Json.Members} {means : String → String} {cs r : List Char}

/-- What the readers of a template and of the filled one give at a place. -/
structure Fills (args : Json.Members) (means : String → String) (depth : Nat) (cs r : List Char)
    (v : Json) : Prop where
  reaches : Reaches cs r
  values : ∃ u w, value raw depth cs = some (u, r) ∧
    value .strict depth (fill args cs) = some (w, fill args r) ∧
    Reread Literal u v ∧ Reread (Stands means) u w

theorem sober_of_delimited (h : Delimited r) : Sober r := by
  rintro rest rfl
  have hc := h '$' rfl
  revert hc
  decide

/-- What follows a value in a container delimits it. -/
theorem delimited_of_skip {c : Char} {rest : List Char} (h : skip r = c :: rest)
    (hc : c = ',' ∨ c = ']' ∨ c = '}') : Delimited r := by
  cases r with
  | nil => cases h
  | cons d r =>
    by_cases hd : isSpace d = true
    · exact Json.delimited_cons (.inl hd)
    · rw [Json.skip_of_not_space (by simpa using hd)] at h
      exact Json.delimited_cons (.inr ((List.cons.inj h).1 ▸ hc))

theorem fill_of_skip (args : Json.Members) {c : Char} {rest : List Char} (h : skip r = c :: rest)
    (hc : c ≠ '$') :
    skip (fill args r) = c :: fill args rest ∧ Reaches r rest := by
  have hs : Sober (skip r) := h ▸ sober_cons hc rest
  obtain ⟨hfill, hreach⟩ := skip_fill args hs
  rw [h] at hfill hreach
  rw [(sober_cons hc rest).fill_cons] at hfill
  exact ⟨hfill, hreach.trans (reaches_cons (not_opens hc rest))⟩

/-- No value starts with a dollar sign. -/
theorem sober_of_value {depth : Nat} {v : Json} (h : value .strict depth cs = some (v, r)) :
    Sober cs := by
  rintro rest rfl
  have hnone : value .strict depth ('$' :: rest) = none := by cases depth <;> rfl
  rw [hnone] at h
  cases h

theorem sober_of_items {depth fuel i : Nat} {vs : List Json}
    (h : Json.Parser.items (fun _ => value .strict depth) fuel i (skip cs) = some (vs, r)) :
    Sober (skip cs) := by
  cases fuel with
  | zero => cases h
  | succ fuel =>
    unfold Json.Parser.items at h
    rw [Json.skip_skip] at h
    split at h
    · cases h
    · rename_i hv
      exact sober_of_value hv

theorem sober_of_members {read : String → List Char → Step Json} {fuel : Nat} {ms : Json.Members}
    (h : Json.Parser.members stringBody read fuel (skip cs) = some (ms, r)) : Sober (skip cs) := by
  cases fuel with
  | zero => cases h
  | succ fuel =>
    unfold Json.Parser.members at h
    rw [Json.skip_skip] at h
    split at h
    · rename_i hquote
      rw [hquote]
      exact sober_cons (by decide) _
    · cases h

theorem reread_obj {P : List Char → List Char → Prop} {ms ns : Json.Members}
    (h : List.Forall₂ (fun m n => P m.1.toList n.1.toList ∧ Reread P m.2 n.2) ms ns) :
    Reread P (.obj ms) (.obj ns) :=
  .obj (List.forall₂_map_left_iff.2 (List.forall₂_map_right_iff.2 (h.imp fun _ _ => And.left)))
    (List.forall₂_map_left_iff.2 (List.forall₂_map_right_iff.2 (h.imp fun _ _ => And.right)))

/-! ### Tokens -/

variable {depth : Nat}

/-- A word is taken over as it is. -/
theorem fills_word (word : List Char) {v : Json} (hword : '$' ∉ word)
    (hv : ∀ t rest, value t depth (word ++ rest) = some (v, rest))
    (hr : ∀ P, Reread P v v) : Fills args means depth (word ++ r) r v where
  reaches := reaches_append hword
  values := ⟨v, v, hv raw r, by rw [fill_append hword, hv], hr _, hr _⟩

theorem value_string (t : Json.Parser.Tokens) (cs : List Char) : value t depth ('"' :: cs) =
    (t.string cs).map fun r => (.str (String.ofList r.1), r.2) := by
  cases depth <;> rfl

theorem fills_string {ds : List Char} (hf : Fits args means ('"' :: cs))
    (h : stringBody cs = some (ds, r)) :
    Fills args means depth ('"' :: cs) r (.str (String.ofList ds)) := by
  have hquote : ¬ Opens ('"' :: cs) := not_opens (by decide) cs
  obtain ⟨hreach, literal, es, rfl, hliteral, hstands, hfill⟩ :=
    stringBody_fill (hf.of_reaches (reaches_cons hquote)) h
  refine ⟨(reaches_cons hquote).trans hreach, .str (String.ofList literal), .str (String.ofList es),
    ?_, ?_, .str ?_, .str ?_⟩
  · rw [value_string]
    show (delimited '"' (literal ++ '"' :: r)).map _ = _
    rw [hliteral.delimited_quote]
    rfl
  · rw [fill_cons hquote, value_string]
    show (stringBody (fill args (literal ++ '"' :: r))).map _ = _
    rw [hfill]
    rfl
  · simpa using hliteral
  · simpa using hstands

/-- A number starts with a sign or a digit. -/
theorem numeric_of_number {n : Json.Number} (h : Json.Parser.number cs = some (n, r)) :
    ∃ c back, cs = c :: back ∧ (c = '-' ∨ c.isDigit = true) := by
  cases cs with
  | nil => cases h
  | cons c back =>
    refine ⟨c, back, rfl, ?_⟩
    by_cases hc : c = '-'
    · exact .inl hc
    rw [number_eq, behind_ne hc, Json.Parser.unsignedNumber, numeral_eq] at h
    by_contra hdigit
    have hnone : someDigits (c :: back) = none := by
      have hd : Text.digit? c = none := if_neg fun hd => hdigit (.inr hd)
      simp [someDigits, Text.digits, hd]
    simp [hnone] at h

theorem value_number (t : Json.Parser.Tokens) {c : Char} (hc : c = '-' ∨ c.isDigit = true)
    (cs : List Char) : value t depth (c :: cs) =
      (t.number (c :: cs)).map fun r => (.num r.1, r.2) := by
  rw [Json.Parser.value.eq_def]
  split
  case h_7 => rfl
  all_goals
    rename_i h
    cases h
    rcases hc with hc | hc <;> cases hc

theorem fills_number {n : Json.Number} (h : Json.Parser.number cs = some (n, r))
    (hr : Delimited r) : Fills args means depth cs r (.num n) := by
  obtain ⟨hs, hreach, hfill⟩ := steady_number args _ _ _ h (sober_of_delimited hr)
  obtain ⟨c, back, rfl, hc⟩ := numeric_of_number h
  refine ⟨hreach, .num n, .num n, ?_, ?_, .num, .num⟩
  · rw [value_number raw hc]
    show (Json.Parser.number _).map _ = _
    rw [h]
    rfl
  · rw [hs.fill_cons] at hfill ⊢
    rw [value_number .strict hc]
    show (Json.Parser.number _).map _ = _
    rw [hfill]
    rfl

/-! ### Containers -/

section Openings

theorem list_of_bracket {read : Nat → List Char → Step Json} (h : skip cs = ']' :: r) :
    Json.Parser.list read cs = some (.arr [], r) := by
  unfold Json.Parser.list
  simp only [h]

variable {name : List Char → Step (List Char)} {read : String → List Char → Step Json}

theorem object_of_brace (h : skip cs = '}' :: r) :
    Json.Parser.object name read cs = some (.obj [], r) := by
  unfold Json.Parser.object
  simp only [h]

theorem object_of_ne (h : ∀ r, skip cs ≠ '}' :: r) : Json.Parser.object name read cs =
    (Json.Parser.members name read (skip cs).length (skip cs)).map fun r => (.obj r.1, r.2) := by
  unfold Json.Parser.object
  split
  · rename_i r hr
    exact absurd hr (h r)
  · rfl

end Openings

section Containers

variable (hvalue : ∀ {cs r : List Char} {v : Json}, Fits args means cs →
  value .strict depth cs = some (v, r) → Delimited r → Fills args means depth cs r v)

include hvalue

/-- What one thing of a container is filled to, with what parts it from the next or closes it. -/
theorem fills_skip {v : Json} {back rest : List Char} {c : Char} (hf : Fits args means cs)
    (hv : value .strict depth (skip cs) = some (v, back)) (hsep : skip back = c :: rest)
    (hc : c = ',' ∨ c = ']' ∨ c = '}') :
    Reaches cs rest ∧ (fill args rest).length + 1 ≤ (fill args cs).length ∧
      skip (fill args back) = c :: fill args rest ∧
      ∃ u w, value raw depth (skip cs) = some (u, back) ∧
        value .strict depth (skip (fill args cs)) = some (w, fill args back) ∧
        Reread Literal u v ∧ Reread (Stands means) u w := by
  obtain ⟨hskip, hreach⟩ := skip_fill args (sober_of_value hv)
  obtain ⟨hreach', u, w, hu, hw, huv, huw⟩ :=
    hvalue (hf.of_reaches hreach) hv (delimited_of_skip hsep hc)
  have hdollar : c ≠ '$' := by
    rintro rfl
    revert hc
    decide
  obtain ⟨hsep', hreach''⟩ := fill_of_skip args hsep hdollar
  refine ⟨(hreach.trans hreach').trans hreach'', ?_, hsep', u, w, hu, hskip ▸ hw, huv, huw⟩
  have hle := Json.length_skip_le_length (fill args back)
  rw [hsep', List.length_cons] at hle
  exact hle.trans ((hreach.trans hreach').length_fill_le args)

/-- The items of a list are filled one by one. There is room for all of them in the filled text. -/
theorem items_fill {fuel i : Nat} {vs : List Json} (hf : Fits args means cs)
    (h : Json.Parser.items (fun _ => value .strict depth) fuel i cs = some (vs, r)) :
    Reaches cs r ∧ vs.length + (fill args r).length ≤ (fill args cs).length ∧
      ∃ us ws, Json.Parser.items (fun _ => value raw depth) fuel i cs = some (us, r) ∧
        (∀ n, vs.length ≤ n → Json.Parser.items (fun _ => value .strict depth) n i (fill args cs) =
          some (ws, fill args r)) ∧
        List.Forall₂ (Reread Literal) us vs ∧ List.Forall₂ (Reread (Stands means)) us ws := by
  induction fuel generalizing i cs vs r with
  | zero => cases h
  | succ fuel ih =>
    unfold Json.Parser.items at h
    split at h
    · cases h
    rename_i v back hv
    split at h
    · rename_i rest hsep
      obtain ⟨⟨vs, r⟩, hvs, h⟩ := Option.map_eq_some_iff.1 h
      cases h
      obtain ⟨hreach, hlength, hsep', u, w, hu, hw, huv, huw⟩ :=
        fills_skip hvalue hf hv hsep (.inl rfl)
      obtain ⟨hreach', hlength', us, ws, hus, hws, husvs, husws⟩ := ih (hf.of_reaches hreach) hvs
      refine ⟨hreach.trans hreach', ?_, u :: us, w :: ws, ?_, fun n hn => ?_, .cons huv husvs,
        .cons huw husws⟩
      · rw [List.length_cons]
        omega
      · simp only [Json.Parser.items, hu, hsep, hus]
        rfl
      · obtain ⟨n, rfl⟩ : ∃ m, n = m + 1 := ⟨n - 1, by rw [List.length_cons] at hn; omega⟩
        simp only [Json.Parser.items, hw, hsep', hws n (Nat.le_of_succ_le_succ hn)]
        rfl
    · rename_i rest hsep
      cases h
      obtain ⟨hreach, hlength, hsep', u, w, hu, hw, huv, huw⟩ :=
        fills_skip hvalue hf hv hsep (.inr (.inl rfl))
      refine ⟨hreach, ?_, [u], [w], ?_, fun n hn => ?_, .cons huv .nil, .cons huw .nil⟩
      · rw [List.length_singleton]
        omega
      · simp only [Json.Parser.items, hu, hsep]
      · obtain ⟨n, rfl⟩ : ∃ m, n = m + 1 := ⟨n - 1, by rw [List.length_singleton] at hn; omega⟩
        simp only [Json.Parser.items, hw, hsep']
    · cases h

/-- A list is filled with its items. -/
theorem list_fill {v : Json} (hf : Fits args means cs)
    (h : Json.Parser.list (fun _ => value .strict depth) cs = some (v, r)) :
    Reaches cs r ∧ ∃ u w, Json.Parser.list (fun _ => value raw depth) cs = some (u, r) ∧
      Json.Parser.list (fun _ => value .strict depth) (fill args cs) = some (w, fill args r) ∧
      Reread Literal u v ∧ Reread (Stands means) u w := by
  by_cases hclose : ∃ rest, skip cs = ']' :: rest
  · obtain ⟨rest, hclose⟩ := hclose
    rw [list_of_bracket hclose] at h
    cases h
    obtain ⟨hclose', hreach⟩ := fill_of_skip args hclose (by decide)
    exact ⟨hreach, _, _, list_of_bracket hclose, list_of_bracket hclose', .arr .nil, .arr .nil⟩
  · have hne : ∀ rest, skip cs ≠ ']' :: rest := not_exists.1 hclose
    rw [Json.list_of_ne hne] at h
    obtain ⟨⟨vs, _⟩, hvs, h⟩ := Option.map_eq_some_iff.1 h
    cases h
    have hs := sober_of_items hvs
    obtain ⟨hskip, hreach⟩ := skip_fill args hs
    obtain ⟨hreach', hlength, us, ws, hus, hws, husvs, husws⟩ :=
      items_fill hvalue (hf.of_reaches hreach) hvs
    refine ⟨hreach.trans hreach', .arr us, .arr ws, ?_, ?_, .arr husvs, .arr husws⟩
    · rw [Json.list_of_ne hne, hus]
      rfl
    · rw [Json.list_of_ne (hskip ▸ hs.fill_ne hne), hskip,
        hws _ ((Nat.le_add_right _ _).trans hlength)]
      rfl

omit hvalue in
/-- The name of a member is filled, with the colon behind it. -/
theorem name_fill {body ds back rest : List Char} (hf : Fits args means cs)
    (hquote : skip cs = '"' :: body) (hname : stringBody body = some (ds, back))
    (hcolon : skip back = ':' :: rest) :
    Reaches cs rest ∧ skip (fill args cs) = '"' :: fill args body ∧
      skip (fill args back) = ':' :: fill args rest ∧
      ∃ literal es, delimited '"' body = some (literal, back) ∧
        stringBody (fill args body) = some (es, fill args back) ∧ Literal literal ds ∧
        Stands means literal es := by
  obtain ⟨hquote', hreach⟩ := fill_of_skip args hquote (by decide)
  obtain ⟨hreach', literal, es, rfl, hliteral, hstands, hfill⟩ :=
    stringBody_fill (hf.of_reaches hreach) hname
  obtain ⟨hcolon', hreach''⟩ := fill_of_skip args hcolon (by decide)
  exact ⟨(hreach.trans hreach').trans hreach'', hquote', hcolon', literal, es,
    hliteral.delimited_quote back, hfill, hliteral, hstands⟩

/-- So are the members of an object. -/
theorem members_fill {fuel : Nat} {ms : Json.Members} (hf : Fits args means cs)
    (h : Json.Parser.members stringBody (fun _ => value .strict depth) fuel cs = some (ms, r)) :
    Reaches cs r ∧ ms.length + (fill args r).length ≤ (fill args cs).length ∧
      ∃ us ws, Json.Parser.members (delimited '"') (fun _ => value raw depth) fuel cs = some (us, r) ∧
        (∀ n, ms.length ≤ n → Json.Parser.members stringBody (fun _ => value .strict depth) n
          (fill args cs) = some (ws, fill args r)) ∧
        List.Forall₂ (fun m n => Literal m.1.toList n.1.toList ∧ Reread Literal m.2 n.2) us ms ∧
        List.Forall₂ (fun m n => Stands means m.1.toList n.1.toList ∧ Reread (Stands means) m.2 n.2)
          us ws := by
  induction fuel generalizing cs ms r with
  | zero => cases h
  | succ fuel ih =>
    unfold Json.Parser.members at h
    split at h
    case h_2 => cases h
    rename_i body hquote
    split at h
    · cases h
    rename_i ds back hname
    split at h
    case h_2 => cases h
    rename_i rest hcolon
    obtain ⟨hreach, hquote', hcolon', literal, es, hraw, hfill, hliteral, hstands⟩ :=
      name_fill hf hquote hname hcolon
    have hnames : Literal (String.ofList literal).toList (String.ofList ds).toList ∧
        Stands means (String.ofList literal).toList (String.ofList es).toList := by
      simpa using ⟨hliteral, hstands⟩
    have hle := hreach.length_fill_le args
    split at h
    · cases h
    rename_i v behind hv
    split at h
    · rename_i next hsep
      obtain ⟨⟨ms, r⟩, hms, h⟩ := Option.map_eq_some_iff.1 h
      cases h
      obtain ⟨hreach', hlength, hsep', u, w, hu, hw, huv, huw⟩ :=
        fills_skip hvalue (hf.of_reaches hreach) hv hsep (.inl rfl)
      obtain ⟨hreach'', hlength', us, ws, hus, hws, husms, husws⟩ :=
        ih (hf.of_reaches (hreach.trans hreach')) hms
      refine ⟨(hreach.trans hreach').trans hreach'', ?_, (String.ofList literal, u) :: us,
        (String.ofList es, w) :: ws, ?_, fun n hn => ?_, .cons ⟨hnames.1, huv⟩ husms,
        .cons ⟨hnames.2, huw⟩ husws⟩
      · rw [List.length_cons]
        omega
      · simp only [Json.Parser.members, hquote, hraw, hcolon, hu, hsep, hus]
        rfl
      · obtain ⟨n, rfl⟩ : ∃ m, n = m + 1 := ⟨n - 1, by rw [List.length_cons] at hn; omega⟩
        simp only [Json.Parser.members, hquote', hfill, hcolon', hw, hsep',
          hws n (Nat.le_of_succ_le_succ hn)]
        rfl
    · rename_i next hsep
      cases h
      obtain ⟨hreach', hlength, hsep', u, w, hu, hw, huv, huw⟩ :=
        fills_skip hvalue (hf.of_reaches hreach) hv hsep (.inr (.inr rfl))
      refine ⟨hreach.trans hreach', ?_, [(String.ofList literal, u)], [(String.ofList es, w)], ?_,
        fun n hn => ?_, .cons ⟨hnames.1, huv⟩ .nil, .cons ⟨hnames.2, huw⟩ .nil⟩
      · rw [List.length_singleton]
        omega
      · simp only [Json.Parser.members, hquote, hraw, hcolon, hu, hsep]
      · obtain ⟨n, rfl⟩ : ∃ m, n = m + 1 := ⟨n - 1, by rw [List.length_singleton] at hn; omega⟩
        simp only [Json.Parser.members, hquote', hfill, hcolon', hw, hsep']
    · cases h

/-- An object is filled with its members. -/
theorem object_fill {v : Json} (hf : Fits args means cs)
    (h : Json.Parser.object stringBody (fun _ => value .strict depth) cs = some (v, r)) :
    Reaches cs r ∧
      ∃ u w, Json.Parser.object (delimited '"') (fun _ => value raw depth) cs = some (u, r) ∧
        Json.Parser.object stringBody (fun _ => value .strict depth) (fill args cs) =
          some (w, fill args r) ∧
        Reread Literal u v ∧ Reread (Stands means) u w := by
  by_cases hclose : ∃ rest, skip cs = '}' :: rest
  · obtain ⟨rest, hclose⟩ := hclose
    rw [object_of_brace hclose] at h
    cases h
    obtain ⟨hclose', hreach⟩ := fill_of_skip args hclose (by decide)
    exact ⟨hreach, _, _, object_of_brace hclose, object_of_brace hclose', reread_obj .nil,
      reread_obj .nil⟩
  · have hne : ∀ rest, skip cs ≠ '}' :: rest := not_exists.1 hclose
    rw [object_of_ne hne] at h
    obtain ⟨⟨ms, _⟩, hms, h⟩ := Option.map_eq_some_iff.1 h
    cases h
    have hs := sober_of_members hms
    obtain ⟨hskip, hreach⟩ := skip_fill args hs
    obtain ⟨hreach', hlength, us, ws, hus, hws, husms, husws⟩ :=
      members_fill hvalue (hf.of_reaches hreach) hms
    refine ⟨hreach.trans hreach', .obj us, .obj ws, ?_, ?_, reread_obj husms, reread_obj husws⟩
    · rw [object_of_ne hne, hus]
      rfl
    · rw [object_of_ne (hskip ▸ hs.fill_ne hne), hskip,
        hws _ ((Nat.le_add_right _ _).trans hlength)]
      rfl

end Containers

/-- Reading a template and reading the filled one give values of one shape, at corresponding
places. -/
theorem value_fill {v : Json} (hf : Fits args means cs)
    (h : value .strict depth cs = some (v, r)) (hr : Delimited r) :
    Fills args means depth cs r v := by
  induction depth using Nat.strong_induction_on generalizing cs v r with
  | _ depth ih =>
    rw [Json.Parser.value.eq_def] at h
    split at h
    · rename_i rest
      cases h
      exact fills_word ['n', 'u', 'l', 'l'] (by decide)
        (fun t rest => by cases depth <;> rfl) fun _ => .null
    · cases h
      exact fills_word ['t', 'r', 'u', 'e'] (by decide)
        (fun t rest => by cases depth <;> rfl) fun _ => .bool
    · cases h
      exact fills_word ['f', 'a', 'l', 's', 'e'] (by decide)
        (fun t rest => by cases depth <;> rfl) fun _ => .bool
    · obtain ⟨⟨ds, _⟩, hds, h⟩ := Option.map_eq_some_iff.1 h
      cases h
      exact fills_string hf hds
    · rename_i depth cs
      have hopen : ¬ Opens ('[' :: cs) := not_opens (by decide) cs
      obtain ⟨hreach, u, w, hu, hw, huv, huw⟩ :=
        list_fill (ih depth (Nat.lt_succ_self _)) (hf.of_reaches (reaches_cons hopen)) h
      refine ⟨(reaches_cons hopen).trans hreach, u, w, hu, ?_, huv, huw⟩
      rw [fill_cons hopen]
      exact hw
    · rename_i depth cs
      have hopen : ¬ Opens ('{' :: cs) := not_opens (by decide) cs
      obtain ⟨hreach, u, w, hu, hw, huv, huw⟩ :=
        object_fill (ih depth (Nat.lt_succ_self _)) (hf.of_reaches (reaches_cons hopen)) h
      refine ⟨(reaches_cons hopen).trans hreach, u, w, hu, ?_, huv, huw⟩
      rw [fill_cons hopen]
      exact hw
    · obtain ⟨⟨n, _⟩, hn, h⟩ := Option.map_eq_some_iff.1 h
      cases h
      exact fills_number hn hr

end Values

/-! ## Documents -/

/-- A template that is JSON text becomes JSON text when it is filled. The two have one tree: it is
the template's, read with its strings as they are written. -/
theorem parse?_render {args : Json.Members} {means : String → String} {template : String}
    {v : Json} (hf : Fits args means template.toList) (h : Json.parse? template = some v) :
    ∃ tree u w, Json.parseAs? (value raw) template = some tree ∧
      Reread Literal tree u ∧ v = u.collapse ∧
      Reread (Stands means) tree w ∧
      Json.parse? (render template args).text = some w.collapse := by
  obtain ⟨u, hu, rfl⟩ := Option.map_eq_some_iff.1 h
  obtain ⟨r, hread, hblank⟩ := Json.parseAs?_eq_some_iff.1 hu
  have hr : Json.IsBlank r := List.dropWhile_eq_nil_iff.1 hblank
  have hblank' : skip (fill args r) = [] := by
    rw [(skip_fill args (hblank ▸ sober_nil)).1, hblank, fill_nil]
  obtain ⟨hskip, hreach⟩ := skip_fill args (sober_of_value hread)
  obtain ⟨-, tree, w, htree, hw, hu, hw'⟩ :=
    value_fill (hf.of_reaches hreach) hread hr.delimited
  refine ⟨tree, u, w, Json.parseAs?_eq_some_iff.2 ⟨r, htree, hblank⟩, hu, rfl, hw', ?_⟩
  refine Json.parse?_of_read ?_ hblank'
  rw [toList_render, hskip]
  exact hw

end Parley.Template
