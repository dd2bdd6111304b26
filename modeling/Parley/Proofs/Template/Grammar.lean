/-
What templates mean. The grammar of templates is stated here without the functions that read them:
a placeholder is written in one of the ways of `Slot`, and `Splits` parts a template from left to
right, where a placeholder that can start at a place does start there. Every template is parted in
exactly one way, and rendering follows it: the parts alone decide where values go, and a value that
is put in is text and nothing else.
-/
import Parley.Template
import Mathlib.Data.List.Forall2
import Mathlib.Data.List.TakeWhile

namespace Parley.Template

open Text (isAsciiBlank)

/-! ## Placeholders -/

/-- A placeholder as it is written: a key, with blanks around it. -/
structure Slot where
  before : List Char
  key : List Char
  after : List Char
  key_ne_nil : key ≠ []
  key_chars : ∀ c ∈ key, c ≠ '}' ∧ isAsciiBlank c = false
  before_blank : ∀ c ∈ before, isAsciiBlank c = true
  after_blank : ∀ c ∈ after, isAsciiBlank c = true

namespace Slot

/-- The text behind the key. -/
def tail (s : Slot) (rest : List Char) : List Char := s.after ++ '}' :: rest

/-- The text behind the opening brace. -/
def inner (s : Slot) (rest : List Char) : List Char := s.before ++ (s.key ++ s.tail rest)

/-- The placeholder with some text behind it. -/
def text (s : Slot) (rest : List Char) : List Char := '$' :: '{' :: s.inner rest

variable (s : Slot) (rest : List Char)

theorem isKeyChar_iff {c : Char} : isKeyChar c = true ↔ c ≠ '}' ∧ isAsciiBlank c = false := by
  simp [isKeyChar]

theorem dropWhile_inner : (s.inner rest).dropWhile isAsciiBlank = s.key ++ s.tail rest := by
  unfold inner
  rw [List.dropWhile_append_of_pos s.before_blank]
  -- the blanks end at the first character of the key
  obtain ⟨c, k, hk⟩ := List.exists_cons_of_ne_nil s.key_ne_nil
  have hc := (s.key_chars c (hk ▸ List.mem_cons_self)).2
  rw [hk, List.cons_append, List.dropWhile_cons_of_neg (by simp [hc])]

/-- The key goes as far as it can: what stands behind it can be in no key. -/
theorem tail_eq_cons : ∃ c cs, s.tail rest = c :: cs ∧ isKeyChar c = false := by
  unfold tail
  cases ha : s.after with
  | nil => exact ⟨'}', rest, rfl, rfl⟩
  | cons c cs =>
    have hc := s.after_blank c (ha ▸ List.mem_cons_self)
    exact ⟨c, cs ++ '}' :: rest, rfl, by simp [isKeyChar, hc]⟩

theorem takeWhile_key : (s.key ++ s.tail rest).takeWhile isKeyChar = s.key := by
  obtain ⟨c, cs, ht, hc⟩ := s.tail_eq_cons rest
  rw [List.takeWhile_append_of_pos fun c h => isKeyChar_iff.2 (s.key_chars c h), ht,
    List.takeWhile_cons_of_neg (by simp [hc]), List.append_nil]

theorem dropWhile_key : (s.key ++ s.tail rest).dropWhile isKeyChar = s.tail rest := by
  obtain ⟨c, cs, ht, hc⟩ := s.tail_eq_cons rest
  rw [List.dropWhile_append_of_pos fun c h => isKeyChar_iff.2 (s.key_chars c h), ht,
    List.dropWhile_cons_of_neg (by simp [hc])]

theorem dropWhile_tail : (s.tail rest).dropWhile isAsciiBlank = '}' :: rest := by
  unfold tail
  rw [List.dropWhile_append_of_pos s.after_blank, List.dropWhile_cons_of_neg (by decide)]

theorem placeholder?_inner : placeholder? (s.inner rest) = some (String.ofList s.key, rest) := by
  unfold placeholder?
  simp only [s.dropWhile_inner, s.takeWhile_key, s.dropWhile_key, s.dropWhile_tail]
  rw [if_neg (by simpa using s.key_ne_nil)]

/-- What is read as a placeholder is written like one. -/
theorem of_placeholder? {cs rest : List Char} {key : String}
    (h : placeholder? cs = some (key, rest)) :
    ∃ s : Slot, String.ofList s.key = key ∧ s.inner rest = cs := by
  unfold placeholder? at h
  simp only at h
  split at h
  · rename_i r hr
    split at h
    · cases h
    · rename_i hk
      simp only [Option.some.injEq, Prod.mk.injEq] at h
      obtain ⟨hkey, rfl⟩ := h
      -- the slot has its parts where the reader stopped
      let body := cs.dropWhile isAsciiBlank
      let behind := body.dropWhile isKeyChar
      refine ⟨⟨cs.takeWhile isAsciiBlank, body.takeWhile isKeyChar, behind.takeWhile isAsciiBlank,
        by simpa using hk, fun c hc => isKeyChar_iff.1 (List.mem_takeWhile_imp hc),
        fun c hc => List.mem_takeWhile_imp hc, fun c hc => List.mem_takeWhile_imp hc⟩, hkey, ?_⟩
      have hbehind : behind.takeWhile isAsciiBlank ++ '}' :: r = behind := by
        rw [← hr]
        exact List.takeWhile_append_dropWhile
      show cs.takeWhile isAsciiBlank ++ (body.takeWhile isKeyChar ++
        (behind.takeWhile isAsciiBlank ++ '}' :: r)) = cs
      rw [hbehind, List.takeWhile_append_dropWhile, List.takeWhile_append_dropWhile]
  · cases h

end Slot

/-! ## The grammar -/

/-- A placeholder starts the text. -/
def Opens (cs : List Char) : Prop := ∃ (s : Slot) (rest : List Char), cs = s.text rest

/-- The parts of a template from left to right. A character is literal only where no placeholder
starts, so each placeholder stands at its leftmost place, and behind it the next part begins. -/
inductive Splits : List Char → List Piece → Prop
  | nil : Splits [] []
  | literal {c : Char} {cs : List Char} {ps : List Piece} :
    ¬ Opens (c :: cs) → Splits cs ps → Splits (c :: cs) (.literal c :: ps)
  | placeholder (s : Slot) {cs : List Char} {ps : List Piece} :
    Splits cs ps → Splits (s.text cs) (.placeholder (String.ofList s.key) :: ps)

theorem opens_iff {cs : List Char} :
    Opens ('$' :: '{' :: cs) ↔ ∃ key rest, placeholder? cs = some (key, rest) := by
  constructor
  · rintro ⟨s, rest, h⟩
    simp only [Slot.text, List.cons.injEq, true_and] at h
    exact ⟨_, rest, h ▸ s.placeholder?_inner rest⟩
  · rintro ⟨key, rest, h⟩
    obtain ⟨s, -, hs⟩ := Slot.of_placeholder? h
    exact ⟨s, rest, by rw [Slot.text, hs]⟩

theorem split_literal {c : Char} {cs : List Char} (h : ¬ Opens (c :: cs)) :
    split (c :: cs) = .literal c :: split cs := by
  rw [split.eq_def]
  split
  · rename_i hn
    cases hn
  · rename_i ds hc
    obtain ⟨rfl, rfl⟩ := List.cons.inj hc
    split
    · rename_i key rest hp
      exact absurd (opens_iff.2 ⟨key, rest, hp⟩) h
    · rfl
  · rename_i hc
    obtain ⟨rfl, rfl⟩ := List.cons.inj hc
    rfl

theorem split_text (s : Slot) (rest : List Char) :
    split (s.text rest) = .placeholder (String.ofList s.key) :: split rest := by
  have hp := s.placeholder?_inner rest
  unfold Slot.text
  rw [split]
  split
  · rename_i key rest' h
    rw [hp] at h
    cases h
    rfl
  · rename_i h
    rw [hp] at h
    cases h

theorem splits_split (cs : List Char) : Splits cs (split cs) := by
  fun_induction split cs with
  | case1 => exact .nil
  | case2 cs key rest h _ ih =>
    obtain ⟨s, rfl, rfl⟩ := Slot.of_placeholder? h
    exact .placeholder s ih
  | case3 cs h ih =>
    refine .literal (fun ho => ?_) ih
    obtain ⟨key, rest, hp⟩ := opens_iff.1 ho
    rw [h] at hp
    cases hp
  | case4 c cs h ih =>
    refine .literal ?_ ih
    rintro ⟨s, rest, hs⟩
    obtain ⟨hc, hcs⟩ := List.cons.inj hs
    exact h _ hc hcs

/-- A template is parted in one way, and `split` finds it. -/
theorem splits_iff {cs : List Char} {ps : List Piece} : Splits cs ps ↔ ps = split cs := by
  constructor
  · intro h
    induction h with
    | nil => rw [split]
    | literal ho _ ih => rw [split_literal ho, ih]
    | placeholder s _ ih => rw [split_text, ih]
  · rintro rfl
    exact splits_split cs

theorem mem_keys_iff {ps : List Piece} {key : String} :
    key ∈ keys ps ↔ .placeholder key ∈ ps := by
  unfold keys
  rw [List.mem_filterMap]
  constructor
  · rintro ⟨_ | k, hp, hk⟩
    · cases hk
    · cases hk
      exact hp
  · exact fun h => ⟨_, h, rfl⟩

/-! ## Rendering -/

/-- What becomes of a part of a template. -/
inductive Piece.Becomes (context : Json.Members) : Piece → List Char → Prop
  | literal (c : Char) : Becomes context (.literal c) [c]
  | present {key : String} {v : Json} :
    context.get? key = some v → Becomes context (.placeholder key) (display v).toList
  | absent {key : String} :
    context.get? key = none → Becomes context (.placeholder key) ('{' :: (key.toList ++ ['}']))

theorem Piece.becomes_render (context : Json.Members) (p : Piece) :
    p.Becomes context (p.render context) := by
  cases p with
  | literal c => exact .literal c
  | placeholder key =>
    cases h : context.get? key with
    | some v =>
      simp only [Piece.render, h]
      exact .present h
    | none =>
      simp only [Piece.render, h]
      exact .absent h

/-- A rendered template in terms of the parts of the template. -/
structure Rendered.Fills (r : Rendered) (context : Json.Members) (ps : List Piece) : Prop where
  /-- The text is what becomes of the parts, one after the other. -/
  text : ∃ texts, List.Forall₂ (Piece.Becomes context) ps texts ∧ r.text.toList = texts.flatten
  /-- The keys are those of the placeholders for which there is a value. -/
  keys : ∀ key, key ∈ r.keys ↔ .placeholder key ∈ ps ∧ ∃ v, context.get? key = some v

theorem render_fills (template : String) (context : Json.Members) :
    (render template context).Fills context (split template.toList) where
  text := by
    refine ⟨(split template.toList).map (Piece.render context), ?_, ?_⟩
    · rw [List.forall₂_map_right_iff, List.forall₂_same]
      exact fun p _ => p.becomes_render context
    · rw [render, String.toList_ofList, List.flatMap_def]
  keys key := by
    rw [render, List.mem_filter, mem_keys_iff, Option.isSome_iff_exists]

theorem Piece.render_congr {context other : Json.Members} {p : Piece}
    (h : ∀ key, p = .placeholder key → context.get? key = other.get? key) :
    p.render context = p.render other := by
  cases p with
  | literal c => rfl
  | placeholder key =>
    simp only [Piece.render, h key rfl]

theorem render_congr {template : String} {context other : Json.Members}
    (h : ∀ key, .placeholder key ∈ split template.toList → context.get? key = other.get? key) :
    render template context = render template other := by
  unfold render
  simp only [Rendered.mk.injEq]
  constructor
  · congr 1
    refine List.flatMap_congr fun p hp => Piece.render_congr fun key hk => h key (hk ▸ hp)
  · refine List.filter_congr fun key hk => ?_
    rw [h key (mem_keys_iff.1 hk)]

/-- A placeholder without a value shows characters of the template only. -/
theorem Splits.mem_of_absent {cs : List Char} {ps : List Piece} (h : Splits cs ps) {key : String}
    (hk : .placeholder key ∈ ps) {c : Char} (hc : c ∈ '{' :: (key.toList ++ ['}'])) : c ∈ cs := by
  induction h with
  | nil => cases hk
  | literal _ _ ih =>
    rcases List.mem_cons.1 hk with hk | hk
    · cases hk
    · exact List.mem_cons_of_mem _ (ih hk)
  | placeholder s _ ih =>
    rcases List.mem_cons.1 hk with hk | hk
    · cases hk
      rw [String.toList_ofList] at hc
      simp only [List.mem_cons, List.mem_append, List.not_mem_nil, or_false] at hc
      simp only [Slot.text, Slot.inner, Slot.tail, List.mem_cons, List.mem_append]
      tauto
    · have := ih hk
      simp only [Slot.text, Slot.inner, Slot.tail, List.mem_cons, List.mem_append]
      tauto

theorem Splits.mem_of_literal {cs : List Char} {ps : List Piece} (h : Splits cs ps) {c : Char}
    (hc : .literal c ∈ ps) : c ∈ cs := by
  induction h with
  | nil => cases hc
  | literal _ _ ih =>
    rcases List.mem_cons.1 hc with hc | hc
    · cases hc
      exact List.mem_cons_self
    · exact List.mem_cons_of_mem _ (ih hc)
  | placeholder s _ ih =>
    rcases List.mem_cons.1 hc with hc | hc
    · cases hc
    · have := ih hc
      simp only [Slot.text, Slot.inner, Slot.tail, List.mem_cons, List.mem_append]
      tauto

/-- What is rendered has the characters of the template and those of the values put in. -/
theorem mem_render {template : String} {context : Json.Members} {c : Char}
    (h : c ∈ (render template context).text.toList) :
    c ∈ template.toList ∨ ∃ key v, .placeholder key ∈ split template.toList ∧
      context.get? key = some v ∧ c ∈ (display v).toList := by
  rw [render, String.toList_ofList, List.mem_flatMap] at h
  obtain ⟨p, hp, hc⟩ := h
  have hs := splits_split template.toList
  cases p with
  | literal d =>
    exact .inl (List.mem_singleton.1 hc ▸ hs.mem_of_literal hp)
  | placeholder key =>
    simp only [Piece.render] at hc
    split at hc
    · rename_i v hv
      exact .inr ⟨key, v, hp, hv, hc⟩
    · exact .inl (hs.mem_of_absent hp hc)

/-- A template has one set of parts, whatever the context. For every context the rendered text is
what becomes of these parts, the keys are those of the placeholders that the context has a value
for, and a context with the same values for the placeholders gives the same. -/
theorem render_follows_grammar (template : String) :
    ∃ ps, (∀ qs, Splits template.toList qs ↔ qs = ps) ∧
      ∀ context : Json.Members, (render template context).Fills context ps ∧
        ∀ other : Json.Members,
          (∀ key, .placeholder key ∈ ps → context.get? key = other.get? key) →
            render template context = render template other :=
  ⟨split template.toList, fun _ => splits_iff, fun context =>
    ⟨render_fills template context, fun _ h => render_congr h⟩⟩

/-- A text is put in as it is, with what looks like a placeholder in it, and a number as JSON; a
placeholder without a value leaves its key. A value that no placeholder asks for makes no
difference. -/
theorem invitation_rendered :
    let template := "to ${ who }: ${limit}, ${gone}"
    let context := [("who", .str "ann ${limit}"), ("limit", .num (.int 5))]
    ∃ ps, Splits template.toList ps ∧ keys ps = ["who", "limit", "gone"] ∧
      (render template context).Fills context ps ∧
      render template context = ⟨"to ann ${limit}: 5, {gone}", ["who", "limit"]⟩ ∧
      render template (("more", .null) :: context) = render template context := by
  intro template context
  obtain ⟨ps, hps, hcontext⟩ := render_follows_grammar template
  obtain ⟨hfills, hsame⟩ := hcontext context
  have hkeys : keys ps = ["who", "limit", "gone"] := by
    rw [← (hps _).1 (splits_split _)]
    decide +kernel
  refine ⟨ps, (hps ps).2 rfl, hkeys, hfills, by decide +kernel, (hsame _ fun key hk => ?_).symm⟩
  have hmem : key ∈ ["who", "limit", "gone"] := hkeys ▸ mem_keys_iff.2 hk
  have hne : (key == "more") = false := by
    rw [beq_eq_false_iff_ne]
    rintro rfl
    exact absurd hmem (by decide)
  have hlookup : List.lookup key (("more", .null) :: context) = List.lookup key context := by
    rw [List.lookup_cons, hne]
  exact hlookup.symm

end Parley.Template
