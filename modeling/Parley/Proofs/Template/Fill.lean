/-
Filling a template while reading it. A reader that goes over a text from its start comes to places
at which parts of the template begin (`Reaches`), as long as it passes no placeholder halfway. What
it reads up to there, if it is literal, it reads alike in the filled text: so do blanks and numbers
of JSON, in which no dollar sign stands.
-/
import Parley.Proofs.Json.Reading
import Parley.Proofs.Template.Grammar

namespace Parley.Template

open Text (Step)
open Json.Parser (isSpace skip)

/-! ## Places -/

/-- A text as it is filled from a context. -/
def fill (context : Json.Members) (cs : List Char) : List Char :=
  (split cs).flatMap (Piece.render context)

theorem toList_render (template : String) (context : Json.Members) :
    (render template context).text.toList = fill context template.toList :=
  String.toList_ofList

/-- The parts of a text come to a place, with some text behind it. -/
def Reaches (cs r : List Char) : Prop := ∃ ps, split cs = ps ++ split r

section Places

variable {context : Json.Members} {cs r : List Char} {c : Char}

theorem Reaches.refl (cs : List Char) : Reaches cs cs := ⟨[], rfl⟩

theorem Reaches.trans {back : List Char} (h : Reaches cs r) (h' : Reaches r back) :
    Reaches cs back := by
  obtain ⟨ps, hps⟩ := h
  obtain ⟨qs, hqs⟩ := h'
  exact ⟨ps ++ qs, by rw [hps, hqs, List.append_assoc]⟩

/-- The parts behind a place are parts of the whole text. -/
theorem Reaches.mem (h : Reaches cs r) {p : Piece} (hp : p ∈ split r) : p ∈ split cs := by
  obtain ⟨ps, hps⟩ := h
  rw [hps]
  exact List.mem_append_right _ hp

theorem Reaches.length_fill_le (h : Reaches cs r) (context : Json.Members) :
    (fill context r).length ≤ (fill context cs).length := by
  obtain ⟨ps, hps⟩ := h
  unfold fill
  rw [hps, List.flatMap_append, List.length_append]
  exact Nat.le_add_left _ _

theorem fill_nil : fill context [] = [] := by
  unfold fill
  rw [split]
  rfl

theorem fill_cons (h : ¬ Opens (c :: cs)) : fill context (c :: cs) = c :: fill context cs := by
  unfold fill
  rw [split_literal h]
  rfl

theorem reaches_cons (h : ¬ Opens (c :: cs)) : Reaches (c :: cs) cs :=
  ⟨[.literal c], split_literal h⟩

theorem fill_text (s : Slot) :
    fill context (s.text cs) =
      (Piece.placeholder (String.ofList s.key)).render context ++ fill context cs := by
  unfold fill
  rw [split_text]
  rfl

theorem reaches_text (s : Slot) : Reaches (s.text cs) cs :=
  ⟨[.placeholder (String.ofList s.key)], split_text s cs⟩

/-- Only a dollar sign starts a placeholder. -/
theorem not_opens (h : c ≠ '$') (cs : List Char) : ¬ Opens (c :: cs) := by
  rintro ⟨s, rest, hs⟩
  exact h (List.cons.inj hs).1

theorem fill_append {front : List Char} (h : '$' ∉ front) :
    fill context (front ++ cs) = front ++ fill context cs := by
  induction front with
  | nil => rfl
  | cons c front ih =>
    obtain ⟨hc, hfront⟩ := not_or.1 (List.mem_cons.not.1 h)
    rw [List.cons_append, fill_cons (not_opens (Ne.symm hc) _), ih hfront, List.cons_append]

theorem reaches_append {front : List Char} (h : '$' ∉ front) : Reaches (front ++ cs) cs := by
  induction front with
  | nil => exact .refl cs
  | cons c front ih =>
    obtain ⟨hc, hfront⟩ := not_or.1 (List.mem_cons.not.1 h)
    exact (reaches_cons (not_opens (Ne.symm hc) _)).trans (ih hfront)

end Places

/-! ## Literal tokens -/

/-- No dollar sign stands at the start of a text. -/
def Sober (cs : List Char) : Prop := ∀ rest, cs ≠ '$' :: rest

/-- A reader reads of a template what it reads of the filled one, up to a place without a dollar
sign, and it starts at such a place. -/
def Steady {α : Type} (f : List Char → Step α) : Prop :=
  ∀ context cs a r, f cs = some (a, r) → Sober r →
    Sober cs ∧ Reaches cs r ∧ f (fill context cs) = some (a, fill context r)

section Tokens

variable {context : Json.Members} {cs r : List Char}

theorem sober_nil : Sober [] := nofun

theorem sober_cons {c : Char} (h : c ≠ '$') (cs : List Char) : Sober (c :: cs) :=
  fun _ hcs => h (List.cons.inj hcs).1

theorem Sober.ne {c : Char} (h : Sober (c :: cs)) : c ≠ '$' := by
  rintro rfl
  exact h cs rfl

theorem Sober.fill_cons {c : Char} (h : Sober (c :: cs)) :
    fill context (c :: cs) = c :: fill context cs :=
  Template.fill_cons (not_opens h.ne cs)

/-- A text is filled to one with the same character in front. -/
theorem Sober.fill_ne {d : Char} (h : Sober cs) (hd : ∀ rest, cs ≠ d :: rest) (rest : List Char) :
    fill context cs ≠ d :: rest := by
  cases cs with
  | nil =>
    rw [fill_nil]
    exact nofun
  | cons c cs =>
    rw [h.fill_cons]
    rintro ⟨⟩
    exact hd cs rfl

theorem skip_fill (context : Json.Members) (h : Sober (skip cs)) :
    skip (fill context cs) = fill context (skip cs) ∧ Reaches cs (skip cs) := by
  induction cs with
  | nil =>
    rw [fill_nil]
    exact ⟨fill_nil.symm, .refl _⟩
  | cons c cs ih =>
    by_cases hc : isSpace c = true
    · have hskip : skip (c :: cs) = skip cs := List.dropWhile_cons_of_pos hc
      have hne : c ≠ '$' := by
        rintro rfl
        cases hc
      rw [hskip] at h ⊢
      obtain ⟨hfill, hreach⟩ := ih h
      rw [(sober_cons hne cs).fill_cons, ← hfill]
      exact ⟨List.dropWhile_cons_of_pos hc, (reaches_cons (not_opens hne cs)).trans hreach⟩
    · rw [Json.skip_of_not_space (by simpa using hc)] at h ⊢
      rw [h.fill_cons]
      exact ⟨Json.skip_of_not_space (by simpa using hc) _, .refl _⟩

theorem digits_fill (context : Json.Members) {ds : List Nat} (h : Text.digits cs = (ds, r))
    (hr : Sober r) :
    Sober cs ∧ Reaches cs r ∧ Text.digits (fill context cs) = (ds, fill context r) := by
  induction cs generalizing ds with
  | nil =>
    cases h
    rw [fill_nil]
    exact ⟨hr, .refl _, rfl⟩
  | cons c cs ih =>
    rw [Text.digits] at h
    cases hc : Text.digit? c with
    | none =>
      rw [hc] at h
      cases h
      refine ⟨hr, .refl _, ?_⟩
      rw [hr.fill_cons, Text.digits, hc]
    | some d =>
      rw [hc] at h
      have hne : c ≠ '$' := by
        rintro rfl
        cases hc
      have hback : Text.digits cs = ((Text.digits cs).1, r) := by
        cases h
        rfl
      obtain ⟨-, hreach, hdigits⟩ := ih hback
      refine ⟨sober_cons hne cs, (reaches_cons (not_opens hne cs)).trans hreach, ?_⟩
      rw [(sober_cons hne cs).fill_cons, Text.digits, hc, hdigits]
      cases h
      rfl

end Tokens

namespace Steady

variable {α β : Type} {f g : List Char → Step α}

theorem pure (a : α) : Steady fun cs => some (a, cs) := by
  intro context cs b r h hr
  cases h
  exact ⟨hr, .refl _, rfl⟩

theorem none : Steady fun _ => (Option.none : Step α) := nofun

theorem bind {h : α → List Char → Step β} (hf : Steady f) (hh : ∀ a, Steady (h a)) :
    Steady fun cs => (f cs).bind fun x => h x.1 x.2 := by
  intro context cs b r hb hr
  obtain ⟨⟨a, mid⟩, ha, hb⟩ := Option.bind_eq_some_iff.1 hb
  obtain ⟨hmid, hreach', hfill'⟩ := hh a context _ _ _ hb hr
  obtain ⟨hs, hreach, hfill⟩ := hf context _ _ _ ha hmid
  refine ⟨hs, hreach.trans hreach', ?_⟩
  simp only [hfill, Option.bind_some, hfill']

/-- What is read may be refused, or be made something of. -/
theorem filterMap (hf : Steady f) (h : α → Option β) :
    Steady fun cs => (f cs).bind fun x => (h x.1).map fun b => (b, x.2) := by
  refine hf.bind (h := fun a r => (h a).map fun b => (b, r)) fun a => ?_
  cases ha : h a with
  | none => exact none
  | some b => exact pure b

theorem map (hf : Steady f) (h : α → β) : Steady fun cs => (f cs).map fun x => (h x.1, x.2) := by
  have heq (cs : List Char) : ((f cs).map fun x => (h x.1, x.2)) =
      (f cs).bind fun x => (some (h x.1)).map fun b => (b, x.2) := by
    cases f cs <;> rfl
  simpa only [heq] using hf.filterMap fun a => some (h a)

end Steady

/-- One reader behind a character, and another one where that character does not stand. -/
def behind {α : Type} (c : Char) (f g : List Char → Step α) : List Char → Step α
  | [] => g []
  | d :: cs => if d = c then f cs else g (d :: cs)

theorem behind_self {α : Type} (c : Char) (f g : List Char → Step α) (cs : List Char) :
    behind c f g (c :: cs) = f cs :=
  if_pos rfl

theorem behind_ne {α : Type} {c d : Char} (h : d ≠ c) (f g : List Char → Step α) (cs : List Char) :
    behind c f g (d :: cs) = g (d :: cs) :=
  if_neg h

theorem Steady.behind {α : Type} {c : Char} {f g : List Char → Step α} (hc : c ≠ '$')
    (hf : Steady f) (hg : Steady g) : Steady (behind c f g) := by
  intro context cs a r h hr
  cases cs with
  | nil =>
    obtain ⟨hs, hreach, hfill⟩ := hg context [] a r h hr
    refine ⟨hs, hreach, ?_⟩
    rw [fill_nil] at hfill ⊢
    exact hfill
  | cons d cs =>
    by_cases hd : d = c
    · subst hd
      rw [behind_self] at h
      obtain ⟨-, hreach, hfill⟩ := hf context cs a r h hr
      refine ⟨sober_cons hc cs, (reaches_cons (not_opens hc cs)).trans hreach, ?_⟩
      rw [(sober_cons hc cs).fill_cons, behind_self, hfill]
    · rw [behind_ne hd] at h
      obtain ⟨hs, hreach, hfill⟩ := hg context (d :: cs) a r h hr
      refine ⟨hs, hreach, ?_⟩
      rw [hs.fill_cons] at hfill ⊢
      rw [behind_ne hd, hfill]

/-! ### Numbers -/

/-- Digits, one at least. -/
def someDigits (cs : List Char) : Step (List Nat) :=
  match Text.digits cs with
  | ([], _) => none
  | (ds, r) => some (ds, r)

theorem steady_someDigits : Steady someDigits := by
  intro context cs ds r h hr
  unfold someDigits at h
  split at h
  · cases h
  rename_i hne hdigits
  cases h
  obtain ⟨hs, hreach, hfill⟩ := digits_fill context hdigits hr
  refine ⟨hs, hreach, ?_⟩
  simp only [someDigits, hfill]

theorem fraction_eq : Json.Parser.fraction =
    behind '.' (fun cs => (someDigits cs).map fun x => (some x.1, x.2))
      fun cs => some (none, cs) := by
  funext cs
  cases cs with
  | nil => rfl
  | cons c cs =>
    by_cases hc : c = '.'
    · subst hc
      rw [behind_self]
      rcases hd : Text.digits cs with ⟨_ | ⟨d, ds⟩, r⟩ <;>
        simp [Json.Parser.fraction, someDigits, hd]
    · rw [behind_ne hc]
      unfold Json.Parser.fraction
      split
      · rename_i heq
        exact absurd (List.cons.inj heq).1 hc
      · rfl

theorem steady_fraction : Steady Json.Parser.fraction := by
  rw [fraction_eq]
  exact (steady_someDigits.map some).behind (by decide) (.pure none)

/-- An exponent behind its sign. -/
def power (negative : Bool) (cs : List Char) : Step (Option Int) :=
  (someDigits cs).map fun x =>
    (some (if negative then -(Text.ofDigits x.1 : Int) else Text.ofDigits x.1), x.2)

/-- An exponent behind its letter. -/
def signedPower : List Char → Step (Option Int) :=
  behind '+' (power false) (behind '-' (power true) (power false))

theorem exponent_letter {c : Char} (hc : c = 'e' ∨ c = 'E') (cs : List Char) :
    Json.Parser.exponent (c :: cs) = signedPower cs := by
  have hpower (negative : Bool) (r : List Char) : power negative r = match Text.digits r with
      | ([], _) => none
      | (ds, r) =>
        some (some (if negative then -(Text.ofDigits ds : Int) else Text.ofDigits ds), r) := by
    rcases hd : Text.digits r with ⟨_ | ⟨d, ds⟩, r⟩ <;> simp [power, someDigits, hd]
  unfold Json.Parser.exponent signedPower
  dsimp only
  rw [if_pos hc]
  split
  · rw [behind_self]
    exact (hpower false _).symm
  · rw [behind_ne (by decide), behind_self]
    exact (hpower true _).symm
  · rename_i hplus hminus
    cases cs with
    | nil => rfl
    | cons d cs =>
      rw [behind_ne fun hd => hplus cs (by rw [hd]), behind_ne fun hd => hminus cs (by rw [hd])]
      exact (hpower false _).symm

theorem exponent_eq : Json.Parser.exponent =
    behind 'e' signedPower (behind 'E' signedPower fun cs => some (none, cs)) := by
  funext cs
  cases cs with
  | nil => rfl
  | cons c cs =>
    by_cases he : c = 'e'
    · subst he
      rw [behind_self, exponent_letter (.inl rfl)]
    rw [behind_ne he]
    by_cases hE : c = 'E'
    · subst hE
      rw [behind_self, exponent_letter (.inr rfl)]
    rw [behind_ne hE]
    unfold Json.Parser.exponent
    simp only [he, hE, or_self, if_false]

theorem steady_signedPower : Steady signedPower := by
  have hpower (negative : Bool) : Steady (power negative) :=
    steady_someDigits.map fun ds =>
      some (if negative then -(Text.ofDigits ds : Int) else Text.ofDigits ds)
  exact (hpower false).behind (by decide) ((hpower true).behind (by decide) (hpower false))

theorem steady_exponent : Steady Json.Parser.exponent := by
  rw [exponent_eq]
  exact steady_signedPower.behind (by decide)
    (steady_signedPower.behind (by decide) (.pure none))

/-- The fraction and the exponent behind the digits of a numeral. -/
def ending (ds : List Nat) (cs : List Char) : Step (List Nat × Option (List Nat) × Option Int) :=
  if ds.head? = some 0 ∧ ds.length ≠ 1 then none
  else (Json.Parser.fraction cs).bind fun y =>
    (Json.Parser.exponent y.2).map fun z => ((ds, y.1, z.1), z.2)

theorem numeral_eq : Json.Parser.numeral = fun cs =>
    (someDigits cs).bind fun x => ending x.1 x.2 := by
  funext cs
  unfold Json.Parser.numeral
  rcases hd : Text.digits cs with ⟨_ | ⟨d, ds⟩, r⟩
  · simp [someDigits, hd]
  · have hsome : someDigits cs = some (d :: ds, r) := by
      unfold someDigits
      rw [hd]
    rw [hsome]
    simp only [Option.bind_some, ending]
    split
    · rfl
    · cases Json.Parser.fraction r <;> rfl

theorem steady_ending (ds : List Nat) : Steady (ending ds) := by
  unfold ending
  by_cases hlead : ds.head? = some 0 ∧ ds.length ≠ 1
  · simp only [if_pos hlead]
    exact .none
  · simp only [if_neg hlead]
    exact steady_fraction.bind (h := fun f cs =>
      (Json.Parser.exponent cs).map fun z => ((ds, f, z.1), z.2)) fun f =>
        steady_exponent.map fun e => (ds, f, e)

theorem steady_numeral : Steady Json.Parser.numeral := by
  rw [numeral_eq]
  exact steady_someDigits.bind steady_ending

theorem steady_unsignedNumber (negative : Bool) : Steady (Json.Parser.unsignedNumber negative) := by
  have heq : Json.Parser.unsignedNumber negative = fun cs =>
      (Json.Parser.numeral cs).bind fun x =>
        (if x.1.2.1.isNone && x.1.2.2.isNone then Json.Parser.wholeNumber negative x.1.1
          else (Decimal.Numeral.mk negative x.1.1 (x.1.2.1.getD []) (x.1.2.2.getD 0)).toBinary64?.map
            Json.Number.double).map fun n => (n, x.2) := by
    funext cs
    unfold Json.Parser.unsignedNumber
    cases Json.Parser.numeral cs <;> rfl
  rw [heq]
  exact steady_numeral.filterMap fun x =>
    if x.2.1.isNone && x.2.2.isNone then Json.Parser.wholeNumber negative x.1
      else (Decimal.Numeral.mk negative x.1 (x.2.1.getD []) (x.2.2.getD 0)).toBinary64?.map
        Json.Number.double

theorem number_eq : Json.Parser.number =
    behind '-' (Json.Parser.unsignedNumber true) (Json.Parser.unsignedNumber false) := by
  funext cs
  cases cs with
  | nil => rfl
  | cons c cs =>
    by_cases hc : c = '-'
    · subst hc
      rfl
    · rw [behind_ne hc]
      unfold Json.Parser.number
      split
      · rename_i heq
        exact absurd (List.cons.inj heq).1 hc
      · rfl

/-- A number is read of a template as it is of the filled one. -/
theorem steady_number : Steady Json.Parser.number := by
  rw [number_eq]
  exact (steady_unsignedNumber true).behind (by decide) (steady_unsignedNumber false)

end Parley.Template
