/-
Strings and names inside TOML text. Whatever form a string is written in, it is read back to its
end as itself (`string_stringChars`); so are names (`name_nameChars`) and names with dots between
them (`path_pathChars`).
-/
import Parley.Toml.Printer
import Mathlib.Tactic.IntervalCases
import Mathlib.Tactic.SplitIfs

namespace Parley.Toml

open Text (prepend)

/-! ## Characters -/

theorem character?_toNat (c : Char) : character? c.toNat = some c := by
  have hvalid : c.toNat < 0xd800 ∨ (0xdfff < c.toNat ∧ c.toNat < 0x110000) := c.valid
  rw [character?, if_pos hvalid, Char.ofNat_toNat]

theorem ofHex?_upperHexDigits {n : Nat} (h : n < 128) :
    Text.ofHex? ['0', '0', Text.upperHexDigit (n / 16), Text.upperHexDigit (n % 16)] = some n := by
  revert n
  decide

theorem isPlain_or_of_needsEscape {c : Char} (h : needsEscape c = false) :
    isPlain c = true ∨ c = '\n' := by
  simp only [needsEscape, isPlain, Bool.and_eq_false_iff, Bool.or_eq_false_iff, Bool.or_eq_true,
    Bool.and_eq_true, decide_eq_true_eq, decide_eq_false_iff_not, Decidable.not_not, ne_eq] at h ⊢
  rcases h with (⟨hlow, hdel⟩ | htab) | hline
  · exact .inl (.inr ⟨by omega, hdel⟩)
  · exact .inl (.inl htab)
  · exact .inr hline

theorem lt_of_needsEscape {c : Char} (h : needsEscape c = true) : c.toNat < 128 := by
  simp only [needsEscape, Bool.and_eq_true, Bool.or_eq_true, decide_eq_true_eq] at h
  omega

/-- A plain character is no line end. -/
theorem ne_of_isPlain {c : Char} (h : isPlain c = true) : c ≠ '\n' ∧ c ≠ '\r' := by
  refine ⟨?_, ?_⟩ <;>
  · rintro rfl
    exact absurd h (by decide)

/-- The ways in which a character is written between double quotes. -/
inductive Written (lines : Bool) (c : Char) : List Char → Prop
  | letter {d : Char} : escaped? d = some c → Written lines c ['\\', d]
  | number {a b : Char} : numbered? ['0', '0', a, b] = some c →
    Written lines c ['\\', 'u', '0', '0', a, b]
  | plain : isPlain c = true → c ≠ '"' → c ≠ '\\' → Written lines c [c]
  | lineEnd : lines = true → c = '\n' → Written lines c ['\n']

theorem written_escape (lines : Bool) {c : Char} (hc : c ≠ '"') :
    Written lines c (escape lines c) := by
  have hcode {n : Nat} (h : c.toNat = n) : c = Char.ofNat n := by rw [← h, Char.ofNat_toNat]
  unfold escape
  -- one case for each form that a character has
  split_ifs with hslash htab hline hlines hreturn hback hfeed hescape
  · exact .letter (by rw [hslash]; rfl)
  · exact .letter (htab ▸ rfl)
  · exact .lineEnd hlines hline
  · exact .letter (hline ▸ rfl)
  · exact .letter (hreturn ▸ rfl)
  · exact .letter (hcode hback ▸ rfl)
  · exact .letter (hcode hfeed ▸ rfl)
  · refine .number ?_
    rw [numbered?, ofHex?_upperHexDigits (lt_of_needsEscape hescape)]
    exact character?_toNat c
  · refine .plain ?_ hc hslash
    exact (isPlain_or_of_needsEscape (Bool.eq_false_iff.2 hescape)).resolve_right hline

/-- A quote takes a backslash. -/
theorem written_quote (lines : Bool) : Written lines '"' ['\\', '"'] := .letter rfl

theorem escaped?_ne {d c : Char} (h : escaped? d = some c) :
    d ≠ 'u' ∧ d ≠ 'U' ∧ d ≠ ' ' ∧ d ≠ '\t' ∧ d ≠ '\n' ∧ d ≠ '\r' := by
  refine ⟨?_, ?_, ?_, ?_, ?_, ?_⟩ <;>
  · rintro rfl
    cases h

/-! ## Strings between double quotes -/

/-- On one line a written character is read as itself. -/
theorem basicBody_written {c : Char} {cs : List Char} (h : Written false c cs)
    (rest : List Char) : basicBody (cs ++ rest) = prepend (some c) (basicBody rest) := by
  cases h with
  | @letter d hd =>
    obtain ⟨hu, hU, -⟩ := escaped?_ne hd
    show basicBody ('\\' :: d :: rest) = _
    rw [basicBody, hd]
    · exact fun _ _ _ _ _ h _ => hu h
    · exact fun _ _ _ _ _ _ _ _ _ h _ => hU h
  | @number a b hn =>
    show basicBody ('\\' :: 'u' :: '0' :: '0' :: a :: b :: rest) = _
    rw [basicBody, hn]
  | plain hp hquote hslash =>
    rw [List.singleton_append, basicBody, if_pos hp]
    · exact hquote
    · exact fun _ _ _ _ _ h _ => hslash h
    · exact fun _ _ _ _ _ _ _ _ _ h _ => hslash h
    · exact fun _ _ h _ => hslash h
  | lineEnd hl _ => cases hl

theorem basicBody_escapeAll (cs rest : List Char) :
    basicBody (escapeAll false 0 0 cs ++ '"' :: rest) = some (cs, rest) := by
  induction cs with
  | nil => rfl
  | cons c cs ih =>
    unfold escapeAll
    split
    · rename_i hc
      subst hc
      rw [if_neg (Nat.lt_irrefl 0)]
      show basicBody (['\\', '"'] ++ (escapeAll false 0 0 cs ++ '"' :: rest)) = _
      rw [basicBody_written (written_quote false), ih]
      rfl
    · rename_i hc
      rw [List.append_assoc, basicBody_written (written_escape false hc), ih]
      rfl

/-- Over several lines too. -/
theorem basicLines_written {c : Char} {cs : List Char} (h : Written true c cs)
    (rest : List Char) :
    basicLines false (cs ++ rest) = prepend (some c) (basicLines false rest) := by
  cases h with
  | @letter d hd =>
    obtain ⟨hu, hU, hspace, htab, hline, hreturn⟩ := escaped?_ne hd
    have hrest : isLineRest (d :: rest) = false := by
      have hd : isSpace d = false := by simp [isSpace, hspace, htab]
      simp [isLineRest, hd, hline, hreturn]
    show basicLines false ('\\' :: d :: rest) = _
    rw [basicLines, hd, hrest]
    · rfl
    · exact fun _ _ _ _ _ h _ => hu h
    · exact fun _ _ _ _ _ _ _ _ _ h _ => hU h
  | @number a b hn =>
    show basicLines false ('\\' :: 'u' :: '0' :: '0' :: a :: b :: rest) = _
    rw [basicLines, hn]
  | plain hp hquote hslash =>
    obtain ⟨hline, hreturn⟩ := ne_of_isPlain hp
    rw [List.singleton_append, basicLines]
    · rw [if_pos hp]
      rfl
    all_goals simp [hquote, hslash, hline, hreturn]
  | lineEnd _ hc =>
    subst hc
    rfl

/-! ### Quotes that need no backslash -/

/-- A text starts with at most `n` quotes, behind which it ends or another character stands. -/
def StartsWithin (q : Char) (n : Nat) (cs : List Char) : Prop :=
  ∃ k ≤ n, cs = List.replicate k q ∨ ∃ c r, c ≠ q ∧ cs = List.replicate k q ++ c :: r

theorem startsWithin_cons_iff {q : Char} {n : Nat} {cs : List Char} :
    StartsWithin q (n + 1) (q :: cs) ↔ StartsWithin q n cs := by
  constructor
  · rintro ⟨k, hk, h⟩
    cases k with
    | zero =>
      rcases h with h | ⟨c, r, hc, h⟩
      · cases h
      · exact absurd (List.cons.inj h).1.symm hc
    | succ k =>
      refine ⟨k, Nat.le_of_succ_le_succ hk, ?_⟩
      rcases h with h | ⟨c, r, hc, h⟩
      · exact .inl (List.cons.inj h).2
      · exact .inr ⟨c, r, hc, (List.cons.inj h).2⟩
  · rintro ⟨k, hk, rfl | ⟨c, r, hc, rfl⟩⟩
    · exact ⟨k + 1, Nat.succ_le_succ hk, .inl rfl⟩
    · exact ⟨k + 1, Nat.succ_le_succ hk, .inr ⟨c, r, hc, rfl⟩⟩

theorem StartsWithin.mono {q : Char} {m n : Nat} {cs : List Char} (h : StartsWithin q m cs)
    (hmn : m ≤ n) : StartsWithin q n cs :=
  h.imp fun _ ⟨hk, h⟩ => ⟨Nat.le_trans hk hmn, h⟩

theorem startsWithin_nil (q : Char) (n : Nat) : StartsWithin q n [] :=
  ⟨0, Nat.zero_le n, .inl rfl⟩

theorem startsWithin_of_ne {q c : Char} (h : c ≠ q) (n : Nat) (cs : List Char) :
    StartsWithin q n (c :: cs) :=
  ⟨0, Nat.zero_le n, .inr ⟨c, cs, h, rfl⟩⟩

theorem Written.head_ne {lines : Bool} {c : Char} {cs : List Char} (h : Written lines c cs) :
    ∃ d r, d ≠ '"' ∧ cs = d :: r := by
  cases h with
  | letter => exact ⟨_, _, by decide, rfl⟩
  | number => exact ⟨_, _, by decide, rfl⟩
  | plain _ hquote => exact ⟨_, _, hquote, rfl⟩
  | lineEnd => exact ⟨_, _, by decide, rfl⟩

/-- What is written between double quotes does not start with more quotes than are let through. -/
theorem startsWithin_escapeAll (lines : Bool) {free run : Nat} (hrun : run ≤ free)
    (cs : List Char) : StartsWithin '"' (free - run) (escapeAll lines free run cs) := by
  induction cs generalizing run with
  | nil => exact startsWithin_nil _ _
  | cons c cs ih =>
    unfold escapeAll
    split_ifs with hc hfree
    · have := startsWithin_cons_iff.2 (ih hfree)
      rwa [show free - (run + 1) + 1 = free - run by omega] at this
    · exact startsWithin_of_ne (by decide) _ _
    · obtain ⟨d, r, hd, heq⟩ := (written_escape lines hc).head_ne
      rw [heq]
      exact startsWithin_of_ne hd _ _

/-- A text that does not go on with a quote of either kind. -/
def Unquoted (rest : List Char) : Prop :=
  ∀ c ∈ rest.head?, c ≠ '"' ∧ c ≠ '\''

section Lines

variable {rest : List Char} (hrest : Unquoted rest)

include hrest

/-- Quotes in front of the closing ones belong to the string. -/
theorem basicLines_closing {k : Nat} (hk : k ≤ 2) :
    basicLines false (List.replicate k '"' ++ '"' :: '"' :: '"' :: rest) =
      some (List.replicate k '"', rest) := by
  obtain _ | ⟨c, rest⟩ := rest
  · interval_cases k <;> rfl
  · have hc : c ≠ '"' := (hrest c rfl).1
    interval_cases k <;> simp [basicLines, hc, List.replicate]

/-- A quote that is not one of the closing ones. -/
theorem basicLines_quote {cs : List Char} (h : StartsWithin '"' 1 cs) :
    basicLines false ('"' :: (cs ++ '"' :: '"' :: '"' :: rest)) =
      prepend (some '"') (basicLines false (cs ++ '"' :: '"' :: '"' :: rest)) := by
  obtain ⟨k, hk, rfl | ⟨c, r, hc, rfl⟩⟩ := h
  · rw [basicLines_closing hrest (Nat.le_succ_of_le hk)]
    exact basicLines_closing hrest (Nat.succ_le_succ hk)
  · interval_cases k <;> simp [basicLines, hc, List.replicate]

/-- What is written over several lines is read as the string that is meant. -/
theorem basicLines_escapeAll {run : Nat} (hrun : run ≤ 2) (cs : List Char) :
    basicLines false (escapeAll true 2 run cs ++ '"' :: '"' :: '"' :: rest) = some (cs, rest) := by
  induction cs generalizing run with
  | nil => exact basicLines_closing hrest (Nat.zero_le 2)
  | cons c cs ih =>
    unfold escapeAll
    split_ifs with hc hfree
    · subst hc
      have hquotes : StartsWithin '"' 1 (escapeAll true 2 (run + 1) cs) :=
        (startsWithin_escapeAll true hfree cs).mono (by omega)
      rw [List.cons_append, basicLines_quote hrest hquotes, ih hfree]
      rfl
    · subst hc
      show basicLines false (['\\', '"'] ++ (escapeAll true 2 0 cs ++ _)) = _
      rw [basicLines_written (written_quote true), ih (Nat.zero_le 2)]
      rfl
    · rw [List.append_assoc, basicLines_written (written_escape true hc), ih (Nat.zero_le 2)]
      rfl

end Lines

/-! ## Strings between single quotes -/

theorem literalBody_append {cs : List Char} (h : ∀ c ∈ cs, isPlain c = true ∧ c ≠ '\'')
    (rest : List Char) : literalBody (cs ++ '\'' :: rest) = some (cs, rest) := by
  induction cs with
  | nil => rfl
  | cons c cs ih =>
    obtain ⟨⟨hp, hq⟩, hcs⟩ := List.forall_mem_cons.1 h
    rw [List.cons_append, literalBody, if_pos hp, ih hcs]
    · rfl
    · exact hq

/-- One step of the count of a run. -/
def countRun (q : Char) (run : Nat × Nat) (c : Char) : Nat × Nat :=
  if c = q then (max run.1 (run.2 + 1), run.2 + 1) else (run.1, 0)

theorem le_countRun (q : Char) (run : Nat × Nat) (cs : List Char) :
    run.1 ≤ (cs.foldl (countRun q) run).1 := by
  induction cs generalizing run with
  | nil => exact Nat.le_refl _
  | cons c cs ih =>
    refine Nat.le_trans ?_ (ih _)
    unfold countRun
    split_ifs
    · exact Nat.le_max_left _ _
    · exact Nat.le_refl _

/-- Behind a run that is being counted the text starts with what may still be added to it. -/
theorem startsWithin_of_countRun {q : Char} {n : Nat} {run : Nat × Nat} {cs : List Char}
    (h : (cs.foldl (countRun q) run).1 ≤ n) (hrun : run.2 ≤ run.1) :
    StartsWithin q (n - run.2) cs ∧ ∀ t, t <:+ cs → StartsWithin q n t := by
  induction cs generalizing run with
  | nil =>
    refine ⟨startsWithin_nil _ _, fun t ht => ?_⟩
    rw [List.suffix_nil.1 ht]
    exact startsWithin_nil _ _
  | cons c cs ih =>
    have hnext : (countRun q run c).2 ≤ (countRun q run c).1 := by
      unfold countRun
      split_ifs
      · exact Nat.le_max_right _ _
      · exact Nat.zero_le _
    obtain ⟨hcs, hsuffix⟩ := ih h hnext
    have hwhole : StartsWithin q (n - run.2) (c :: cs) := by
      by_cases hc : c = q
      · subst hc
        have hle := Nat.le_trans (le_countRun c _ cs) h
        simp only [countRun, if_pos] at hcs hle
        have hmore := startsWithin_cons_iff.2 hcs
        rwa [show n - (run.2 + 1) + 1 = n - run.2 by omega] at hmore
      · exact startsWithin_of_ne hc _ _
    refine ⟨hwhole, fun t ht => ?_⟩
    rcases List.suffix_cons_iff.1 ht with rfl | ht
    · exact hwhole.mono (Nat.sub_le _ _)
    · exact hsuffix t ht

/-- No run is longer than the longest one. -/
theorem startsWithin_of_longestRun {q : Char} {n : Nat} {cs : List Char}
    (h : longestRun q cs ≤ n) {t : List Char} (ht : t <:+ cs) : StartsWithin q n t :=
  (startsWithin_of_countRun h (Nat.le_refl 0)).2 t ht

theorem not_mem_of_longestRun {q : Char} {cs : List Char} (h : longestRun q cs = 0) : q ∉ cs := by
  intro hq
  obtain ⟨pre, post, rfl⟩ := List.append_of_mem hq
  have hpost := startsWithin_of_longestRun (Nat.le_of_eq h) (List.suffix_append pre (q :: post))
  obtain ⟨k, hk, hnil | ⟨c, r, hc, hcons⟩⟩ := hpost
  · rw [Nat.le_zero.1 hk] at hnil
    cases hnil
  · rw [Nat.le_zero.1 hk] at hcons
    exact hc (List.cons.inj hcons).1.symm

section Lines

variable {rest : List Char} (hrest : Unquoted rest)

include hrest

theorem literalLines_closing {k : Nat} (hk : k ≤ 2) :
    literalLines (List.replicate k '\'' ++ '\'' :: '\'' :: '\'' :: rest) =
      some (List.replicate k '\'', rest) := by
  obtain _ | ⟨c, rest⟩ := rest
  · interval_cases k <;> rfl
  · have hc : c ≠ '\'' := (hrest c rfl).2
    interval_cases k <;> simp [literalLines, hc, List.replicate]

theorem literalLines_quote {cs : List Char} (h : StartsWithin '\'' 1 cs) :
    literalLines ('\'' :: (cs ++ '\'' :: '\'' :: '\'' :: rest)) =
      prepend (some '\'') (literalLines (cs ++ '\'' :: '\'' :: '\'' :: rest)) := by
  obtain ⟨k, hk, rfl | ⟨c, r, hc, rfl⟩⟩ := h
  · rw [literalLines_closing hrest (Nat.le_succ_of_le hk)]
    exact literalLines_closing hrest (Nat.succ_le_succ hk)
  · have hplain : isPlain '\'' = true := by decide
    interval_cases k <;> simp [literalLines, hc, List.replicate, hplain]

theorem literalLines_append {cs : List Char} (h : ∀ c ∈ cs, isPlain c = true ∨ c = '\n')
    (hruns : ∀ t, t <:+ cs → StartsWithin '\'' 2 t) :
    literalLines (cs ++ '\'' :: '\'' :: '\'' :: rest) = some (cs, rest) := by
  induction cs with
  | nil => exact literalLines_closing hrest (Nat.zero_le 2)
  | cons c cs ih =>
    obtain ⟨hc, hcs⟩ := List.forall_mem_cons.1 h
    have hmore := ih hcs fun t ht => hruns t (ht.trans (List.suffix_cons c cs))
    rw [List.cons_append]
    by_cases hq : c = '\''
    · subst hq
      have hquotes := startsWithin_cons_iff.1 (hruns _ (List.suffix_refl _))
      rw [literalLines_quote hrest hquotes, hmore]
      rfl
    rcases hc with hp | rfl
    · obtain ⟨hline, hreturn⟩ := ne_of_isPlain hp
      rw [literalLines, if_pos hp, hmore]
      · rfl
      all_goals simp [hq, hline, hreturn]
    · rw [literalLines, hmore]
      rfl

end Lines

/-! ## Strings -/

theorem dropLineEnd_of_head {cs : List Char} (h : ∀ c ∈ cs.head?, c ≠ '\n' ∧ c ≠ '\r') :
    dropLineEnd cs = cs := by
  cases cs with
  | nil => rfl
  | cons c cs =>
    obtain ⟨hline, hreturn⟩ := h c rfl
    rw [dropLineEnd]
    all_goals simp [hline, hreturn]

/-- The line end that is put in front of a string is the one that is dropped. -/
theorem dropLineEnd_leadingLineEnd {cs body : List Char}
    (h : '\n' ∉ cs → ∀ c ∈ body.head?, c ≠ '\n' ∧ c ≠ '\r') :
    dropLineEnd (leadingLineEnd cs ++ body) = body := by
  unfold leadingLineEnd
  split_ifs with hline
  · rfl
  · exact dropLineEnd_of_head (h (by simpa using hline))

theorem literal_of_style {cs : List Char} (h : Style.of cs = .literal) :
    ∀ c ∈ cs, isPlain c = true ∧ c ≠ '\'' := by
  unfold Style.of at h
  dsimp only at h
  split_ifs at h with _ hl
  simp only [Bool.and_eq_true, Bool.not_eq_true', decide_eq_true_eq, List.contains_eq_mem,
    decide_eq_false_iff_not, List.any_eq_false] at hl
  obtain ⟨⟨hescapes, hsingles⟩, hline⟩ := hl
  intro c hc
  have hne : c ≠ '\'' := fun hq => not_mem_of_longestRun hsingles (hq ▸ hc)
  have hplain := isPlain_or_of_needsEscape (Bool.eq_false_iff.2 (hescapes c hc))
  exact ⟨hplain.resolve_right fun hq => hline (hq ▸ hc), hne⟩

theorem literalLines_of_style {cs : List Char} (h : Style.of cs = .literalLines) :
    (∀ c ∈ cs, isPlain c = true ∨ c = '\n') ∧ ∀ t, t <:+ cs → StartsWithin '\'' 2 t := by
  unfold Style.of at h
  dsimp only at h
  split_ifs at h with _ _ _ hl
  simp only [Bool.and_eq_true, Bool.not_eq_true', decide_eq_true_eq, List.any_eq_false] at hl
  obtain ⟨hescapes, hsingles⟩ := hl
  exact ⟨fun c hc => isPlain_or_of_needsEscape (Bool.eq_false_iff.2 (hescapes c hc)),
    fun t ht => startsWithin_of_longestRun hsingles ht⟩

/-- A string without a line end is not written with one in front. -/
theorem head_escapeAll {cs : List Char} (h : '\n' ∉ cs) {rest : List Char}
    (hrest : ∀ c ∈ rest.head?, c ≠ '\n' ∧ c ≠ '\r') :
    ∀ c ∈ (escapeAll true 2 0 cs ++ rest).head?, c ≠ '\n' ∧ c ≠ '\r' := by
  obtain _ | ⟨c, cs⟩ := cs
  · exact hrest
  unfold escapeAll
  split_ifs with hc hfree
  · rintro d ⟨⟩
    decide
  · rintro d ⟨⟩
    decide
  · have hw := written_escape true hc
    generalize escape true c = written at hw
    cases hw with
    | letter | number =>
      rintro d ⟨⟩
      decide
    | plain hp =>
      rintro d ⟨⟩
      exact ne_of_isPlain hp
    | lineEnd _ hline => exact absurd (hline ▸ List.mem_cons_self) h

/-- A string without quotes at its start and its closing quote are not two quotes. -/
theorem ne_quotes {q : Char} {cs rest : List Char} (h : StartsWithin q 0 cs)
    (hrest : ∀ c ∈ rest.head?, c ≠ q) (r : List Char) : cs ++ q :: rest ≠ q :: q :: r := by
  obtain ⟨k, hk, hcs⟩ := h
  rw [Nat.le_zero.1 hk] at hcs
  rintro heq
  rcases hcs with rfl | ⟨c, s, hc, rfl⟩
  · obtain rfl : rest = q :: r := (List.cons.inj heq).2
    exact hrest q rfl rfl
  · exact hc (List.cons.inj heq).1

section Strings

variable {cs rest : List Char} (hrest : Unquoted rest)

include hrest

theorem string_basic : string (Style.basic.write cs ++ rest) = some (String.ofList cs, rest) := by
  have hquotes := ne_quotes (startsWithin_escapeAll false (Nat.le_refl 0) cs)
    fun c hc => (hrest c hc).1
  have hread := basicBody_escapeAll cs rest
  rw [Style.write, List.cons_append, List.append_assoc, List.singleton_append, string, hread]
  · rfl
  · exact hquotes

theorem string_literal (h : ∀ c ∈ cs, isPlain c = true ∧ c ≠ '\'') :
    string (Style.literal.write cs ++ rest) = some (String.ofList cs, rest) := by
  have hstart : StartsWithin '\'' 0 cs := by
    cases cs with
    | nil => exact startsWithin_nil _ _
    | cons c cs => exact startsWithin_of_ne (h c List.mem_cons_self).2 _ _
  have hquotes := ne_quotes hstart fun c hc => (hrest c hc).2
  have hread := literalBody_append h rest
  rw [Style.write, List.cons_append, List.append_assoc, List.singleton_append, string, hread]
  · rfl
  · exact hquotes

theorem string_basicLines :
    string (Style.basicLines.write cs ++ rest) = some (String.ofList cs, rest) := by
  have hread := basicLines_escapeAll hrest (Nat.zero_le 2) cs
  have hdrop : dropLineEnd (leadingLineEnd cs ++
      (escapeAll true 2 0 cs ++ ('"' :: '"' :: '"' :: rest))) =
        escapeAll true 2 0 cs ++ '"' :: '"' :: '"' :: rest := by
    refine dropLineEnd_leadingLineEnd fun hline => head_escapeAll hline ?_
    rintro c ⟨⟩
    decide
  have hwrite : Style.basicLines.write cs ++ rest = '"' :: '"' :: '"' ::
      (leadingLineEnd cs ++ (escapeAll true 2 0 cs ++ '"' :: '"' :: '"' :: rest)) := by
    simp [Style.write]
  rw [hwrite, string, hdrop, hread]
  rfl

theorem string_literalLines (h : ∀ c ∈ cs, isPlain c = true ∨ c = '\n')
    (hruns : ∀ t, t <:+ cs → StartsWithin '\'' 2 t) :
    string (Style.literalLines.write cs ++ rest) = some (String.ofList cs, rest) := by
  have hread := literalLines_append hrest h hruns
  have hdrop : dropLineEnd (leadingLineEnd cs ++ (cs ++ '\'' :: '\'' :: '\'' :: rest)) =
      cs ++ '\'' :: '\'' :: '\'' :: rest := by
    refine dropLineEnd_leadingLineEnd fun hline => ?_
    obtain _ | ⟨c, cs⟩ := cs
    · rintro c ⟨⟩
      decide
    · rintro d ⟨⟩
      have hne : c ≠ '\n' := fun hc => hline (hc ▸ List.mem_cons_self)
      exact ne_of_isPlain ((h c List.mem_cons_self).resolve_right hne)
  have hwrite : Style.literalLines.write cs ++ rest = '\'' :: '\'' :: '\'' ::
      (leadingLineEnd cs ++ (cs ++ '\'' :: '\'' :: '\'' :: rest)) := by
    simp [Style.write]
  rw [hwrite, string, hdrop, hread]
  rfl

/-- A string is read from the form that was chosen for it. -/
theorem string_stringChars (s : String) :
    string (stringChars s ++ rest) = some (s, rest) := by
  unfold stringChars
  cases hstyle : Style.of s.toList with
  | basic => rw [string_basic hrest, String.ofList_toList]
  | literal => rw [string_literal hrest (literal_of_style hstyle), String.ofList_toList]
  | basicLines => rw [string_basicLines hrest, String.ofList_toList]
  | literalLines =>
    obtain ⟨hchars, hruns⟩ := literalLines_of_style hstyle
    rw [string_literalLines hrest hchars hruns, String.ofList_toList]

end Strings

/-! ## Names -/

theorem takeWhile_of_head {p : Char → Bool} {cs : List Char} (h : ∀ c ∈ cs.head?, p c = false) :
    cs.takeWhile p = [] := by
  cases cs with
  | nil => rfl
  | cons c cs => exact List.takeWhile_cons_of_neg (by simp [h c rfl])

theorem dropWhile_of_head {p : Char → Bool} {cs : List Char} (h : ∀ c ∈ cs.head?, p c = false) :
    cs.dropWhile p = cs := by
  cases cs with
  | nil => rfl
  | cons c cs => exact List.dropWhile_cons_of_neg (by simp [h c rfl])

theorem ofBody_toList (s : String) (rest : List Char) :
    ofBody (some (s.toList, rest)) = some (s, rest) := by
  show some (String.ofList s.toList, rest) = _
  rw [String.ofList_toList]

/-- How a name starts. -/
def isNameStart (c : Char) : Bool :=
  isBare c || c = '"' || c = '\''

/-- A name stands without quotes or between quotes of either kind. -/
theorem nameChars_cases (k : String) :
    (∃ c cs, k.toList = c :: cs ∧ (∀ d ∈ c :: cs, isBare d = true) ∧ nameChars k = c :: cs) ∨
      (∀ c ∈ k.toList, isPlain c = true ∧ c ≠ '\'') ∧ nameChars k = Style.literal.write k.toList ∨
      nameChars k = Style.basic.write k.toList := by
  unfold nameChars
  dsimp only
  split_ifs with hbare
  · rw [Bool.and_eq_true, List.all_eq_true, Bool.not_eq_true', List.isEmpty_eq_false_iff] at hbare
    obtain ⟨c, cs, hk⟩ := List.exists_cons_of_ne_nil hbare.1
    exact .inl ⟨c, cs, hk, hk ▸ hbare.2, hk⟩
  · split
    · exact .inr (.inl ⟨literal_of_style ‹_›, rfl⟩)
    · exact .inr (.inr rfl)

theorem exists_nameChars (k : String) : ∃ c cs, nameChars k = c :: cs ∧ isNameStart c = true := by
  obtain ⟨c, cs, -, hbare, heq⟩ | ⟨-, heq⟩ | heq := nameChars_cases k
  · have hc : isBare c = true := hbare c List.mem_cons_self
    exact ⟨c, cs, heq, by rw [isNameStart, hc]; rfl⟩
  · exact ⟨_, _, heq, rfl⟩
  · exact ⟨_, _, heq, rfl⟩

theorem name_bare {c : Char} {cs rest : List Char} (h : ∀ d ∈ c :: cs, isBare d = true)
    (hrest : ∀ d ∈ rest.head?, isBare d = false) :
    name (c :: cs ++ rest) = some (String.ofList (c :: cs), rest) := by
  have htake : (c :: cs ++ rest).takeWhile isBare = c :: cs := by
    rw [List.takeWhile_append_of_pos h, takeWhile_of_head hrest, List.append_nil]
  have hdrop : (c :: cs ++ rest).dropWhile isBare = rest := by
    rw [List.dropWhile_append_of_pos h, dropWhile_of_head hrest]
  have hc : isBare c = true := h c List.mem_cons_self
  unfold name
  split
  · rename_i hquote
    rw [(List.cons.inj hquote).1] at hc
    exact absurd hc (by decide)
  · rename_i hquote
    rw [(List.cons.inj hquote).1] at hc
    exact absurd hc (by decide)
  · rw [htake, hdrop]

/-- A name is read up to what cannot be part of it, should it stand without quotes. -/
theorem name_nameChars (k : String) {rest : List Char}
    (hrest : ∀ c ∈ rest.head?, isBare c = false) :
    name (nameChars k ++ rest) = some (k, rest) := by
  obtain ⟨c, cs, hk, hbare, heq⟩ | ⟨hliteral, heq⟩ | heq := nameChars_cases k
  · rw [heq, name_bare hbare hrest, ← hk, String.ofList_toList]
  · rw [heq, Style.write, List.cons_append, List.append_assoc, List.singleton_append, name,
      literalBody_append hliteral, ofBody_toList]
  · rw [heq, Style.write, List.cons_append, List.append_assoc, List.singleton_append, name,
      basicBody_escapeAll, ofBody_toList]

/-- How the text behind names goes on when they are read to their end. -/
structure EndsPath (rest : List Char) : Prop where
  bare : ∀ c ∈ rest.head?, isBare c = false
  dot : ∀ c ∈ (rest.dropWhile isSpace).head?, c ≠ '.'

theorem dropWhile_nameChars (k : String) (rest : List Char) :
    (nameChars k ++ rest).dropWhile isSpace = nameChars k ++ rest := by
  obtain ⟨c, cs, heq, hc⟩ := exists_nameChars k
  have hspace : isSpace c = false := by
    by_contra h
    simp only [isSpace, Bool.not_eq_false, Bool.or_eq_true, decide_eq_true_eq] at h
    rcases h with rfl | rfl <;> exact absurd hc (by decide)
  rw [heq]
  refine dropWhile_of_head ?_
  rintro d ⟨⟩
  exact hspace

/-- Names with dots between them are read, and the blanks behind them. -/
theorem names_pathChars {ks : List String} (hne : ks ≠ []) {fuel : Nat} (hf : ks.length ≤ fuel)
    {rest : List Char} (hrest : EndsPath rest) :
    names fuel (pathChars ks ++ rest) = some (ks, rest.dropWhile isSpace) := by
  induction ks generalizing fuel with
  | nil => exact absurd rfl hne
  | cons k ks ih =>
    obtain ⟨fuel, rfl⟩ : ∃ n, fuel = n + 1 := ⟨fuel - 1, by rw [List.length_cons] at hf; omega⟩
    cases ks with
    | nil =>
      rw [pathChars, names, dropWhile_nameChars, name_nameChars k hrest.bare]
      dsimp only
      split
      · rename_i r hr
        exact absurd rfl (hrest.dot '.' (by rw [hr]; rfl))
      · rfl
    | cons l ls =>
      have hmore := ih (List.cons_ne_nil l ls) (Nat.le_of_succ_le_succ hf)
      have hdot : ∀ c ∈ ('.' :: (pathChars (l :: ls) ++ rest)).head?, isBare c = false := by
        rintro c ⟨⟩
        decide
      show names (fuel + 1) (nameChars k ++ '.' :: pathChars (l :: ls) ++ rest) = _
      rw [List.append_assoc, List.cons_append, names, dropWhile_nameChars, name_nameChars k hdot]
      show Option.map _ (names fuel (pathChars (l :: ls) ++ rest)) = _
      rw [hmore]
      rfl

theorem path_pathChars {ks : List String} (hne : ks ≠ []) (hlen : ks.length ≤ depthMax)
    {rest : List Char} (hrest : EndsPath rest) :
    path (pathChars ks ++ rest) = some (ks, rest.dropWhile isSpace) :=
  names_pathChars hne hlen hrest

end Parley.Toml
