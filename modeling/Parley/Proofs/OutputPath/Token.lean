/-
The integers of an output path, looked for in two ways: among its tokens, and by a scan of its
characters that passes over names and quotes. Every text that has tokens at all has the same
integers in both (`magnitudes_of_tokens`), whatever its names and quotes hold, so the scan finds an
integer too great exactly when some token is one (`integerBeyondMax_eq_none_iff`).
-/
import Parley.OutputPath

namespace Parley.OutputPath

open Token

/-! ## The scan -/

theorem length_behindQuote_le (close : Char) (cs : List Char) :
    (behindQuote close cs).length ≤ cs.length := by
  fun_induction behindQuote close cs with
  | case1 => exact Nat.le_refl _
  | case2 => exact Nat.zero_le _
  | case3 => exact Nat.le_succ _
  | case4 d r _ ih => exact Nat.le_trans ih (by simp only [List.length_cons]; omega)
  | case5 c d r _ _ ih => exact Nat.le_trans ih (Nat.le_succ _)

/-- A scan that has fuel for every character is as good as any. -/
theorem bareIntegers_fuel {n m : Nat} {cs : List Char} (hn : cs.length ≤ n) (hm : cs.length ≤ m) :
    bareIntegers n cs = bareIntegers m cs := by
  induction n generalizing m cs with
  | zero =>
    rw [List.length_eq_zero_iff.1 (Nat.le_zero.1 hn)]
    cases m <;> rfl
  | succ n ih =>
    cases cs with
    | nil => cases m <;> rfl
    | cons c r =>
      obtain ⟨m, rfl⟩ := Nat.exists_eq_succ_of_ne_zero
        (Nat.ne_of_gt (Nat.lt_of_lt_of_le (Nat.succ_pos _) hm))
      have hn' : r.length ≤ n := Nat.le_of_succ_le_succ hn
      have hm' : r.length ≤ m := Nat.le_of_succ_le_succ hm
      -- no branch goes on with more than what is left of the text
      have go {rest : List Char} (h : rest.length ≤ r.length) :
          bareIntegers n rest = bareIntegers m rest :=
        ih (Nat.le_trans h hn') (Nat.le_trans h hm')
      unfold bareIntegers
      rw [go (length_behindQuote_le c r), go (List.dropWhile_suffix _).length_le,
        go (List.dropWhile_suffix _).length_le, go (Nat.le_refl _)]

/-- The sizes of the integers that a text holds outside names and quotes. -/
def magnitudes (cs : List Char) : List Nat :=
  (bareIntegers cs.length cs).map ofDigits

/-- Whether a character starts none of the texts that a scan takes as a whole. -/
def isPlain (c : Char) : Bool :=
  !(c = '\'' || c = '"' || c = backtick || startsName c || c.isDigit)

section Magnitudes

variable {c : Char} {r : List Char}

theorem magnitudes_of_fuel {n : Nat} {cs : List Char} (h : cs.length ≤ n) :
    (bareIntegers n cs).map ofDigits = magnitudes cs :=
  congrArg _ (bareIntegers_fuel h (Nat.le_refl _))

theorem magnitudes_quote (h : c = '\'' ∨ c = '"' ∨ c = backtick) :
    magnitudes (c :: r) = magnitudes (behindQuote c r) := by
  unfold magnitudes
  rw [List.length_cons, bareIntegers, if_pos h]
  exact magnitudes_of_fuel (length_behindQuote_le c r)

theorem not_quote_of_startsName (h : startsName c = true) :
    ¬(c = '\'' ∨ c = '"' ∨ c = backtick) := by
  rintro (rfl | rfl | rfl) <;> revert h <;> decide

theorem not_quote_of_isDigit (h : c.isDigit = true) : ¬(c = '\'' ∨ c = '"' ∨ c = backtick) := by
  rintro (rfl | rfl | rfl) <;> revert h <;> decide

theorem startsName_of_isDigit (h : c.isDigit = true) : startsName c = false := by
  have hle : c.toNat ≤ '9'.toNat := (Char.isDigit_iff_toNat.1 h).2
  have hbelow {b : Char} (hb : '9'.toNat < b.toNat) : ¬b.val ≤ c.val := fun hbc =>
    Nat.not_lt.2 (Nat.le_trans (UInt32.le_iff_toNat_le.1 hbc) hle) hb
  have hupper : c.isUpper = false := decide_eq_false fun hu => hbelow (by decide) hu.1
  have hlower : c.isLower = false := by
    show (decide ('a'.val ≤ c.val) && _) = false
    rw [decide_eq_false (hbelow (by decide)), Bool.false_and]
  have hline : c ≠ '_' := by
    rintro rfl
    revert h
    decide
  show (c.isUpper || c.isLower || decide (c = '_')) = false
  rw [hupper, hlower, decide_eq_false hline]
  rfl

theorem magnitudes_name (h : startsName c = true) :
    magnitudes (c :: r) = magnitudes (r.dropWhile continuesName) := by
  unfold magnitudes
  rw [List.length_cons, bareIntegers, if_neg (not_quote_of_startsName h), if_pos h]
  exact magnitudes_of_fuel (List.dropWhile_suffix _).length_le

theorem magnitudes_digit (h : c.isDigit = true) :
    magnitudes (c :: r) =
      ofDigits (c :: r.takeWhile Char.isDigit) :: magnitudes (r.dropWhile Char.isDigit) := by
  have hrest : (r.dropWhile Char.isDigit).length ≤ r.length := (List.dropWhile_suffix _).length_le
  rw [← magnitudes_of_fuel hrest]
  unfold magnitudes
  rw [List.length_cons, bareIntegers, if_neg (not_quote_of_isDigit h),
    if_neg (by simp [startsName_of_isDigit h]), if_pos h, List.map_cons]

theorem magnitudes_plain (h : isPlain c = true) : magnitudes (c :: r) = magnitudes r := by
  have hc : ¬(c = '\'' ∨ c = '"' ∨ c = backtick) ∧ startsName c = false ∧ c.isDigit = false := by
    simpa [isPlain, and_assoc] using h
  obtain ⟨hq, hn, hd⟩ := hc
  unfold magnitudes
  rw [List.length_cons, bareIntegers, if_neg hq, if_neg (by simp [hn]), if_neg (by simp [hd])]

end Magnitudes

/-! ## Tokens -/

def Token.magnitude? : Token → Option Nat
  | .number i => some i.natAbs
  | _ => none

section Tokens

variable {c : Char} {r rest : List Char} {t : Option Token}

/-- What is taken as a quoted part is what the scan passes over. -/
theorem behindQuote_of_delimited {close : Char} {cs text rest : List Char}
    (h : Text.delimited close cs = some (text, rest)) : behindQuote close cs = rest := by
  fun_induction behindQuote close cs generalizing text with
  | case1 => cases h
  | case2 c =>
    unfold Text.delimited at h
    split at h
    · cases h
      rfl
    · split at h <;> cases h
  | case3 d r =>
    rw [Text.delimited, if_pos rfl] at h
    cases h
    rfl
  | case4 d r hc ih =>
    rw [Text.delimited, if_neg hc, if_pos rfl] at h
    obtain ⟨⟨text', rest'⟩, hd, he⟩ := Option.map_eq_some_iff.1 h
    cases he
    exact ih hd
  | case5 c d r hc hb ih =>
    rw [Text.delimited, if_neg hc, if_neg hb] at h
    obtain ⟨⟨text', rest'⟩, hd, he⟩ := Option.map_eq_some_iff.1 h
    cases he
    exact ih hd

theorem of_enclosed {close : Char} {make : List Char → Option Token} {cs : List Char}
    (h : enclosed close make cs = some (t, rest)) :
    behindQuote close cs = rest ∧ ∃ text t', make text = some t' ∧ t = some t' := by
  unfold enclosed at h
  split at h
  · cases h
  · rename_i text rest' hd
    obtain ⟨t', ht, he⟩ := Option.map_eq_some_iff.1 h
    cases he
    exact ⟨behindQuote_of_delimited hd, text, t', ht, rfl⟩

theorem ofQuoted_magnitude {text : List Char} {t : Token} (h : ofQuoted text = some t) :
    t.magnitude? = none := by
  unfold ofQuoted at h
  split at h
  · cases h
    rfl
  · cases h

theorem ofRaw_magnitude {text : List Char} {t : Token} (h : ofRaw text = some t) :
    t.magnitude? = none := by
  cases h
  rfl

theorem ofLiteral_magnitude {text : List Char} {t : Token} (h : ofLiteral text = some t) :
    t.magnitude? = none := by
  obtain ⟨v, -, rfl⟩ := Option.map_eq_some_iff.1 h
  rfl

/-- Marks of one or two characters hold no integer. -/
theorem magnitudes_pair {next : Char} {long short : Token} (hc : isPlain c = true)
    (hn : isPlain next = true) (hl : long.magnitude? = none) (hs : short.magnitude? = none)
    (h : pair next long short r = some (t, rest)) :
    magnitudes (c :: r) = (t.bind Token.magnitude?).toList ++ magnitudes rest := by
  rw [magnitudes_plain hc]
  unfold pair at h
  split at h
  · rename_i d r
    split at h
    · rename_i hd
      cases h
      rw [Option.bind_some, hl, hd, magnitudes_plain hn]
      rfl
    · cases h
      rw [Option.bind_some, hs]
      rfl
  · cases h
    rw [Option.bind_some, hs]
    rfl

theorem magnitudes_step (h : Token.step c r = some (t, rest)) :
    magnitudes (c :: r) = (t.bind Token.magnitude?).toList ++ magnitudes rest := by
  unfold Token.step at h
  split at h
  · rename_i hb
    cases h
    rcases hb with rfl | rfl | rfl | rfl <;> exact magnitudes_plain rfl
  split at h
  · rename_i hn
    cases h
    exact magnitudes_name hn
  split at h
  · rename_i hd
    cases h
    exact magnitudes_digit hd
  split at h
  · rename_i hq
    subst hq
    obtain ⟨hr, text, t', ht, rfl⟩ := of_enclosed h
    rw [magnitudes_quote (.inr (.inr rfl)), hr, Option.bind_some, ofLiteral_magnitude ht]
    rfl
  split at h
  -- the marks of one character, and those that a second one may follow
  any_goals exact magnitudes_pair rfl rfl rfl rfl h
  any_goals
    cases h
    exact magnitudes_plain rfl
  -- an opening bracket
  · split at h
    all_goals cases h
    · exact (magnitudes_plain rfl).trans (magnitudes_plain rfl)
    · exact (magnitudes_plain rfl).trans (magnitudes_plain rfl)
    · exact magnitudes_plain rfl
  -- an equals sign, which does not stand alone
  · split at h
    · cases h
      exact (magnitudes_plain rfl).trans (magnitudes_plain rfl)
    · cases h
  · obtain ⟨hr, text, t', ht, rfl⟩ := of_enclosed h
    rw [magnitudes_quote (.inr (.inl rfl)), hr, Option.bind_some, ofQuoted_magnitude ht]
    rfl
  · obtain ⟨hr, text, t', ht, rfl⟩ := of_enclosed h
    rw [magnitudes_quote (.inl rfl), hr, Option.bind_some, ofRaw_magnitude ht]
    rfl
  -- a minus sign, which a number follows
  · split at h
    · rename_i d r
      split at h
      · rename_i hd
        cases h
        have hdigit : d.isDigit = true := by
          rw [Bool.and_eq_true] at hd
          exact hd.1
        have hplain : isPlain '-' = true := rfl
        rw [magnitudes_plain hplain, magnitudes_digit hdigit,
          List.takeWhile_cons_of_pos hdigit, List.dropWhile_cons_of_pos hdigit, Option.bind_some,
          Token.magnitude?, Int.natAbs_neg, Int.natAbs_natCast]
        rfl
      · cases h
    · cases h
  · cases h

/-- A text that has tokens has the integers of its tokens. -/
theorem magnitudes_of_tokens {fuel : Nat} {cs : List Char} {ts : List Token}
    (h : Token.ofChars fuel cs = some ts) : magnitudes cs = ts.filterMap Token.magnitude? := by
  induction fuel generalizing cs ts with
  | zero =>
    cases cs with
    | nil =>
      cases h
      rfl
    | cons c r => cases h
  | succ fuel ih =>
    cases cs with
    | nil =>
      cases h
      rfl
    | cons c r =>
      unfold Token.ofChars at h
      split at h
      · cases h
      · rename_i t rest hs
        obtain ⟨us, hus, rfl⟩ := Option.map_eq_some_iff.1 h
        rw [magnitudes_step hs, ih hus, List.filterMap_append]
        cases t <;> rfl

end Tokens

/-! ## The bound -/

/-- The scan finds nothing too great exactly when every integer is within the bound. -/
theorem integerBeyondMax_eq_none_iff {s : String} {ts : List Token} (h : Token.scan s = some ts) :
    integerBeyondMax? s = none ↔ ∀ i, .number i ∈ ts → i.natAbs ≤ integerMax := by
  have hm := magnitudes_of_tokens h
  unfold magnitudes at hm
  unfold integerBeyondMax?
  rw [Option.map_eq_none_iff, List.find?_eq_none]
  constructor
  · intro hall i hi
    have hmem : i.natAbs ∈ (bareIntegers s.toList.length s.toList).map ofDigits := by
      rw [hm]
      exact List.mem_filterMap.2 ⟨_, hi, rfl⟩
    obtain ⟨ds, hds, he⟩ := List.mem_map.1 hmem
    rw [← he]
    simpa using hall ds hds
  · intro hall ds hds
    have hmem : ofDigits ds ∈ ts.filterMap Token.magnitude? := by
      rw [← hm]
      exact List.mem_map_of_mem hds
    obtain ⟨t, ht, he⟩ := List.mem_filterMap.1 hmem
    cases t with
    | number i =>
      rw [← Option.some.inj he]
      simpa using hall i ht
    | _ => cases he

end Parley.OutputPath
