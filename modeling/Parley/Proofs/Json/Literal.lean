/-
What stands between the quotes of a string: characters, or escapes of one (`Denotes`). The reader of
strings takes them one by one (`stringBody_eq_some_iff`), so what stands in one place of a string
makes no difference to how the rest is read (`Literal.stringBody_append`).
-/
import Parley.Proofs.Json.Reading
import Parley.Text.Delimited
import Mathlib.Logic.Relator

namespace Parley.Json

open Text (prepend delimited)
open Json.Parser (isSpace skip stringBody)

/-! ## Characters of a string -/

/-- The ways to write a character in a string: as it is, as a letter behind a backslash, or as code
units of four digits each. -/
inductive Denotes : List Char → Char → Prop
  | plain {c : Char} : c ≠ '"' → c ≠ '\\' → ¬ c.toNat < 32 → Denotes [c] c
  | letter {e c : Char} : Parser.escaped? e = some c → Denotes ['\\', e] c
  | single {a b c d ch : Char} {unit : Nat} : Text.ofHex? [a, b, c, d] = some unit →
    Parser.single? unit = some ch → Denotes ['\\', 'u', a, b, c, d] ch
  | pair {a b c d a' b' c' d' ch : Char} {unit : Nat} : Text.ofHex? [a, b, c, d] = some unit →
    Parser.single? unit = none →
    (Text.ofHex? [a', b', c', d']).bind (Parser.paired? unit) = some ch →
    Denotes ['\\', 'u', a, b, c, d, '\\', 'u', a', b', c', d'] ch

/-- What stands between the quotes of a string, and the characters of the string. -/
inductive Literal : List Char → List Char → Prop
  | nil : Literal [] []
  | cons {u cs ds : List Char} {c : Char} : Denotes u c → Literal cs ds → Literal (u ++ cs) (c :: ds)

section Characters

variable {u : List Char} {c : Char}

theorem Denotes.length_pos (h : Denotes u c) : 0 < u.length := by
  cases h <;> simp

theorem hexDigits {a b c d : Char} {unit : Nat} (h : Text.ofHex? [a, b, c, d] = some unit) :
    ∀ x ∈ [a, b, c, d], ∃ n, Text.hexValue? x = some n := by
  unfold Text.ofHex? at h
  simp only [List.foldlM_cons, List.foldlM_nil, Option.bind_eq_bind, Option.bind_eq_some_iff,
    Option.map_eq_some_iff] at h
  obtain ⟨_, ⟨_, ha, -⟩, _, ⟨_, hb, -⟩, _, ⟨_, hc, -⟩, _, ⟨_, hd, -⟩, -⟩ := h
  simpa using ⟨⟨_, ha⟩, ⟨_, hb⟩, ⟨_, hc⟩, ⟨_, hd⟩⟩

/-- Digits of a code unit are neither quotes nor backslashes, nor do they start a placeholder. -/
theorem hexDigits_ne {a b c d : Char} {unit : Nat} (h : Text.ofHex? [a, b, c, d] = some unit) :
    ∀ x ∈ [a, b, c, d], x ≠ '"' ∧ x ≠ '\\' ∧ x ≠ '$' := by
  intro x hx
  obtain ⟨n, hn⟩ := hexDigits h x hx
  refine ⟨?_, ?_, ?_⟩ <;> rintro rfl <;> cases hn

theorem letter_ne {e c : Char} (h : Parser.escaped? e = some c) : e ≠ 'u' ∧ e ≠ '$' := by
  constructor <;> rintro rfl <;> cases h

/-- A plain character is read as itself. -/
theorem stringBody_plain {c : Char} (hquote : c ≠ '"') (hslash : c ≠ '\\') (rest : List Char) :
    stringBody (c :: rest) =
      if c.toNat < 32 then none else prepend (some c) (stringBody rest) := by
  rw [stringBody]
  · exact hquote
  · exact fun _ _ _ _ _ h _ => hslash h
  · exact fun _ _ h _ => hslash h

theorem Denotes.stringBody_append (h : Denotes u c) (rest : List Char) :
    stringBody (u ++ rest) = prepend (some c) (stringBody rest) := by
  cases h with
  | plain hquote hslash hlow =>
    rw [List.singleton_append, stringBody_plain hquote hslash, if_neg hlow]
  | @letter e c he =>
    show stringBody ('\\' :: e :: rest) = _
    rw [stringBody, he]
    exact fun _ _ _ _ _ hu _ => (letter_ne he).1 hu
  | @single a b c d ch unit hunit hsingle => simp [stringBody, hunit, hsingle]
  | @pair a b c d a' b' c' d' ch unit hunit hsingle hpair =>
    simp [stringBody, hunit, hsingle, hpair]

/-- What delimits a text at its quotes does not look into the characters of a string. -/
theorem Denotes.delimited_append (h : Denotes u c) (rest : List Char) :
    delimited '"' (u ++ rest) = (delimited '"' rest).map fun r => (u ++ r.1, r.2) := by
  have hplain {x : Char} (hx : x ≠ '"' ∧ x ≠ '\\') (cs : List Char) :
      delimited '"' (x :: cs) = (delimited '"' cs).map fun r => (x :: r.1, r.2) := by
    conv_lhs => unfold delimited
    simp only [if_neg hx.1, if_neg hx.2]
  have hescape (e : Char) (cs : List Char) :
      delimited '"' ('\\' :: e :: cs) = (delimited '"' cs).map fun r => ('\\' :: e :: r.1, r.2) := by
    rw [delimited, if_neg (by decide), if_pos rfl]
  have hdigits {a b c d : Char} {unit : Nat} (h : Text.ofHex? [a, b, c, d] = some unit)
      (cs : List Char) : delimited '"' ('\\' :: 'u' :: a :: b :: c :: d :: cs) =
        (delimited '"' cs).map fun r => ('\\' :: 'u' :: a :: b :: c :: d :: r.1, r.2) := by
    have hne := hexDigits_ne h
    simp only [List.forall_mem_cons] at hne
    obtain ⟨ha, hb, hc, hd, -⟩ := hne
    rw [hescape, hplain ⟨ha.1, ha.2.1⟩, hplain ⟨hb.1, hb.2.1⟩, hplain ⟨hc.1, hc.2.1⟩,
      hplain ⟨hd.1, hd.2.1⟩]
    simp only [Option.map_map, Function.comp_def]
  cases h with
  | plain hquote hslash _ => exact hplain ⟨hquote, hslash⟩ rest
  | letter he => exact hescape _ rest
  | single hunit _ => exact hdigits hunit rest
  | @pair a b c d a' b' c' d' ch unit hunit _ hpair =>
    obtain ⟨unit', hunit', -⟩ := Option.bind_eq_some_iff.1 hpair
    simp only [List.cons_append, List.nil_append, hdigits hunit, hdigits hunit', Option.map_map,
      Function.comp_def]

/-- Where a dollar sign stands in a string it stands for itself. -/
theorem Denotes.dollar (h : Denotes u c) : u = ['$'] ∨ '$' ∉ u := by
  cases h with
  | plain _ _ _ =>
    by_cases hc : c = '$'
    · exact .inl (hc ▸ rfl)
    · exact .inr (by simpa using Ne.symm hc)
  | letter he => exact .inr (by simpa using (letter_ne he).2.symm)
  | single hunit _ =>
    have hne := hexDigits_ne hunit
    simp only [List.forall_mem_cons] at hne
    obtain ⟨ha, hb, hc, hd, -⟩ := hne
    exact .inr (by simpa using ⟨ha.2.2.symm, hb.2.2.symm, hc.2.2.symm, hd.2.2.symm⟩)
  | pair hunit _ hpair =>
    obtain ⟨unit', hunit', -⟩ := Option.bind_eq_some_iff.1 hpair
    have hne := hexDigits_ne hunit
    have hne' := hexDigits_ne hunit'
    simp only [List.forall_mem_cons] at hne hne'
    obtain ⟨ha, hb, hc, hd, -⟩ := hne
    obtain ⟨ha', hb', hc', hd', -⟩ := hne'
    exact .inr (by simpa using ⟨ha.2.2.symm, hb.2.2.symm, hc.2.2.symm, hd.2.2.symm,
      ha'.2.2.symm, hb'.2.2.symm, hc'.2.2.symm, hd'.2.2.symm⟩)

end Characters

/-! ## Strings -/

theorem prepend_eq_some_iff {c : Option Char} {x : Text.Step (List Char)} {ds r : List Char} :
    prepend c x = some (ds, r) ↔ ∃ d es, c = some d ∧ x = some (es, r) ∧ ds = d :: es := by
  unfold prepend
  cases c with
  | none => simp
  | some d =>
    cases x with
    | none => simp
    | some y =>
      obtain ⟨es, r'⟩ := y
      simp only [Option.some.injEq, Prod.mk.injEq, exists_and_left]
      constructor
      · rintro ⟨rfl, rfl⟩
        exact ⟨d, rfl, es, ⟨rfl, rfl⟩, rfl⟩
      · rintro ⟨_, rfl, _, ⟨rfl, rfl⟩, rfl⟩
        exact ⟨rfl, rfl⟩

/-- A string is closed at once or goes on with a character. -/
theorem stringBody_cases {cs ds r : List Char} (h : stringBody cs = some (ds, r)) :
    (cs = '"' :: r ∧ ds = []) ∨
      ∃ u c back es, cs = u ++ back ∧ ds = c :: es ∧ Denotes u c ∧
        stringBody back = some (es, r) := by
  unfold stringBody at h
  split at h
  · cases h
  · cases h
    exact .inl ⟨rfl, rfl⟩
  · rename_i a b c d back
    right
    split at h
    · cases h
    rename_i unit hunit
    split at h
    · rename_i ch hsingle
      obtain ⟨_, es, hch, hes, rfl⟩ := prepend_eq_some_iff.1 h
      cases hch
      exact ⟨_, ch, back, es, rfl, rfl, .single hunit hsingle, hes⟩
    rename_i hsingle
    split at h
    · obtain ⟨ch, es, hch, hes, rfl⟩ := prepend_eq_some_iff.1 h
      exact ⟨_, ch, _, es, rfl, rfl, .pair hunit hsingle hch, hes⟩
    · cases h
  · rename_i e back _
    obtain ⟨ch, es, hch, hes, rfl⟩ := prepend_eq_some_iff.1 h
    exact .inr ⟨['\\', e], ch, back, es, rfl, rfl, .letter hch, hes⟩
  · rename_i c back hquote _ hescape
    split at h
    · cases h
    rename_i hlow
    obtain ⟨ch, es, hch, hes, rfl⟩ := prepend_eq_some_iff.1 h
    cases hch
    -- a backslash at the end of the text is behind no quote
    have hslash : c ≠ '\\' := by
      cases back with
      | nil => cases hes
      | cons d back => exact fun hc => hescape d back hc rfl
    exact .inr ⟨[c], c, back, es, rfl, rfl, .plain hquote hslash hlow, hes⟩

/-- What is read as a string is the characters up to a quote. -/
theorem literal_of_stringBody {cs ds r : List Char} (h : stringBody cs = some (ds, r)) :
    ∃ front, cs = front ++ '"' :: r ∧ Literal front ds := by
  induction hn : cs.length using Nat.strong_induction_on generalizing cs ds with
  | _ n ih =>
    subst hn
    rcases stringBody_cases h with ⟨rfl, rfl⟩ | ⟨u, c, back, es, rfl, rfl, hu, hback⟩
    · exact ⟨[], rfl, .nil⟩
    · have hlt : back.length < (u ++ back).length := by
        rw [List.length_append]
        have := hu.length_pos
        omega
      obtain ⟨front, rfl, hfront⟩ := ih _ hlt hback rfl
      exact ⟨u ++ front, by simp, .cons hu hfront⟩

/-- Characters that are no quotes and no backslashes are read as they are, if they are read. -/
theorem literal_of_plain {front ds r : List Char} (rest : List Char)
    (hplain : ∀ c ∈ front, c ≠ '"' ∧ c ≠ '\\') (h : stringBody (front ++ rest) = some (ds, r)) :
    Literal front front ∧ ∃ es, ds = front ++ es ∧ stringBody rest = some (es, r) := by
  induction front generalizing ds with
  | nil => exact ⟨.nil, ds, rfl, h⟩
  | cons c front ih =>
    obtain ⟨⟨hquote, hslash⟩, hfront⟩ := List.forall_mem_cons.1 hplain
    rw [List.cons_append, stringBody_plain hquote hslash] at h
    split at h
    · cases h
    rename_i hlow
    obtain ⟨_, es, hc, hes, rfl⟩ := prepend_eq_some_iff.1 h
    cases hc
    obtain ⟨hliteral, fs, rfl, hrest⟩ := ih hfront hes
    exact ⟨.cons (.plain hquote hslash hlow) hliteral, fs, rfl, hrest⟩

namespace Literal

variable {cs ds : List Char} (h : Literal cs ds)

include h

/-- The characters in front are read alike, whatever comes behind them. -/
theorem stringBody_append (rest : List Char) :
    stringBody (cs ++ rest) = (stringBody rest).map fun r => (ds ++ r.1, r.2) := by
  induction h with
  | nil => simp
  | @cons u cs ds c hu _ ih =>
    rw [List.append_assoc, hu.stringBody_append, ih]
    cases stringBody rest <;> rfl

theorem delimited_append (rest : List Char) :
    delimited '"' (cs ++ rest) = (delimited '"' rest).map fun r => (cs ++ r.1, r.2) := by
  induction h with
  | nil => simp
  | @cons u cs ds c hu _ ih =>
    rw [List.append_assoc, hu.delimited_append, ih, Option.map_map]
    simp only [Function.comp_def, List.append_assoc]

/-- A string is read to its quote, and so is the text of its literal. -/
theorem stringBody_quote (rest : List Char) :
    stringBody (cs ++ '"' :: rest) = some (ds, rest) := by
  rw [h.stringBody_append, stringBody]
  simp

theorem delimited_quote (rest : List Char) :
    delimited '"' (cs ++ '"' :: rest) = some (cs, rest) := by
  rw [h.delimited_append]
  conv_lhs => unfold delimited
  simp

theorem append {es fs : List Char} (h' : Literal es fs) : Literal (cs ++ es) (ds ++ fs) := by
  induction h with
  | nil => exact h'
  | cons hu _ ih =>
    rw [List.append_assoc]
    exact .cons hu ih

/-- No character is written with less than one, and with one it is written as it is. -/
theorem length_le : ds.length ≤ cs.length ∧
    (cs.length = ds.length → cs = ds ∧ ∀ c ∈ cs, c ≠ '"' ∧ c ≠ '\\' ∧ ¬ c.toNat < 32) := by
  induction h with
  | nil => simp
  | @cons u cs ds c hu _ ih =>
    have hpos := hu.length_pos
    obtain ⟨hle, heq⟩ := ih
    refine ⟨by simp only [List.length_append, List.length_cons]; omega, fun hlen => ?_⟩
    simp only [List.length_append, List.length_cons] at hlen
    obtain ⟨rfl, hplain⟩ := heq (by omega)
    have hone : u.length = 1 := by omega
    cases hu with
    | plain hquote hslash hlow =>
      exact ⟨rfl, List.forall_mem_cons.2 ⟨⟨hquote, hslash, hlow⟩, hplain⟩⟩
    | letter | single | pair => simp at hone

end Literal

/-- A character that stands in no escape, so that one can begin at it only. -/
def IsApart (c : Char) : Prop :=
  c ≠ '\\' ∧ c ≠ 'u' ∧ Parser.escaped? c = none ∧ Text.hexValue? c = none

theorem Denotes.not_isApart {u : List Char} {c : Char} (h : Denotes u c) :
    ∀ x ∈ u.tail, ¬ IsApart x := by
  rintro x hx ⟨hslash, hu, hletter, hhex⟩
  have hdigit {a b c d : Char} {unit : Nat} (h : Text.ofHex? [a, b, c, d] = some unit) :
      x ∉ [a, b, c, d] := by
    intro hx
    obtain ⟨n, hn⟩ := hexDigits h x hx
    rw [hhex] at hn
    cases hn
  cases h with
  | plain => cases hx
  | letter he =>
    rw [List.mem_singleton.1 hx, he] at hletter
    cases hletter
  | single hunit _ =>
    rcases List.mem_cons.1 hx with rfl | hx
    · exact hu rfl
    · exact hdigit hunit hx
  | @pair a b c d a' b' c' d' ch unit hunit _ hpair =>
    obtain ⟨unit', hunit', -⟩ := Option.bind_eq_some_iff.1 hpair
    have hx : x ∈ 'u' :: ([a, b, c, d] ++ '\\' :: 'u' :: [a', b', c', d']) := hx
    rcases List.mem_cons.1 hx with rfl | hx
    · exact hu rfl
    rcases List.mem_append.1 hx with hx | hx
    · exact hdigit hunit hx
    rcases List.mem_cons.1 hx with rfl | hx
    · exact hslash rfl
    rcases List.mem_cons.1 hx with rfl | hx
    · exact hu rfl
    · exact hdigit hunit' hx

/-- A string can be cut where no escape goes on. -/
theorem Literal.cut {front back ds : List Char} {c : Char} (hc : IsApart c)
    (h : Literal (front ++ c :: back) ds) : ∃ es, Literal front es := by
  generalize hcs : front ++ c :: back = cs at h
  induction h generalizing front with
  | nil => simp at hcs
  | @cons u cs ds d hu _ ih =>
    rcases List.append_eq_append_iff.1 hcs with ⟨mid, hu', hmid⟩ | ⟨mid, rfl, hmid⟩
    · cases mid with
      | nil =>
        rw [List.append_nil] at hu'
        exact ⟨[d], by simpa [hu'] using Literal.cons hu .nil⟩
      | cons x mid =>
        obtain rfl : c = x := (List.cons.inj hmid).1
        cases front with
        | nil => exact ⟨[], .nil⟩
        | cons a front =>
          have hmem : c ∈ u.tail := by simp [hu']
          exact absurd hc (hu.not_isApart c hmem)
    · obtain ⟨es, hes⟩ := ih hmid.symm
      exact ⟨d :: es, .cons hu hes⟩

/-! ### One reading -/

theorem Denotes.literal {u : List Char} {c : Char} (h : Denotes u c) : Literal u [c] := by
  simpa using Literal.cons h .nil

theorem rightUnique_literal : Relator.RightUnique Literal := by
  intro cs ds es h h'
  have heq := (h.stringBody_quote []).symm.trans (h'.stringBody_quote [])
  exact congrArg Prod.fst (Option.some.inj heq)

/-- No character is written as the beginning of another one. -/
theorem Denotes.eq_nil {u mid : List Char} {c d : Char} (h : Denotes u c)
    (h' : Denotes (u ++ mid) d) : mid = [] := by
  have hread := h'.literal.stringBody_quote []
  rw [List.append_assoc, h.stringBody_append] at hread
  obtain ⟨_, es, -, hmid, hes⟩ := prepend_eq_some_iff.1 hread
  cases hes
  rcases stringBody_cases hmid with ⟨hquote, -⟩ | ⟨_, _, _, _, -, hes, -⟩
  · exact (List.append_inj' hquote rfl).1
  · cases hes

theorem Denotes.unique {u u' cs cs' : List Char} {c c' : Char} (h : Denotes u c)
    (h' : Denotes u' c') (heq : u ++ cs = u' ++ cs') : c = c' ∧ cs = cs' := by
  obtain rfl : u = u' := by
    rcases List.append_eq_append_iff.1 heq with ⟨mid, rfl, -⟩ | ⟨mid, rfl, -⟩
    · rw [h.eq_nil h', List.append_nil]
    · rw [h'.eq_nil h, List.append_nil]
  exact ⟨(List.cons.inj (rightUnique_literal h.literal h'.literal)).1, List.append_cancel_left heq⟩

/-! ### What stands for itself -/

/-- The characters that stand for themselves in a string. -/
theorem literal_self_iff {cs : List Char} :
    Literal cs cs ↔ ∀ c ∈ cs, c ≠ '"' ∧ c ≠ '\\' ∧ ¬ c.toNat < 32 := by
  constructor
  · intro h
    exact (h.length_le.2 rfl).2
  · intro h
    induction cs with
    | nil => exact .nil
    | cons c cs ih =>
      obtain ⟨⟨hquote, hslash, hlow⟩, hcs⟩ := List.forall_mem_cons.1 h
      exact .cons (.plain hquote hslash hlow) (ih hcs)

/-! ## A text in quotes -/

/-- A text with quotes around it, with nothing in it escaped. -/
def inQuotes (s : String) : String := String.ofList ('"' :: (s.toList ++ ['"']))

/-- Behind the quote of a text in quotes there is no other quote. -/
theorem eq_nil_of_quote {cs front r : List Char} (h : cs ++ ['"'] = front ++ '"' :: r)
    (hr : skip r = []) : r = [] ∧ cs = front := by
  rcases List.eq_nil_or_concat r with rfl | ⟨back, c, rfl⟩
  · exact ⟨rfl, (List.append_inj' h rfl).1⟩
  · have hlast : cs ++ ['"'] = (front ++ '"' :: back) ++ [c] := by simpa using h
    have hc : ['"'] = [c] := (List.append_inj' hlast rfl).2
    have hblank : isSpace c = true := List.dropWhile_eq_nil_iff.1 hr c (by simp)
    cases hc
    cases hblank

/-- A text in quotes is read as a string just when the text is the inside of one. -/
theorem parse?_inQuotes_iff {s d : String} :
    parse? (inQuotes s) = some (.str d) ↔ Literal s.toList d.toList := by
  have hvalue : Parser.whole Parser.maxDepth (skip (inQuotes s).toList) =
      (stringBody (s.toList ++ ['"'])).map fun r => (.str (String.ofList r.1), r.2) := by
    rw [inQuotes, String.toList_ofList, skip_of_not_space rfl]
    exact value_quote _
  constructor
  · intro h
    obtain ⟨v, hv, hcollapse⟩ := Option.map_eq_some_iff.1 h
    obtain ⟨r, hread, hr⟩ := parseAs?_eq_some_iff.1 hv
    rw [hvalue] at hread
    obtain ⟨⟨ds, _⟩, hbody, heq⟩ := Option.map_eq_some_iff.1 hread
    cases heq
    cases hcollapse
    obtain ⟨front, hfront, hliteral⟩ := literal_of_stringBody hbody
    obtain ⟨rfl, hs⟩ := eq_nil_of_quote hfront hr
    rwa [hs, String.toList_ofList]
  · intro h
    have hread := hvalue
    rw [h.stringBody_quote [], Option.map_some, String.ofList_toList] at hread
    exact parse?_of_read hread rfl

end Parley.Json
