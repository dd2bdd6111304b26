/-
Decimal notation of naturals. The digits of a number are read to their end and stand for the number
(`digits_toDigits`, `ofDigits_values`), and only zero is written with a leading zero.
-/
import Parley.Text.Digit
import Mathlib.Data.Nat.Digits.Defs

namespace Parley.Text

/-- The values of decimal digits. -/
def values (cs : List Char) : List Nat := cs.map fun c => c.toNat - 48

/-- Digits are read up to the first character that is none. -/
theorem digits_append {cs rest : List Char} (hcs : ∀ c ∈ cs, c.isDigit = true)
    (hrest : ∀ c ∈ rest.head?, c.isDigit = false) : digits (cs ++ rest) = (values cs, rest) := by
  induction cs with
  | nil =>
    cases rest with
    | nil => rfl
    | cons c rest =>
      have hc : c.isDigit = false := hrest c rfl
      simp [digits, digit?, hc, values]
  | cons c cs ih =>
    obtain ⟨hc, hcs⟩ := List.forall_mem_cons.1 hcs
    rw [List.cons_append, digits, digit?, if_pos hc]
    simp only [ih hcs]
    rfl

theorem isDigit_of_mem_decimal {n : Nat} {c : Char} (h : c ∈ Nat.toDigits 10 n) :
    c.isDigit = true :=
  Nat.isDigit_of_mem_toDigits (by decide) (by decide) h

theorem digits_toDigits (n : Nat) {rest : List Char} (hrest : ∀ c ∈ rest.head?, c.isDigit = false) :
    digits (Nat.toDigits 10 n ++ rest) = (values (Nat.toDigits 10 n), rest) :=
  digits_append (fun _ h => isDigit_of_mem_decimal h) hrest

/-- The digits of a number stand for it. -/
theorem ofDigits_values (n : Nat) : ofDigits (values (Nat.toDigits 10 n)) = n := by
  have hfold : ofDigits (values (Nat.toDigits 10 n)) =
      Nat.ofDigitChars 10 (Nat.toDigits 10 n) 0 := by
    unfold ofDigits values Nat.ofDigitChars
    rw [List.foldl_map]
    simp only [Nat.mul_comm]
    rfl
  rw [hfold, Nat.ofDigitChars_ten_toDigits]

/-- Only zero starts with a zero. -/
theorem eq_zero_of_head?_values (n : Nat) (h : (values (Nat.toDigits 10 n)).head? = some 0) :
    n = 0 := by
  induction n using Nat.strong_induction_on with
  | _ n ih =>
    by_cases hn : n < 10
    · rw [Nat.toDigits_of_lt_base hn] at h
      have hd : n.digitChar.toNat - 48 = 0 := Option.some.inj h
      rwa [Nat.toNat_digitChar_sub_48_of_lt_ten hn] at hd
    · -- the first digit is that of the number without its last digit
      have hne : values (Nat.toDigits 10 (n / 10)) ≠ [] := by simp [values]
      obtain ⟨d, ds, hds⟩ := List.exists_cons_of_ne_nil hne
      have hlead := ih (n / 10) (by omega)
      unfold values at h hds hlead
      rw [Nat.toDigits_of_base_le (by decide) (by omega), List.map_append, hds] at h
      rw [hds] at hlead
      have := hlead h
      omega

end Parley.Text
