/-
Values inside TOML text. A value that holds no table is read back from its text, up to the line end,
comma or bracket behind it (`Plain.value`): strings in whatever form, booleans, naturals of a word,
and lists of these on one line or on several.
-/
import Parley.Toml.Parser
import Parley.Proofs.Text.Digit
import Parley.Proofs.Toml.Quoted
import Mathlib.Data.List.Basic
import Mathlib.Data.List.TakeWhile

namespace Parley.Toml

open Toml.Parser (skipLines items value)

/-- A value that is nested `depth` deep at most, that holds no table and whose numbers are naturals
that a word with a sign has room for. -/
inductive Plain : (depth : Nat) → Toml → Prop
  | str {depth : Nat} {s : String} : Plain depth (.str s)
  | bool {depth : Nat} {b : Bool} : Plain depth (.bool b)
  | int {depth : Nat} {n : Nat} : n < 2 ^ 63 → Plain depth (.int n)
  | arr {depth : Nat} {vs : List Toml} : (∀ v ∈ vs, Plain depth v) → Plain (depth + 1) (.arr vs)

/-- A text that does not go on with the value in front of it. -/
def Closed (rest : List Char) : Prop :=
  ∀ c ∈ rest.head?, c = '\n' ∨ c = ',' ∨ c = ']'

theorem closed_cons {c : Char} {rest : List Char} (h : c = '\n' ∨ c = ',' ∨ c = ']') :
    Closed (c :: rest) := by
  rintro d ⟨⟩
  exact h

theorem Closed.unquoted {rest : List Char} (h : Closed rest) : Unquoted rest := by
  intro c hc
  rcases h c hc with rfl | rfl | rfl <;> decide

/-! ## Booleans and numbers -/

namespace Scalar

theorem read_append {run : List Char} {v : Toml} (hrun : ∀ c ∈ run, isPart c = true)
    (hday : Date.day run = none) (hparse : parse? run = some v) {rest : List Char}
    (h : Closed rest) : read (run ++ rest) = some (v, rest) := by
  have hhead : ∀ c ∈ rest.head?, isPart c = false := by
    intro c hc
    rcases h c hc with rfl | rfl | rfl <;> decide
  have htake : (run ++ rest).takeWhile isPart = run := by
    rw [List.takeWhile_append_of_pos hrun, takeWhile_of_head hhead, List.append_nil]
  have hdrop : (run ++ rest).dropWhile isPart = rest := by
    rw [List.dropWhile_append_of_pos hrun, dropWhile_of_head hhead]
  unfold read
  dsimp only
  rw [htake, hdrop, hday, hparse]
  rfl

theorem read_bool (b : Bool) {rest : List Char} (h : Closed rest) :
    read ((toString b).toList ++ rest) = some (.bool b, rest) := by
  cases b <;> exact read_append (List.all_eq_true.1 rfl) rfl rfl h

/-! ### Digits -/

section Digits

variable {cs : List Char} (hcs : ∀ c ∈ cs, c.isDigit = true)

include hcs

/-- Digits alone are no day, since a day has a dash in it. -/
theorem day_of_digits : Date.day cs = none := by
  unfold Date.day
  split
  · exact absurd (hcs '-' (by simp)) (by decide)
  · rfl

/-- They are no time either, since a time has a colon in it. -/
theorem time_of_digits : Date.time cs = none := by
  have htwo {low high : Nat} {p : List Char × Nat} {r : List Char}
      (h : Date.twoDigits low high cs = some (p, r)) : ∀ c ∈ r, c.isDigit = true := by
    unfold Date.twoDigits at h
    split at h
    · split at h
      · split at h
        · cases h
          exact fun c hc => hcs c (by simp [hc])
        · cases h
      · cases h
    · cases h
  unfold Date.time
  split
  · rename_i heq
    exact absurd (htwo heq ':' List.mem_cons_self) (by decide)
  · rfl

theorem date_of_digits : Date.parse? cs = none := by
  unfold Date.parse?
  rw [day_of_digits hcs, time_of_digits hcs]
  rfl

theorem separated_of_digits (hne : cs ≠ []) : separated Char.isDigit cs = some cs := by
  induction cs with
  | nil => exact absurd rfl hne
  | cons c cs ih =>
    obtain ⟨hc, hcs⟩ := List.forall_mem_cons.1 hcs
    cases cs with
    | nil => rw [separated, if_pos hc]
    | cons d cs =>
      have hd : d ≠ '_' := by
        rintro rfl
        exact absurd (hcs '_' List.mem_cons_self) (by decide)
      rw [separated, if_pos hc, ih hcs (List.cons_ne_nil d cs)]
      · rfl
      · simp
      · simp [hd]

theorem group_of_digits (hne : cs ≠ []) : group cs = some (Text.values cs, []) := by
  have hpart : ∀ c ∈ cs, (c.isDigit || decide (c = '_')) = true := fun c hc => by simp [hcs c hc]
  have hvalues : cs.filterMap Text.digit? = Text.values cs := by
    rw [Text.values, ← List.filterMap_eq_map]
    exact List.filterMap_congr fun c hc => if_pos (hcs c hc)
  unfold group
  dsimp only
  rw [List.takeWhile_eq_self_iff.2 hpart, List.dropWhile_eq_nil_iff.2 hpart,
    separated_of_digits hcs hne, Option.map_some, hvalues]

/-- A run of digits is a number, unless it has a leading zero or no word has room for it. -/
theorem parse?_of_digits (hne : cs ≠ [])
    (hlead : (Text.values cs).head? = some 0 → (Text.values cs).length = 1)
    (hword : Text.ofDigits (Text.values cs) < 2 ^ 63) :
    parse? cs = some (.int (Text.ofDigits (Text.values cs))) := by
  have hfit : word? (Text.ofDigits (Text.values cs)) =
      some (.int (Text.ofDigits (Text.values cs))) := by
    unfold word?
    rw [if_pos]
    have hpow : Int.ofNat (Nat.pow 2 63) = 2 ^ 63 := rfl
    rw [hpow]
    omega
  have hdecimal : decimal cs = some (.int (Text.ofDigits (Text.values cs))) := by
    unfold decimal
    have hsign : unsigned cs = (false, cs) := by
      unfold unsigned
      split
      · exact absurd (hcs '-' List.mem_cons_self) (by decide)
      · exact absurd (hcs '+' List.mem_cons_self) (by decide)
      · rfl
    rw [hsign]
    dsimp only
    rw [group_of_digits hcs hne]
    dsimp only
    rw [if_neg fun h => h.2 (hlead h.1)]
    simp only [fraction, exponent, Option.isNone_none, Bool.and_self, if_true]
    exact hfit
  unfold parse?
  split
  · exact absurd (hcs 't' List.mem_cons_self) (by decide)
  · exact absurd (hcs 'f' List.mem_cons_self) (by decide)
  · exact absurd (hcs 'x' (by simp)) (by decide)
  · exact absurd (hcs 'o' (by simp)) (by decide)
  · exact absurd (hcs 'b' (by simp)) (by decide)
  · rw [date_of_digits hcs]
    dsimp only
    rw [hdecimal, Option.some_or]

end Digits

/-- A natural is read from its digits. -/
theorem read_nat {n : Nat} (hn : n < 2 ^ 63) {rest : List Char} (h : Closed rest) :
    read (Nat.toDigits 10 n ++ rest) = some (.int n, rest) := by
  have hdigits : ∀ c ∈ Nat.toDigits 10 n, c.isDigit = true :=
    fun c hc => Text.isDigit_of_mem_decimal hc
  have hpart : ∀ c ∈ Nat.toDigits 10 n, isPart c = true := by
    intro c hc
    simp [isPart, Char.isAlphanum, hdigits c hc]
  have hlead (h0 : (Text.values (Nat.toDigits 10 n)).head? = some 0) :
      (Text.values (Nat.toDigits 10 n)).length = 1 := by
    rw [Text.eq_zero_of_head?_values n h0]
    rfl
  have hparse := parse?_of_digits hdigits Nat.toDigits_ne_nil hlead
    (by rwa [Text.ofDigits_values])
  rw [Text.ofDigits_values] at hparse
  exact read_append hpart (day_of_digits hdigits) hparse h

end Scalar

/-! ## Values -/

theorem value_scalar (depth : Nat) {c : Char} (hc : Scalar.isPart c = true) (cs : List Char) :
    value depth (c :: cs) = Scalar.read (c :: cs) := by
  have hne : c ≠ '"' ∧ c ≠ '\'' ∧ c ≠ '[' ∧ c ≠ '{' := by
    refine ⟨?_, ?_, ?_, ?_⟩ <;>
    · rintro rfl
      exact absurd hc (by decide)
  obtain ⟨hdouble, hsingle, hbracket, hbrace⟩ := hne
  cases depth <;>
  · rw [value]
    all_goals simp [hdouble, hsingle, hbracket, hbrace]

theorem stringChars_cases (s : String) :
    ∃ cs, stringChars s = '"' :: cs ∨ stringChars s = '\'' :: cs := by
  unfold stringChars
  cases Style.of s.toList with
  | basic | basicLines => exact ⟨_, .inl rfl⟩
  | literal | literalLines => exact ⟨_, .inr rfl⟩

theorem valueChars_nat (n : Nat) : valueChars (.int n) = Nat.toDigits 10 n := by
  show (String.ofList (Nat.toDigits 10 n)).toList = _
  rw [String.toList_ofList]

/-- The characters that a value does not start with, those between two items of a list among
them. -/
theorem Plain.head {depth : Nat} {v : Toml} (h : Plain depth v) :
    ∃ c cs, valueChars v = c :: cs ∧ c ∉ [' ', '\t', '\n', '\r', '#', ']'] := by
  cases h with
  | @str _ s =>
    obtain ⟨cs, hs | hs⟩ := stringChars_cases s
    · exact ⟨'"', cs, hs, by decide⟩
    · exact ⟨'\'', cs, hs, by decide⟩
  | @bool _ b => cases b <;> exact ⟨_, _, rfl, by decide⟩
  | @int _ n =>
    obtain ⟨c, cs, hcs⟩ := List.exists_cons_of_ne_nil (Nat.toDigits_ne_nil (n := n) (b := 10))
    have hc : c.isDigit = true := Text.isDigit_of_mem_decimal (hcs ▸ List.mem_cons_self)
    have hnone : ∀ d ∈ [' ', '\t', '\n', '\r', '#', ']'], (!d.isDigit) = true :=
      List.all_eq_true.1 rfl
    refine ⟨c, cs, by rw [valueChars_nat, hcs], fun hmem => ?_⟩
    have hc' := hnone c hmem
    rw [hc] at hc'
    cases hc'
  | @arr _ vs =>
    obtain _ | ⟨v, _ | ⟨w, vs⟩⟩ := vs <;> exact ⟨_, _, rfl, by decide⟩

theorem value_str (depth : Nat) (s : String) {rest : List Char} (h : Unquoted rest) :
    value depth (stringChars s ++ rest) = some (.str s, rest) := by
  have hread := string_stringChars h s
  obtain ⟨cs, hs | hs⟩ := stringChars_cases s
  · rw [hs, List.cons_append] at hread ⊢
    rw [value, hread]
    rfl
  · rw [hs, List.cons_append] at hread ⊢
    rw [value, hread]
    rfl

/-! ### Lists -/

theorem itemsChars_eq (vs : List Toml) : itemsChars vs = vs.map valueChars := by
  induction vs with
  | nil => rfl
  | cons v vs ih => rw [itemsChars, ih, List.map_cons]

theorem skipLines_of_head {c : Char} (hc : c ∉ [' ', '\t', '\n', '\r', '#']) (cs : List Char) :
    skipLines false (c :: cs) = c :: cs := by
  simp only [List.mem_cons, List.not_mem_nil, or_false, not_or] at hc
  obtain ⟨hspace, htab, hline, hreturn, hnumber⟩ := hc
  rw [skipLines]
  all_goals simp [isSpace, hspace, htab, hline, hreturn, hnumber]

/-- An item of a list on a line of its own. -/
def itemLine (v : Toml) : List Char :=
  '\n' :: ' ' :: ' ' :: ' ' :: ' ' :: (valueChars v ++ [','])

theorem valueChars_arr (v w : Toml) (vs : List Toml) :
    valueChars (.arr (v :: w :: vs)) = '[' :: ((v :: w :: vs).flatMap itemLine ++ ['\n', ']']) := by
  rw [valueChars, itemsChars_eq, List.map_cons, List.map_cons, bracketed]
  · rw [← List.map_cons, ← List.map_cons, List.flatMap_map]
    rfl
  all_goals simp

theorem length_flatMap_itemLine (vs : List Toml) : vs.length ≤ (vs.flatMap itemLine).length := by
  induction vs with
  | nil => exact Nat.le_refl 0
  | cons v vs ih =>
    rw [List.flatMap_cons, List.length_append, itemLine]
    simp only [List.length_cons]
    omega

section Items

variable {depth : Nat} {vs : List Toml}

/-- An item is read behind any blanks and line ends. -/
theorem items_item {v : Toml} {cs : List Char} (h : Plain depth v)
    (hread : value depth (valueChars v ++ cs) = some (v, cs)) (fuel : Nat) {before : List Char}
    (hbefore : ∀ r, skipLines false (before ++ r) = skipLines false r) :
    items (value depth) (fuel + 1) (before ++ (valueChars v ++ cs)) =
      match skipLines false cs with
      | ',' :: r => (items (value depth) fuel r).map fun (vs, r) => (v :: vs, r)
      | ']' :: r => some ([v], r)
      | _ => none := by
  obtain ⟨c, r, hc, hhead⟩ := h.head
  have hskip : skipLines false (c :: (r ++ cs)) = c :: (r ++ cs) :=
    skipLines_of_head (fun hmem => hhead (by simp_all)) _
  have hne : c ≠ ']' := by
    rintro rfl
    exact hhead (by decide)
  rw [hc, List.cons_append] at hread ⊢
  rw [items, hbefore, hskip]
  split
  · rename_i heq
    exact absurd (List.cons.inj heq).1 hne
  · generalize value depth (c :: (r ++ cs)) = item at hread ⊢
    subst hread
    rfl

/-- Items on lines of their own are read up to the bracket behind them. -/
theorem items_lines (h : ∀ v ∈ vs, Plain depth v)
    (hread : ∀ v ∈ vs, ∀ rest, Closed rest → value depth (valueChars v ++ rest) = some (v, rest))
    {fuel : Nat} (hf : vs.length < fuel) (rest : List Char) :
    items (value depth) fuel (vs.flatMap itemLine ++ '\n' :: ']' :: rest) = some (vs, rest) := by
  induction vs generalizing fuel with
  | nil =>
    obtain ⟨fuel, rfl⟩ : ∃ n, fuel = n + 1 := ⟨fuel - 1, by omega⟩
    rfl
  | cons v vs ih =>
    obtain ⟨fuel, rfl⟩ : ∃ n, fuel = n + 1 := ⟨fuel - 1, by omega⟩
    obtain ⟨hv, hvs⟩ := List.forall_mem_cons.1 h
    obtain ⟨hreadv, hreadvs⟩ := List.forall_mem_cons.1 hread
    have hmore := ih hvs hreadvs (Nat.lt_of_succ_lt_succ hf)
    have hcomma := hreadv (',' :: (vs.flatMap itemLine ++ '\n' :: ']' :: rest))
      (closed_cons (.inr (.inl rfl)))
    have hindent (r : List Char) :
        skipLines false (['\n', ' ', ' ', ' ', ' '] ++ r) = skipLines false r := rfl
    have hitem := items_item hv hcomma fuel hindent
    have hsplit : (v :: vs).flatMap itemLine ++ '\n' :: ']' :: rest =
        ['\n', ' ', ' ', ' ', ' '] ++
          (valueChars v ++ ',' :: (vs.flatMap itemLine ++ '\n' :: ']' :: rest)) := by
      simp [itemLine]
    rw [hsplit, hitem, skipLines_of_head (by decide)]
    show Option.map _ (items (value depth) fuel _) = _
    rw [hmore]
    rfl

theorem value_arr (h : ∀ v ∈ vs, Plain depth v)
    (hread : ∀ v ∈ vs, ∀ rest, Closed rest → value depth (valueChars v ++ rest) = some (v, rest))
    (rest : List Char) :
    value (depth + 1) (valueChars (.arr vs) ++ rest) = some (.arr vs, rest) := by
  match vs with
  | [] => rfl
  | [v] =>
    have hone := hread v List.mem_cons_self (']' :: rest) (closed_cons (.inr (.inr rfl)))
    have hitem := items_item (h v List.mem_cons_self) hone (valueChars v ++ ']' :: rest).length
      fun r => congrArg (skipLines false) (List.nil_append r)
    have hwrite : valueChars (.arr [v]) ++ rest = '[' :: (valueChars v ++ ']' :: rest) := by
      simp [valueChars, itemsChars, bracketed]
    rw [List.nil_append, skipLines_of_head (by decide)] at hitem
    rw [hwrite, Parser.value, hitem]
    rfl
  | v :: w :: vs =>
    have hwrite : valueChars (.arr (v :: w :: vs)) ++ rest =
        '[' :: ((v :: w :: vs).flatMap itemLine ++ '\n' :: ']' :: rest) := by
      simp [valueChars_arr]
    rw [hwrite, Parser.value, items_lines h hread _ rest]
    · rfl
    · have := length_flatMap_itemLine (v :: w :: vs)
      simp only [List.length_append]
      omega

end Items

/-- A plain value is read from its text. -/
theorem Plain.value {depth : Nat} {v : Toml} (h : Plain depth v) {rest : List Char}
    (hrest : Closed rest) : value depth (valueChars v ++ rest) = some (v, rest) := by
  induction h generalizing rest with
  | str => exact value_str _ _ hrest.unquoted
  | @bool depth b =>
    have hread := Scalar.read_bool b hrest
    cases b <;>
    · refine Eq.trans ?_ hread
      exact value_scalar _ (by decide) _
  | @int depth n hn =>
    obtain ⟨c, cs, hcs⟩ := List.exists_cons_of_ne_nil (Nat.toDigits_ne_nil (n := n) (b := 10))
    have hc : c.isDigit = true := Text.isDigit_of_mem_decimal (hcs ▸ List.mem_cons_self)
    have hread := Scalar.read_nat hn hrest
    rw [valueChars_nat]
    rw [hcs, List.cons_append] at hread ⊢
    rw [value_scalar _ (by simp [Scalar.isPart, Char.isAlphanum, hc]), hread]
  | arr h ih => exact value_arr h (fun v hv rest hrest => ih v hv hrest) rest

end Parley.Toml
