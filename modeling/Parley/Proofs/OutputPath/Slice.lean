/-
The arithmetic of indices and slices stays within words of 32 bits. The integers of a compiled path
and the length of a list are 2³⁰ at most. A slice starts on the list or at one end of it, and leaves
it only with the step that ends its loop, so no position is further off than 2³⁰ - 1 and one step
(`Slice.Walk`). That bound is met: one more in either would be the first number that is no word.
-/
import Parley.Proofs.OutputPath.Integer

namespace Parley.OutputPath

/-! ## Words -/

/-- Whether a word of 32 bits with a sign holds the number. -/
def InWord (i : Int) : Prop := -2147483648 ≤ i ∧ i ≤ 2147483647

instance (i : Int) : Decidable (InWord i) := inferInstanceAs (Decidable (_ ∧ _))

theorem inWord_of_natAbs {i : Int} (h : i.natAbs ≤ 1073741824) : InWord i := by
  unfold InWord
  omega

/-! ## The indices and slices of an expression -/

mutual

/-- All parts of an expression that are an index or a slice. -/
def Expr.cuts : Expr → List Expr
  | .current | .field _ | .literal _ => []
  | .index i => [.index i]
  | .slice start stop step => [.slice start stop step]
  | .chain a b | .or a b | .and a b | .compare _ a b | .project a b | .guarded a b =>
    a.cuts ++ b.cuts
  | .not e | .memberValues e | .flatten e | .reference _ e => e.cuts
  | .list items => cutsOfList items
  | .object members => cutsOfMembers members
  | .apply _ arguments => cutsOfList arguments

def Expr.cutsOfList : List Expr → List Expr
  | [] => []
  | e :: es => e.cuts ++ cutsOfList es

def Expr.cutsOfMembers : List (String × Expr) → List Expr
  | [] => []
  | (_, e) :: es => e.cuts ++ cutsOfMembers es

end

mutual

/-- An expression has no integers but those of its indices and slices. -/
theorem Expr.integers_eq_cuts : (e : Expr) → e.integers = e.cuts.flatMap Expr.integers
  | .current | .field _ | .literal _ => rfl
  | .index _ | .slice _ _ _ => by simp [Expr.cuts]
  | .chain a b | .or a b | .and a b | .compare _ a b | .project a b | .guarded a b => by
    simp only [Expr.integers, Expr.cuts, List.flatMap_append, ← a.integers_eq_cuts,
      ← b.integers_eq_cuts]
  | .not e | .memberValues e | .flatten e | .reference _ e => e.integers_eq_cuts
  | .list items => integersOfList_eq_cuts items
  | .object members => integersOfMembers_eq_cuts members
  | .apply _ arguments => integersOfList_eq_cuts arguments

theorem Expr.integersOfList_eq_cuts :
    (es : List Expr) → integersOfList es = (cutsOfList es).flatMap Expr.integers
  | [] => rfl
  | e :: es => by
    simp only [Expr.integersOfList, Expr.cutsOfList, List.flatMap_append, ← e.integers_eq_cuts,
      ← integersOfList_eq_cuts es]

theorem Expr.integersOfMembers_eq_cuts :
    (ms : List (String × Expr)) → integersOfMembers ms = (cutsOfMembers ms).flatMap Expr.integers
  | [] => rfl
  | (_, e) :: ms => by
    simp only [Expr.integersOfMembers, Expr.cutsOfMembers, List.flatMap_append,
      ← e.integers_eq_cuts, ← integersOfMembers_eq_cuts ms]

end

theorem Within.cut {p : Int → Prop} {e c : Expr} (h : Within p e) (hc : c ∈ e.cuts) :
    Within p c := by
  intro i hi
  refine h i ?_
  rw [e.integers_eq_cuts]
  exact List.mem_flatMap.2 ⟨c, hc, hi⟩

/-! ## The loop of a slice -/

namespace Slice

/-- Whether the loop goes on at a position. -/
def Before (stop step i : Int) : Prop := if 0 < step then i < stop else stop < i

/-- The loop that starts at `i` takes the positions `is` in turn, each a step behind the one
before, and ends at `j`. -/
inductive Walk (stop step : Int) : Int → List Int → Int → Prop where
  | done {i : Int} (h : ¬Before stop step i) : Walk stop step i [] i
  | take {i j : Int} {is : List Int} (h : Before stop step i) (w : Walk stop step (i + step) is j) :
    Walk stop step i (i :: is) j

/-- How far the loop can still go. -/
def ahead (stop step i : Int) : Nat := (if 0 < step then stop - i else i - stop).toNat

section Walk

variable {stop step i j : Int} {is : List Int}

theorem ahead_lt (hs : step ≠ 0) (h : Before stop step i) :
    ahead stop step (i + step) < ahead stop step i := by
  unfold ahead
  unfold Before at h
  split at h <;> omega

/-- With any step but zero the loop ends, after no more steps than it has places ahead. -/
theorem exists_walk (stop : Int) (hs : step ≠ 0) (i : Int) :
    ∃ is j, Walk stop step i is j ∧ is.length ≤ ahead stop step i := by
  induction hn : ahead stop step i using Nat.strongRecOn generalizing i with
  | ind n ih =>
    subst hn
    by_cases h : Before stop step i
    · have hlt := ahead_lt hs h
      obtain ⟨is, j, hw, hle⟩ := ih _ hlt (i + step) rfl
      exact ⟨i :: is, j, .take h hw, Nat.succ_le_of_lt (Nat.lt_of_le_of_lt hle hlt)⟩
    · exact ⟨[], i, .done h, Nat.zero_le _⟩

/-- What holds at the start and is kept by each step holds at every position taken. -/
theorem Walk.keeps {P : Int → Prop} (w : Walk stop step i is j) (hi : P i)
    (hs : ∀ k, P k → Before stop step k → P (k + step)) :
    ∀ k ∈ is, P k ∧ Before stop step k := by
  induction w with
  | done => exact List.forall_mem_nil _
  | take h _ ih =>
    intro k hk
    rcases List.mem_cons.1 hk with rfl | hk
    · exact ⟨hi, h⟩
    · exact ih (hs _ hi h) k hk

/-- Fuel for every position taken is enough. -/
theorem Walk.positions {n : Nat} (w : Walk stop step i is j) (h : is.length ≤ n) :
    positions stop step n i = is := by
  induction w generalizing n with
  | done hb =>
    cases n with
    | zero => rfl
    | succ n => exact if_neg hb
  | take hb _ ih =>
    obtain ⟨n, rfl⟩ := Nat.exists_eq_succ_of_ne_zero (Nat.ne_of_gt (Nat.zero_lt_of_lt h))
    rw [Slice.positions, ih (Nat.le_of_succ_le_succ h)]
    exact if_pos hb

end Walk

/-! ## The ends of a slice -/

section Ends

variable {length : Int} (backward : Bool)

/-- The least position that a slice may start or end at: backwards, the place before the list. -/
def lowest (backward : Bool) : Int := if backward then -1 else 0

theorem lowest_forward : lowest false = 0 := rfl

theorem lowest_backward : lowest true = -1 := rfl

theorem clamp_range (h : 0 ≤ length) (bound : Int) :
    lowest backward ≤ clamp length bound backward ∧
      clamp length bound backward ≤ lowest backward + length := by
  cases backward <;> simp only [clamp, lowest] <;> grind

theorem first_range (h : 0 ≤ length) (start : Option Int) :
    lowest backward ≤ first length start backward ∧
      first length start backward ≤ lowest backward + length := by
  cases start with
  | some bound => exact clamp_range backward h bound
  | none => cases backward <;> simp only [first, lowest] <;> grind

theorem last_range (h : 0 ≤ length) (stop : Option Int) :
    lowest backward ≤ last length stop backward ∧
      last length stop backward ≤ lowest backward + length := by
  cases stop with
  | some bound => exact clamp_range backward h bound
  | none => cases backward <;> simp only [last, lowest] <;> grind

end Ends

section Loop

variable {length step j : Int} {start stop : Option Int} {is : List Int}

/-- The loop of a slice of a list: the positions that it takes, and where it ends. -/
def Loop (length : Int) (start stop : Option Int) (step : Int) (is : List Int) (j : Int) : Prop :=
  Walk (last length stop (decide (step < 0))) step (first length start (decide (step < 0))) is j

/-- The loop ends: from the first position to the last there is no more than the list. -/
theorem exists_loop (start stop : Option Int) (hl : 0 ≤ length) (hs : step ≠ 0) :
    ∃ is j, Loop length start stop step is j ∧ is.length ≤ length := by
  have hfirst := first_range (decide (step < 0)) hl start
  have hlast := last_range (decide (step < 0)) hl stop
  obtain ⟨is, j, hw, hle⟩ := exists_walk (last length stop (decide (step < 0))) hs
    (first length start (decide (step < 0)))
  refine ⟨is, j, hw, ?_⟩
  unfold ahead at hle
  split at hle <;> omega

/-- The loop takes positions of the list only: it starts no earlier than the list does, seen in its
direction, and moves that way until the end that it was given. -/
theorem Loop.inside (w : Loop length start stop step is j) (hl : 0 ≤ length) (hs : step ≠ 0) :
    ∀ k ∈ is, 0 ≤ k ∧ k < length := by
  have hfirst := first_range (decide (step < 0)) hl start
  have hlast := last_range (decide (step < 0)) hl stop
  unfold Loop at w
  by_cases hpos : 0 < step
  · have hback : decide (step < 0) = false := decide_eq_false (by omega)
    rw [hback] at w hfirst hlast
    simp only [lowest_forward] at hfirst hlast
    intro k hk
    obtain ⟨hk, hbefore⟩ := w.keeps (P := fun k => 0 ≤ k) hfirst.1 (by intros; omega) k hk
    simp only [Before, if_pos hpos] at hbefore
    omega
  · have hback : decide (step < 0) = true := decide_eq_true (by omega)
    rw [hback] at w hfirst hlast
    simp only [lowest_backward] at hfirst hlast
    intro k hk
    obtain ⟨hk, hbefore⟩ := w.keeps (P := fun k => k < length) (by omega) (by intros; omega) k hk
    simp only [Before, if_neg hpos] at hbefore
    omega

end Loop

end Slice

theorem map_some_filterMap {α β : Type} {f : α → Option β} {xs : List α}
    (h : ∀ x ∈ xs, (f x).isSome) : (xs.filterMap f).map some = xs.map f := by
  induction xs with
  | nil => rfl
  | cons x xs ih =>
    obtain ⟨y, hy⟩ := Option.isSome_iff_exists.1 (h x List.mem_cons_self)
    rw [List.filterMap_cons_some hy, List.map_cons, List.map_cons, hy,
      ih fun z hz => h z (List.mem_cons_of_mem x hz)]

theorem slice_eq_of_loop {α : Type} {xs : List α} {start stop : Option Int} {step j : Int}
    {is : List Int} (w : Slice.Loop xs.length start stop step is j) (h : is.length ≤ xs.length) :
    slice xs start stop step = is.filterMap fun i => xs[i.toNat]? := by
  simp only [slice, Slice.Walk.positions w h]

/-! ## What is computed -/

/-- Where an index or a bound lies in a list of the given length: what is below zero is counted from
the end. -/
def place (length i : Int) : Int := if i < 0 then i + length else i

theorem inWord_place {length i : Int} (hl : 0 ≤ length) (hn : length ≤ 1073741824)
    (hi : i.natAbs ≤ 1073741824) : InWord (place length i) := by
  unfold place InWord
  split <;> omega

theorem itemAt?_eq_place {α : Type} (xs : List α) (i : Int) :
    itemAt? xs i = if 0 ≤ place xs.length i then xs[(place xs.length i).toNat]? else none := by
  unfold itemAt?
  by_cases hi : 0 ≤ i
  · have hplace : place xs.length i = i := if_neg (by omega)
    rw [if_pos hi, hplace, if_pos hi]
  · have hplace : place xs.length i = i + xs.length := if_pos (by omega)
    rw [if_neg hi, hplace]
    by_cases hle : i.natAbs ≤ xs.length
    · have hnat : (i + xs.length).toNat = xs.length - i.natAbs := by omega
      rw [if_pos hle, if_pos (by omega), hnat]
    · rw [if_neg hle, if_neg (by omega)]

/-- The arithmetic of an index at a list is that of words. -/
structure IndexFits (vs : List Value) (i : Int) : Prop where
  length : InWord vs.length
  given : InWord i
  negated : InWord (-i)
  counted : InWord (place vs.length i)
  /-- The value is the item at that place; there is none outside the list. -/
  inside (apply : Builtin.Apply) (h : 0 ≤ place vs.length i)
    (h' : (place vs.length i).toNat < vs.length) :
    (Expr.index i).eval apply (.list vs) = some vs[(place vs.length i).toNat]
  outside (apply : Builtin.Apply) (h : place vs.length i < 0 ∨ vs.length ≤ place vs.length i) :
    (Expr.index i).eval apply (.list vs) = some .null

/-- The arithmetic of a slice of a list is that of words. -/
structure SliceFits (vs : List Value) (start stop : Option Int) (step : Int) : Prop where
  length : InWord vs.length
  given (b : Int) (h : b ∈ start ∨ b ∈ stop) : InWord b
  counted (b : Int) (h : b ∈ start ∨ b ∈ stop) : InWord (place vs.length b)
  stride : InWord step
  first : InWord (Slice.first vs.length start (decide (step < 0)))
  last : InWord (Slice.last vs.length stop (decide (step < 0)))
  /-- There is no loop without a step. -/
  still (apply : Builtin.Apply) (h : step = 0) :
    (Expr.slice start stop step).eval apply (.list vs) = none
  /-- The loop ends; it takes positions of the list only, and what it counts on to from each, the
  last one included, is a word. The slice is the items at those positions. -/
  loop (h : step ≠ 0) : ∃ is j, Slice.Loop vs.length start stop step is j ∧
    is.length ≤ vs.length ∧
    (∀ i ∈ is, (0 ≤ i ∧ i < vs.length) ∧ InWord (i + step)) ∧
    ∀ apply, ∃ ws, (Expr.slice start stop step).eval apply (.list vs) = some (.list ws) ∧
      ws.map some = is.map fun i => vs[i.toNat]?

section Fits

variable {vs : List Value}

theorem indexFits {i : Int} (hn : vs.length ≤ 1073741824) (hi : i.natAbs ≤ 1073741824) :
    IndexFits vs i := by
  constructor
  case length => unfold InWord; omega
  case given => exact inWord_of_natAbs hi
  case negated => exact inWord_of_natAbs (by omega)
  case counted => exact inWord_place (by omega) (by omega) hi
  case inside =>
    intro apply h h'
    change some ((itemAt? vs i).getD .null) = _
    rw [itemAt?_eq_place, if_pos h, List.getElem?_eq_getElem h', Option.getD_some]
  case outside =>
    intro apply h
    change some ((itemAt? vs i).getD .null) = _
    rw [itemAt?_eq_place]
    split
    · rw [List.getElem?_eq_none (by omega), Option.getD_none]
    · rfl

theorem sliceFits {start stop : Option Int} {step : Int} (hn : vs.length ≤ 1073741824)
    (hb : ∀ b, b ∈ start ∨ b ∈ stop → b.natAbs ≤ 1073741824) (hs : step.natAbs ≤ 1073741824) :
    SliceFits vs start stop step := by
  have hl : (0 : Int) ≤ vs.length := Int.natCast_nonneg _
  have hfirst := Slice.first_range (decide (step < 0)) hl start
  have hlast := Slice.last_range (decide (step < 0)) hl stop
  have hlowest : -1 ≤ Slice.lowest (decide (step < 0)) ∧ Slice.lowest (decide (step < 0)) ≤ 0 := by
    unfold Slice.lowest
    split <;> omega
  constructor
  case length => unfold InWord; omega
  case given => exact fun b h => inWord_of_natAbs (hb b h)
  case counted => exact fun b h => inWord_place hl (by omega) (hb b h)
  case stride => exact inWord_of_natAbs hs
  case first => unfold InWord; omega
  case last => unfold InWord; omega
  case still =>
    intro apply h
    exact if_pos h
  case loop =>
    intro h
    obtain ⟨is, j, hw, hle⟩ := Slice.exists_loop start stop hl h
    have hlen : is.length ≤ vs.length := Int.ofNat_le.1 hle
    have hin := hw.inside hl h
    refine ⟨is, j, hw, hlen, fun i hi => ⟨hin i hi, ?_⟩, fun apply => ⟨_, if_neg h, ?_⟩⟩
    · have := hin i hi
      unfold InWord
      omega
    · rw [slice_eq_of_loop hw hlen]
      refine map_some_filterMap fun i hi => ?_
      have := hin i hi
      rw [List.getElem?_eq_getElem (by omega), Option.isSome_some]

end Fits

/-- At a list of up to 2³⁰ items every index and slice of a compiled path is computed in words. -/
theorem cuts_fit {s : String} {p : OutputPath} {vs : List Value} (h : compile s = .ok p)
    (hn : vs.length ≤ 1073741824) :
    (∀ i, .index i ∈ p.expr.cuts → IndexFits vs i) ∧
      ∀ start stop step, .slice start stop step ∈ p.expr.cuts → SliceFits vs start stop step := by
  have hp := within_of_compile h
  constructor
  · intro i hi
    exact indexFits hn (hp.cut hi i List.mem_cons_self)
  · intro start stop step hc
    have hall : ∀ b ∈ start.toList ++ stop.toList ++ [step], b.natAbs ≤ integerMax := hp.cut hc
    exact sliceFits hn (fun b hb => hall b (by simpa [or_assoc] using Or.inl hb)) (hall step (by simp))

/-- The furthest that a slice can get: from the last of 2³⁰ items by a step of 2³⁰. -/
example : InWord (1073741823 + 1073741824) ∧ ¬InWord (1073741823 + 1073741825) := by decide

theorem slice_of_far_step_fits :
    ∃ p vs, compile "[1::1073741824]" = .ok p ∧ vs.length ≤ 1073741824 ∧
      Expr.slice (some 1) none 1073741824 ∈ p.expr.cuts ∧
      SliceFits vs (some 1) none 1073741824 := by
  let tokens : List Token :=
    [.openBracket, .number 1, .colon, .colon, .number 1073741824, .closeBracket]
  have h : compile "[1::1073741824]" =
      .ok ⟨"[1::1073741824]", .project (.slice (some 1) none 1073741824) .current⟩ :=
    compile_eq_ok_iff.2 ⟨by decide, tokens, _, rfl, by cbv, rfl⟩
  have hn : [Value.null, .null, .null].length ≤ 1073741824 := by decide
  exact ⟨_, _, h, hn, List.mem_cons_self, (cuts_fit h hn).2 _ _ _ List.mem_cons_self⟩

end Parley.OutputPath
