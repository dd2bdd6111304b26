/-
The limit on how deep expressions are passed to functions. It can only make an evaluation fail: a
value that is found within some depth is found within every greater one
(`evalWithin_eq_some_of_le`), so no path finds one value under the library's limit and another one
without it.
-/
import Parley.OutputPath.Eval

namespace Parley.OutputPath

open Builtin (Apply)

/-! ## Results that may fail -/

/-- A result is another one, or it fails. -/
def Below {α : Type} (a b : Option α) : Prop := a = none ∨ a = b

namespace Below

variable {α β : Type} {a b : Option α}

theorem bind {f g : α → Option β} (h : Below a b) (hf : ∀ x, Below (f x) (g x)) :
    Below (a.bind f) (b.bind g) := by
  rcases h with rfl | rfl
  · exact .inl rfl
  · cases a with
    | none => exact .inl rfl
    | some x => exact hf x

theorem map (h : Below a b) (f : α → β) : Below (a.map f) (b.map f) := by
  rcases h with rfl | rfl
  · exact .inl rfl
  · exact .inr rfl

theorem eq_some (h : Below a b) {x : α} (hx : a = some x) : b = some x := by
  rcases h with rfl | rfl
  · cases hx
  · exact hx

end Below

/-! ## Lists of values -/

theorem mapM_below {α β : Type} {f g : α → Option β} (h : ∀ a, Below (f a) (g a)) (as : List α) :
    Below (as.mapM f) (as.mapM g) := by
  induction as with
  | nil => exact .inr rfl
  | cons a as ih =>
    rw [List.mapM_cons, List.mapM_cons]
    exact (h a).bind fun b => ih.bind fun bs => .inr rfl

theorem projectItems_below {f g : Value → Option Value} (h : ∀ v, Below (f v) (g v))
    (vs : List Value) : Below (projectItems f vs) (projectItems g vs) := by
  induction vs with
  | nil => exact .inr rfl
  | cons v vs ih =>
    unfold projectItems
    rcases h v with hv | hv <;> rcases ih with hvs | hvs <;> rw [hv, hvs]
    · exact .inl rfl
    · exact .inl rfl
    · cases g v <;> exact .inl rfl
    · exact .inr rfl

/-! ## Functions -/

section Functions

variable {f g : Apply} (h : ∀ e v, Below (f e v) (g e v))
include h

theorem keyed_below (e : Expr) (vs : List Value) :
    Below (Builtin.keyed f e vs) (Builtin.keyed g e vs) := by
  unfold Builtin.keyed
  rcases mapM_below (fun v => (h e v).map (v, ·)) vs with hvs | hvs
  · rw [hvs]
    exact .inl rfl
  · rw [hvs]
    exact .inr rfl

theorem ofKeyed_below (k : List (Value × Value) → Value) (vs : List Value) :
    Below (Builtin.ofKeyed k f vs) (Builtin.ofKeyed k g vs) := by
  unfold Builtin.ofKeyed
  split
  · exact (keyed_below h _ _).map k
  · exact .inr rfl

theorem map_below (vs : List Value) : Below (Builtin.map f vs) (Builtin.map g vs) := by
  unfold Builtin.map
  split
  · exact (mapM_below (h _) _).map _
  · exact .inr rfl

/-- Four functions apply an expression; the others only look at values. -/
theorem call_below (name : String) (vs : List Value) :
    Below (call f name vs) (call g name vs) := by
  unfold call
  split
  all_goals
    first
    | exact map_below h vs
    | exact ofKeyed_below h _ vs
    | exact .inr rfl

end Functions

/-! ## Expressions -/

section Expressions

variable {f g : Apply}

mutual

theorem eval_below (h : ∀ e v, Below (f e v) (g e v)) (e : Expr) (v : Value) :
    Below (e.eval f v) (e.eval g v) := by
  cases e with
  | current | field | literal | index | slice | reference => exact .inr rfl
  | not e =>
    rw [Expr.eval, Expr.eval]
    exact (eval_below h e v).map _
  | memberValues e | flatten e =>
    rw [Expr.eval, Expr.eval]
    rcases eval_below h e v with he | he <;> rw [he]
    · exact .inl rfl
    · exact .inr rfl
  | chain a b =>
    rw [Expr.eval, Expr.eval]
    rcases eval_below h a v with ha | ha <;> rw [ha]
    · exact .inl rfl
    · cases a.eval g v with
      | none => exact .inl rfl
      | some w => exact eval_below h b w
  | or a b | and a b | guarded a b =>
    rw [Expr.eval, Expr.eval]
    rcases eval_below h a v with ha | ha <;> rw [ha]
    · exact .inl rfl
    · cases a.eval g v with
      | none => exact .inl rfl
      | some w =>
        dsimp only
        split
        all_goals first | exact eval_below h b v | exact .inr rfl
  | compare op a b =>
    rw [Expr.eval, Expr.eval]
    rcases eval_below h a v with ha | ha <;> rcases eval_below h b v with hb | hb <;> rw [ha, hb]
    · exact .inl rfl
    · exact .inl rfl
    · cases a.eval g v <;> exact .inl rfl
    · exact .inr rfl
  | project source each =>
    rw [Expr.eval, Expr.eval]
    rcases eval_below h source v with hs | hs <;> rw [hs]
    · exact .inl rfl
    · split
      · exact (projectItems_below (eval_below h each) _).map _
      · exact .inr rfl
      · exact .inr rfl
  | list items =>
    rw [Expr.eval, Expr.eval]
    split
    · exact .inr rfl
    · exact (evalList_below h items v).map _
  | object members =>
    rw [Expr.eval, Expr.eval]
    split
    · exact .inr rfl
    · exact (evalMembers_below h members v).map _
  | apply name arguments =>
    rw [Expr.eval, Expr.eval]
    rcases evalList_below h arguments v with ha | ha <;> rw [ha]
    · exact .inl rfl
    · split
      · exact call_below h name _
      · exact .inl rfl

theorem evalList_below (h : ∀ e v, Below (f e v) (g e v)) (es : List Expr) (v : Value) :
    Below (evalList f es v) (evalList g es v) := by
  cases es with
  | nil => exact .inr (by rw [evalList, evalList])
  | cons e es =>
    rw [evalList, evalList]
    rcases eval_below h e v with he | he <;> rcases evalList_below h es v with hes | hes <;>
      rw [he, hes]
    · exact .inl rfl
    · exact .inl rfl
    · cases e.eval g v <;> exact .inl rfl
    · exact .inr rfl

theorem evalMembers_below (h : ∀ e v, Below (f e v) (g e v)) (es : List (String × Expr))
    (v : Value) : Below (evalMembers f es v) (evalMembers g es v) := by
  cases es with
  | nil => exact .inr (by rw [evalMembers, evalMembers])
  | cons m es =>
    obtain ⟨k, e⟩ := m
    rw [evalMembers, evalMembers]
    rcases eval_below h e v with he | he <;> rcases evalMembers_below h es v with hes | hes <;>
      rw [he, hes]
    · exact .inl rfl
    · exact .inl rfl
    · cases e.eval g v <;> exact .inl rfl
    · exact .inr rfl

end

end Expressions

/-! ## Depths -/

theorem evalWithin_below (depth : Nat) (e : Expr) (v : Value) :
    Below (evalWithin depth e v) (evalWithin (depth + 1) e v) := by
  induction depth generalizing e v with
  | zero => exact .inl rfl
  | succ depth ih => exact eval_below ih e v

/-- What is found within a depth is found within every greater one. -/
theorem evalWithin_eq_some_of_le {depth deeper : Nat} {e : Expr} {v w : Value}
    (hle : depth ≤ deeper) (h : evalWithin depth e v = some w) :
    evalWithin deeper e v = some w := by
  induction hle with
  | refl => exact h
  | step _ ih => exact (evalWithin_below _ e v).eq_some ih

end Parley.OutputPath
