/-
Records with their members under other names. A reader asks of a name only which field it belongs
to. So it does not matter which of its names a field goes by, nor how the value of a member is
spelled as long as its own reader does not tell (`Fields.Alike`).
-/
import Parley.Proofs.Json.Record

namespace Parley.Json

/-! ## Names -/

/-- The name that a name stands for. -/
def properName (aliases : List (String × String)) (k : String) : String :=
  (aliases.lookup k).getD k

/-- A record with the proper names of its members; the values stay as they are. -/
def properNames (aliases : List (String × String)) : Json → Json
  | .obj ms => .obj (ms.map fun m => (properName aliases m.1, m.2))
  | v => v

/-- A record that is an object with some of the given members, in that order and each once. -/
def HasNames (names : List String) (v : Json) : Prop :=
  ∃ ms, v = .obj ms ∧ (ms.map Prod.fst).Sublist names

theorem hasNames_compact (ms : List (String × Option Json)) :
    HasNames (ms.map Prod.fst) (.obj (Members.compact ms)) :=
  ⟨_, rfl, Members.names_compact_sublist ms⟩

theorem contains_properName {aliases : List (String × String)} {names : List String}
    (h : ∀ e ∈ aliases, names.contains e.2 = names.contains e.1) (k : String) :
    names.contains (properName aliases k) = names.contains k := by
  unfold properName
  cases hl : aliases.lookup k with
  | none => rfl
  | some l =>
    obtain ⟨before, after, rfl, -⟩ := List.lookup_eq_some_iff.1 hl
    exact h (k, l) (by simp)

/-! ## Readers -/

namespace Fields

variable {α β : Type} {r r' : Record}

/-- Two records that some fields are read from in the same way, faults included. -/
def Alike (fs : Fields α) (r r' : Record) : Prop :=
  ∀ first, fs.read r first = fs.read r' first

theorem alike_pure (a : α) : (pure a : Fields α).Alike r r' := fun _ => rfl

theorem Alike.seq {f : Fields (α → β)} {x : Fields α} (hf : f.Alike r r') (hx : x.Alike r r') :
    (f <*> x).Alike r r' := by
  intro first
  show join (f.read r first) (x.read r (first + f.width)) =
    join (f.read r' first) (x.read r' (first + f.width))
  rw [hf, hx]

theorem Alike.map {x : Fields α} (g : α → β) (hx : x.Alike r r') : (g <$> x).Alike r r' :=
  (alike_pure g).seq hx

theorem Alike.decode {fs : Fields α} {ms ns : Members} (h : fs.Alike (.named ms) (.named ns)) :
    fs.decode (.obj ms) = fs.decode (.obj ns) :=
  congrArg unlocated (h 0)

/-- A field has its members at the same places in two records whose members go by its names alike,
and with values that its reader does not tell apart if theirs are so. -/
theorem forall₂_occurrences {names : List String} {d : Decode α} {ms ns : Members}
    (h : List.Forall₂ (fun m n => names.contains m.1 = names.contains n.1 ∧
      (names.contains m.1 = true → d m.2 = d n.2)) ms ns) :
    List.Forall₂ (fun x y => x.1 = y.1 ∧ d x.2 = d y.2) (occurrences names ms)
      (occurrences names ns) := by
  unfold occurrences
  generalize 0 = place
  induction h generalizing place with
  | nil => exact .nil
  | @cons m n ms ns hmn _ ih =>
    obtain ⟨hname, hvalue⟩ := hmn
    rw [List.zipIdx_cons, List.zipIdx_cons, List.filter_cons, List.filter_cons, ← hname]
    split
    · rename_i hm
      exact .cons ⟨rfl, hvalue hm⟩ (ih (place + 1))
    · exact ih (place + 1)

/-- A field is read alike from two records that differ, member by member, in nothing that its names
and its reader tell. -/
theorem alike_of_forall₂ {names : List String} {d : Decode α} {inObject inList : Option α}
    {ms ns : Members} (h : List.Forall₂ (fun m n => names.contains m.1 = names.contains n.1 ∧
      (names.contains m.1 = true → d m.2 = d n.2)) ms ns) :
    (field names d inObject inList).Alike (.named ms) (.named ns) := by
  intro first
  have hoccur := forall₂_occurrences h
  simp only [field, h.length_eq]
  generalize occurrences names ms = here at hoccur ⊢
  generalize occurrences names ns = there at hoccur ⊢
  rcases hoccur with _ | ⟨⟨hx, hdx⟩, _ | ⟨⟨hy, -⟩, -⟩⟩
  · rfl
  · simp only [hx, hdx]
  · simp only [hx, hdx, hy]

/-- A field is read as before when its members keep to its names and to values that its reader does
not tell from theirs. -/
theorem alike_field {names : List String} {d : Decode α} {inObject inList : Option α}
    {f : String × Json → String × Json} {ms : Members}
    (hname : ∀ m, names.contains (f m).1 = names.contains m.1)
    (hvalue : ∀ m, names.contains m.1 = true → d (f m).2 = d m.2) :
    (field names d inObject inList).Alike (.named (ms.map f)) (.named ms) :=
  alike_of_forall₂ <| List.forall₂_map_left_iff.2 <| List.forall₂_same.2 fun m _ =>
    ⟨hname m, fun hm => hvalue m ((hname m).symm.trans hm)⟩

/-- A field is read alike from two records that differ in the value of one member, if the member is
not the field's or the reader of the field does not tell the values apart. -/
theorem alike_member {names : List String} {d : Decode α} {inObject inList : Option α}
    {lead trail : Members} {k : String} {u v : Json} (h : names.contains k = true → d u = d v) :
    (field names d inObject inList).Alike (.named (lead ++ (k, u) :: trail))
      (.named (lead ++ (k, v) :: trail)) := by
  have hsame (ms : Members) : List.Forall₂ (fun m n : String × Json =>
      names.contains m.1 = names.contains n.1 ∧ (names.contains m.1 = true → d m.2 = d n.2)) ms ms :=
    List.forall₂_same.2 fun m _ => ⟨rfl, fun _ => rfl⟩
  exact alike_of_forall₂ (List.rel_append (hsame lead) (.cons ⟨rfl, h⟩ (hsame trail)))

end Fields

/-- A record of several forms is read as before when every form is, and the tag stays. -/
theorem Decode.tagged_map {α : Type} {tag : String} {form : String → Option (Decode α)}
    {f : String × Json → String × Json} (hname : ∀ m, (f m).1 = m.1)
    (htag : ∀ v, f (tag, v) = (tag, v))
    (hform : ∀ name d, form name = some d → ∀ ms, d (.obj (ms.map f)) = d (.obj ms))
    (ms : Members) :
    Decode.tagged tag form (.obj (ms.map f)) = Decode.tagged tag form (.obj ms) := by
  have hget : Members.get? (ms.map f) tag = Members.get? ms tag := by
    unfold Members.get?
    induction ms with
    | nil => rfl
    | cons m ms ih =>
      obtain ⟨k, v⟩ := m
      rw [List.map_cons]
      by_cases hk : k = tag
      · subst hk
        simp [htag]
      · have hne : (tag == (f (k, v)).1) = false := by
          rw [hname]
          exact beq_false_of_ne (Ne.symm hk)
        rw [List.lookup_cons, List.lookup_cons, ih, hne, beq_false_of_ne (Ne.symm hk)]
  have hrest : (ms.map f).filter (fun m => m.1 ≠ tag) =
      (ms.filter fun m => m.1 ≠ tag).map f := by
    rw [List.filter_map]
    simp only [Function.comp_def, hname]
  simp only [Decode.tagged, hget, hrest]
  cases Members.get? ms tag with
  | none => rfl
  | some name =>
    cases name with
    | str name =>
      dsimp only
      cases hd : form name with
      | none => rfl
      | some d => exact hform name d hd _
    | null | bool | num | arr | obj => rfl

end Parley.Json
