/-
Dictionaries. To insert an entry changes the value of its name and leaves the others alone, and it
keeps the names in ascending order (`Ordered.insert`); entries that ascend are a dictionary as they
stand (`Ordered.ofEntries_eq`), and so they are found again in whatever order they are listed
(`Ordered.ofEntries_of_perm`).
-/
import Parley.Dictionary
import Mathlib.Data.List.Nodup
import Mathlib.Order.Basic

namespace Parley.Dictionary

variable {α : Type} {d : Dictionary α} {k : String} {v : α}

/-! ## Giving a name a value -/

/-- Where the entry of a name goes does not depend on its value. -/
theorem exists_insert_eq (d : Dictionary α) (k : String) :
    ∃ pre post, ∀ v, d.insert k v = pre ++ (k, v) :: post := by
  induction d with
  | nil => exact ⟨[], [], fun _ => rfl⟩
  | cons e es ih =>
    by_cases heq : k = e.1
    · exact ⟨[], es, fun v => by rw [insert, if_pos heq]; rfl⟩
    by_cases hlt : k < e.1
    · exact ⟨[], e :: es, fun v => by rw [insert, if_neg heq, if_pos hlt]; rfl⟩
    · obtain ⟨pre, post, h⟩ := ih
      exact ⟨e :: pre, post, fun v => by rw [insert, if_neg heq, if_neg hlt, h]; rfl⟩

/-- Of two values that a name is given the second stays. -/
theorem insert_insert (d : Dictionary α) (k : String) (v w : α) :
    (d.insert k v).insert k w = d.insert k w := by
  induction d with
  | nil => simp [insert]
  | cons e es ih =>
    by_cases heq : k = e.1
    · simp [insert, heq]
    by_cases hlt : k < e.1
    · simp [insert, heq, hlt]
    · simp [insert, heq, hlt, ih]

/-- The entries of other names stay as they are. -/
theorem filter_insert (d : Dictionary α) (k : String) (v : α) :
    (d.insert k v).filter (·.1 ≠ k) = d.filter (·.1 ≠ k) := by
  induction d with
  | nil => simp [insert]
  | cons e es ih =>
    unfold insert
    split
    · rename_i heq
      simp [heq]
    split
    · simp
    · rw [List.filter_cons, List.filter_cons, ih]

/-- Looking a name up before and after a change of the values. -/
theorem get?_map {β : Type} (d : Dictionary α) (f : α → β) (k : String) :
    Dictionary.get? (d.map fun e => (e.1, f e.2)) k = (d.get? k).map f := by
  unfold get?
  induction d with
  | nil => rfl
  | cons e es ih =>
    rw [List.map_cons, List.lookup_cons, List.lookup_cons]
    split
    · rfl
    · exact ih

/-! ## Order -/

/-- The invariant of dictionaries: the names ascend. -/
def Ordered (d : Dictionary α) : Prop := d.Pairwise fun e f => e.1 < f.1

theorem ordered_nil : Ordered ([] : Dictionary α) := List.Pairwise.nil

theorem mem_insert {e : String × α} (h : e ∈ d.insert k v) : e.1 = k ∨ e ∈ d := by
  induction d with
  | nil => exact .inl (congrArg Prod.fst (List.mem_singleton.1 h))
  | cons f es ih =>
    unfold insert at h
    split at h
    · rcases List.mem_cons.1 h with rfl | h
      · exact .inl rfl
      · exact .inr (List.mem_cons_of_mem _ h)
    split at h
    · rcases List.mem_cons.1 h with rfl | h
      · exact .inl rfl
      · exact .inr h
    · rcases List.mem_cons.1 h with rfl | h
      · exact .inr List.mem_cons_self
      · exact (ih h).imp_right (List.mem_cons_of_mem _)

theorem Ordered.insert (h : d.Ordered) (k : String) (v : α) : (d.insert k v).Ordered := by
  induction d with
  | nil => exact List.pairwise_singleton _ _
  | cons f es ih =>
    obtain ⟨hf, hes⟩ := List.pairwise_cons.1 h
    unfold Dictionary.insert
    split
    · rename_i heq
      subst heq
      exact List.pairwise_cons.2 ⟨hf, hes⟩
    split
    · rename_i hne hlt
      refine List.pairwise_cons.2 ⟨fun e he => ?_, h⟩
      rcases List.mem_cons.1 he with rfl | he
      · exact hlt
      · exact String.lt_trans hlt (hf e he)
    · rename_i hne hge
      have hlt : f.1 < k := Std.lt_of_le_of_ne (String.not_lt.1 hge) (Ne.symm hne)
      refine List.pairwise_cons.2 ⟨fun e he => ?_, ih hes⟩
      rcases mem_insert he with hk | he
      · exact hk ▸ hlt
      · exact hf e he

/-- In a dictionary the name that was given a value has one entry. -/
theorem Ordered.filter_insert_self (h : d.Ordered) (k : String) (v : α) :
    (d.insert k v).filter (·.1 = k) = [(k, v)] := by
  have hord := h.insert k v
  obtain ⟨pre, post, heq⟩ := d.exists_insert_eq k
  rw [heq v] at hord ⊢
  obtain ⟨-, hback, hfront⟩ := List.pairwise_append.1 hord
  have hpre : pre.filter (·.1 = k) = [] := List.filter_eq_nil_iff.2 fun e he hk =>
    Std.ne_of_lt (hfront e he _ List.mem_cons_self) (of_decide_eq_true hk)
  have hpost : post.filter (·.1 = k) = [] := List.filter_eq_nil_iff.2 fun e he hk =>
    Std.ne_of_lt ((List.pairwise_cons.1 hback).1 e he) (of_decide_eq_true hk).symm
  rw [List.filter_append, hpre, List.filter_cons_of_pos (by simp), hpost, List.nil_append]

theorem ordered_ofEntries (es : List (String × α)) : (ofEntries es).Ordered := by
  have hfold (d : Dictionary α) (h : d.Ordered) :
      Ordered (es.foldl (fun d e => d.insert e.1 e.2) d) := by
    induction es generalizing d with
    | nil => exact h
    | cons e es ih => exact ih (d.insert e.1 e.2) (h.insert e.1 e.2)
  exact hfold [] ordered_nil

/-- An entry behind all others is put at the end. -/
theorem insert_last (h : ∀ e ∈ d, e.1 < k) : d.insert k v = d ++ [(k, v)] := by
  induction d with
  | nil => rfl
  | cons e es ih =>
    have he : e.1 < k := h e List.mem_cons_self
    have hne : k ≠ e.1 := fun heq => String.lt_irrefl k (heq ▸ he)
    unfold insert
    rw [if_neg hne, if_neg (String.not_lt.2 (Std.le_of_lt he)),
      ih fun f hf => h f (List.mem_cons_of_mem _ hf)]
    rfl

/-- Entries in ascending order are a dictionary as they stand. -/
theorem Ordered.ofEntries_eq (h : d.Ordered) : ofEntries d = d := by
  have hfold (es : List (String × α)) (pre : Dictionary α) (hp : Ordered (pre ++ es)) :
      es.foldl (fun d e => d.insert e.1 e.2) pre = pre ++ es := by
    induction es generalizing pre with
    | nil => exact (List.append_nil pre).symm
    | cons e es ih =>
      -- each entry comes behind all that were put in before
      have hlast : pre.insert e.1 e.2 = pre ++ [e] := by
        refine insert_last fun f hf => ?_
        exact (List.pairwise_append.1 hp).2.2 f hf e List.mem_cons_self
      rw [List.foldl_cons, hlast, ih _ (by rwa [List.append_assoc]), List.append_assoc]
      rfl
  exact hfold d [] h

/-! ## Entries in any order -/

theorem Ordered.nodup (h : d.Ordered) : (d.map Prod.fst).Nodup :=
  (List.pairwise_map.2 h).imp Std.ne_of_lt

/-- Two listings of entries are the same when the names stand in one order. -/
theorem eq_of_perm_of_names {es fs : List (String × α)} (hn : (d.map Prod.fst).Nodup)
    (he : es.Perm d) (hf : fs.Perm d) (hnames : es.map Prod.fst = fs.map Prod.fst) : es = fs := by
  refine List.ext_getElem (he.length_eq.trans hf.length_eq.symm) fun i h₁ h₂ => ?_
  have hname : es[i].1 = fs[i].1 := by
    have hat := congrArg (·[i]?) hnames
    simpa [h₁, h₂] using hat
  exact List.inj_on_of_nodup_map hn (he.mem_iff.1 (List.getElem_mem h₁))
    (hf.mem_iff.1 (List.getElem_mem h₂)) hname

theorem insert_perm (h : k ∉ d.map Prod.fst) : (d.insert k v).Perm ((k, v) :: d) := by
  induction d with
  | nil => exact .refl _
  | cons e es ih =>
    rw [List.map_cons, List.mem_cons, not_or] at h
    unfold insert
    rw [if_neg h.1]
    split
    · exact .refl _
    · exact ((ih h.2).cons e).trans (.swap _ _ _)

/-- Entries with distinct names all stay. -/
theorem ofEntries_perm {es : List (String × α)} (h : (es.map Prod.fst).Nodup) :
    (ofEntries es).Perm es := by
  have hfold (d : Dictionary α) (hd : ((d ++ es).map Prod.fst).Nodup) :
      (es.foldl (fun d e => d.insert e.1 e.2) d).Perm (d ++ es) := by
    induction es generalizing d with
    | nil =>
      rw [List.append_nil]
      exact .refl d
    | cons e es ih =>
      have he : e.1 ∉ d.map Prod.fst := by
        rw [List.map_append, List.nodup_append] at hd
        exact fun hmem => hd.2.2 _ hmem _ List.mem_cons_self rfl
      have hmoved : (d.insert e.1 e.2 ++ es).Perm (d ++ e :: es) :=
        ((insert_perm he).append_right es).trans List.perm_middle.symm
      have hnames : ((d.insert e.1 e.2 ++ es).map Prod.fst).Nodup :=
        (hmoved.map Prod.fst).nodup_iff.2 hd
      exact (ih (List.nodup_cons.1 h).2 _ hnames).trans hmoved
  exact hfold [] h

theorem Ordered.eq_of_perm {d' : Dictionary α} (h : d.Ordered) (h' : d'.Ordered)
    (hp : d.Perm d') : d = d' :=
  hp.eq_of_pairwise
    (fun _ _ _ _ hlt hgt => absurd (String.lt_trans hlt hgt) (String.lt_irrefl _)) h h'

theorem Ordered.ofEntries_of_perm {es : List (String × α)} (h : d.Ordered) (hp : es.Perm d) :
    ofEntries es = d :=
  (ordered_ofEntries es).eq_of_perm h
    ((ofEntries_perm ((hp.map Prod.fst).nodup_iff.2 h.nodup)).trans hp)

end Parley.Dictionary
