/-
The upkeep of registries: tools are registered, and now and then all of them are taken out again.
Whatever is done, the index and the list of a registry describe the same tools (`Coherent`), and
under a name the registry finds the tool that was taken in first under it since the last clearing
(`changes_keep`).

The list and the index are changed by separate statements and read together. What ties them is the
invariant `WF`; it says neither too little nor too much, for it holds of the registries that changes
lead to and of no others (`wf_iff`).
-/
import Parley.Proofs.Tool.Registry
import Mathlib.Data.List.Induction

namespace Parley.Tool

theorem firsts_of_nodup {ts : List Tool} (h : (ts.map Tool.name).Nodup) : firsts ts = ts := by
  induction ts with
  | nil => rfl
  | cons t ts ih =>
    rw [List.map_cons, List.nodup_cons] at h
    have hn : ts.filter (fun u => u.name ≠ t.name) = ts := by
      rw [List.filter_eq_self]
      intro u hu
      exact decide_eq_true fun he => h.1 (he ▸ List.mem_map_of_mem hu)
    rw [firsts, ih h.2, hn]

namespace Registry

variable {r s : Registry}

/-! ## Changes -/

/-- What is done to a registry. -/
inductive Change where
  | register (t : Tool)
  | clear

/-- What was done to a registry, with the answer. -/
inductive Entry where
  | registered (t : Tool) (answer : Registration)
  | cleared

/-- A change, and its entry in the journal of the registry. -/
def change (r : Registry) : Change → Entry × Registry
  | .register t =>
    let (answer, r) := r.register t
    (.registered t answer, r)
  | .clear => (.cleared, r.clear)

/-- One change after the other, and the journal of them. -/
def changeAll : List Change → Registry → List Entry × Registry
  | [], r => ([], r)
  | c :: cs, r =>
    let made := r.change c
    let rest := changeAll cs made.2
    (made.1 :: rest.1, rest.2)

theorem changeAll_concat (cs : List Change) (c : Change) (r : Registry) :
    changeAll (cs ++ [c]) r =
      ((changeAll cs r).1 ++ [((changeAll cs r).2.change c).1],
        ((changeAll cs r).2.change c).2) := by
  induction cs generalizing r with
  | nil => rfl
  | cons d cs ih =>
    rw [List.cons_append, changeAll, ih]
    rfl

/-- The tools that were offered to a registry since it was cleared last. -/
def offered (cs : List Change) : List Tool :=
  cs.foldl (fun ts c =>
    match c with
    | .register t => ts ++ [t]
    | .clear => []) []

/-- The tools that a registry took in since it was cleared last, by its journal. -/
def taken (es : List Entry) : List Tool :=
  es.foldl (fun ts e =>
    match e with
    | .registered t .added => ts ++ [t]
    | .registered _ .alreadyRegistered => ts
    | .cleared => []) []

/-! ## The invariant along the changes -/

theorem WF.change (h : r.WF) (c : Change) : (r.change c).2.WF := by
  cases c with
  | register t => exact h.register t
  | clear => exact empty_wf

/-- The tools that a registry holds are those of its journal. -/
theorem WF.taken_change (h : r.WF) (c : Change) {es : List Entry} (ht : r.tools = taken es) :
    (r.change c).2.tools = taken (es ++ [(r.change c).1]) := by
  unfold taken at ht ⊢
  rw [List.foldl_concat, ← ht]
  cases c with
  | clear => rfl
  | register t =>
    by_cases hm : t.name ∈ r.names
    · simp only [Registry.change, h.register_of_mem hm]
    · simp only [Registry.change, h.register_of_not_mem hm]

theorem changeAll_wf (h : r.WF) (cs : List Change) : (changeAll cs r).2.WF := by
  induction cs generalizing r with
  | nil => exact h
  | cons c cs ih => exact ih (h.change c)

/-- A registry is the one that the tools make which were offered since it was cleared. -/
theorem changeAll_eq_ofTools (cs : List Change) : (changeAll cs empty).2 = ofTools (offered cs) := by
  induction cs using List.reverseRecOn with
  | nil => rfl
  | append_singleton cs c ih =>
    unfold offered at ih ⊢
    rw [changeAll_concat, List.foldl_concat, ih]
    cases c with
    | register t => exact register_ofTools _ t
    | clear => rfl

theorem changeAll_tools (cs : List Change) :
    (changeAll cs empty).2.tools = taken (changeAll cs empty).1 := by
  induction cs using List.reverseRecOn with
  | nil => rfl
  | append_singleton cs c ih =>
    rw [changeAll_concat]
    exact (changeAll_wf empty_wf cs).taken_change c ih

/-! ## The invariant is exact -/

/-- The list of a registry settles its index. -/
theorem WF.eq_of_tools (hr : r.WF) (hs : s.WF) (h : r.tools = s.tools) : r = s := by
  have hi : r.index = s.index := by rw [hr.index, hs.index, h]
  cases r
  cases s
  cases h
  cases hi
  rfl

theorem offered_register (ts : List Tool) : offered (ts.map .register) = ts := by
  unfold offered
  induction ts using List.reverseRecOn with
  | nil => rfl
  | append_singleton ts t ih => rw [List.map_append, List.foldl_append, ih]; rfl

/-- The invariant holds of the registries that changes lead to, and of no others. -/
theorem wf_iff (r : Registry) : r.WF ↔ ∃ cs, (changeAll cs empty).2 = r := by
  constructor
  · intro h
    refine ⟨r.tools.map .register, ?_⟩
    rw [changeAll_eq_ofTools, offered_register]
    exact (ofTools_wf r.tools).eq_of_tools h ((ofTools_tools _).trans (firsts_of_nodup h.nodup))
  · rintro ⟨cs, rfl⟩
    exact changeAll_wf empty_wf cs

/-! ## What the invariant comes to -/

/-- The index and the list of a registry describe the same tools. -/
structure Coherent (r : Registry) : Prop where
  /-- Every place in the index is one in the list. -/
  inRange : ∀ e ∈ r.index, e.2 < r.tools.length
  /-- No place and no name is in the index twice. -/
  places : (r.index.map Prod.snd).Nodup
  keys : (r.index.map Prod.fst).Nodup
  /-- What is indexed under a name is a tool of that name. -/
  own : ∀ e ∈ r.index, ∃ t, r.tools[e.2]? = some t ∧ t.name = e.1
  /-- Every tool is indexed under its name. -/
  indexed : ∀ i t, r.tools[i]? = some t → r.index.lookup t.name = some i

theorem WF.keys_eq (h : r.WF) : r.index.map Prod.fst = r.names := by
  have hk : (fun t : Tool × Nat => t.1.name) = Tool.name ∘ Prod.fst := rfl
  rw [h.index, List.map_map]
  show r.tools.zipIdx.map (fun t => t.1.name) = r.tools.map Tool.name
  rw [hk, ← List.map_map, List.zipIdx_map_fst]

theorem WF.places_eq (h : r.WF) : r.index.map Prod.snd = List.range r.tools.length := by
  rw [h.index, List.map_map, List.range_eq_range']
  exact List.zipIdx_map_snd 0 r.tools

theorem WF.own (h : r.WF) {e : String × Nat} (he : e ∈ r.index) :
    ∃ t, r.tools[e.2]? = some t ∧ t.name = e.1 := by
  rw [h.index] at he
  obtain ⟨⟨t, i⟩, ht, rfl⟩ := List.mem_map.1 he
  exact ⟨t, List.mem_zipIdx_iff_getElem?.1 ht, rfl⟩

theorem WF.lookup_name (h : r.WF) {i : Nat} {t : Tool} (ht : r.tools[i]? = some t) :
    r.index.lookup t.name = some i := by
  have hm : (t, i) ∈ r.tools.zipIdx := List.mem_zipIdx_iff_getElem?.2 ht
  have he : (t.name, i) ∈ r.index := by
    rw [h.index]
    exact List.mem_map_of_mem (f := fun t : Tool × Nat => (t.1.name, t.2)) hm
  obtain ⟨pre, post, hi⟩ := List.append_of_mem he
  refine List.lookup_eq_some_iff.2 ⟨pre, post, hi, fun e hp => ?_⟩
  -- the name is not in the index before the entry of the tool
  have hn := h.nodup
  rw [← h.keys_eq, hi, List.map_append, List.map_cons, List.nodup_append] at hn
  simpa using (hn.2.2 e.1 (List.mem_map_of_mem hp) t.name List.mem_cons_self).symm

/-- A name that is indexed leads to a tool of that name. -/
theorem WF.get?_of_lookup (h : r.WF) {name : String} {i : Nat}
    (hl : r.index.lookup name = some i) :
    ∃ t, r.tools[i]? = some t ∧ t.name = name ∧ r.get? name = some t := by
  obtain ⟨pre, post, hi, -⟩ := List.lookup_eq_some_iff.1 hl
  obtain ⟨t, ht, hn⟩ := h.own (e := (name, i)) (by simp [hi])
  refine ⟨t, ht, hn, ?_⟩
  unfold get?
  rw [hl]
  exact ht

theorem WF.coherent (h : r.WF) : r.Coherent where
  inRange e he := by
    obtain ⟨t, ht, -⟩ := h.own he
    exact (List.getElem?_eq_some_iff.1 ht).1
  places := by
    rw [h.places_eq]
    exact List.nodup_range
  keys := by
    rw [h.keys_eq]
    exact h.nodup
  own _ he := h.own he
  indexed _ _ ht := h.lookup_name ht

/-- What a registry is after some changes, of which it has a journal. -/
structure Kept (cs : List Change) (es : List Entry) (r : Registry) : Prop where
  coherent : r.Coherent
  /-- The place of a name is never outside the list, so that looking a name up always ends. -/
  leads : ∀ name i, r.index.lookup name = some i →
    ∃ t, r.tools[i]? = some t ∧ t.name = name ∧ r.get? name = some t
  /-- Under a name stands the first tool that was taken in, and that is the first offered. -/
  found : ∀ name, r.get? name = (taken es).find? fun t => t.name == name
  first : ∀ name, r.get? name = (offered cs).find? fun t => t.name == name
  /-- The tools are described and named in the order in which they were taken in. -/
  descriptions : r.descriptions = (taken es).map Tool.description
  names : r.names = (taken es).map Tool.name
  distinct : r.names.Nodup
  /-- A further tool is refused if its name is there, and then nothing changes. -/
  refuses : ∀ t, (r.register t).1 = .alreadyRegistered ↔ t.name ∈ r.names
  refused : ∀ t, (r.register t).1 = .alreadyRegistered → (r.register t).2 = r

theorem WF.register_eq_alreadyRegistered_iff (h : r.WF) (t : Tool) :
    (r.register t).1 = .alreadyRegistered ↔ t.name ∈ r.names := by
  by_cases ht : t.name ∈ r.names
  · simp [h.register_of_mem ht, ht]
  · simp [h.register_of_not_mem ht, ht]

/-- A registry keeps its index and its list in step, whatever is done to it. -/
theorem changes_keep (cs : List Change) :
    Kept cs (changeAll cs empty).1 (changeAll cs empty).2 := by
  have hw := changeAll_wf empty_wf cs
  have ht := changeAll_tools cs
  constructor
  case coherent => exact hw.coherent
  case leads => exact fun name i hl => hw.get?_of_lookup hl
  case found =>
    intro name
    rw [hw.get?_eq, ht]
  case first =>
    intro name
    rw [changeAll_eq_ofTools, get?_ofTools]
  case descriptions => exact congrArg (List.map Tool.description) ht
  case names => exact congrArg (List.map Tool.name) ht
  case distinct => exact hw.nodup
  case refuses => exact hw.register_eq_alreadyRegistered_iff
  case refused =>
    intro t h
    rw [hw.register_of_mem ((hw.register_eq_alreadyRegistered_iff t).1 h)]

end Registry

end Parley.Tool
