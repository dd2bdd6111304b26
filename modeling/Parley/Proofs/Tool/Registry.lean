/-
Registries that tools are added to one after the other. Such a registry holds the tools that were
given to it, less those whose name an earlier one has, in the order in which they were given
(`ofTools_tools`), and under a name it finds the first tool that was given with that name
(`get?_ofTools`). The invariant `WF` says that the index knows the place of every tool.
-/
import Parley.Tool.Registry
import Mathlib.Data.List.Nodup

namespace Parley.Tool

/-- The tools of a list whose name no earlier tool has. -/
def firsts : List Tool → List Tool
  | [] => []
  | t :: ts => t :: (firsts ts).filter fun u => u.name ≠ t.name

theorem firsts_nodup (ts : List Tool) : ((firsts ts).map Tool.name).Nodup := by
  induction ts with
  | nil => exact List.nodup_nil
  | cons t ts ih =>
    rw [firsts, List.map_cons, List.nodup_cons]
    constructor
    · intro h
      obtain ⟨u, hu, hn⟩ := List.mem_map.1 h
      simp [hn] at hu
    · exact ih.sublist (List.filter_sublist.map Tool.name)

theorem firsts_sublist (ts : List Tool) : (firsts ts).Sublist ts := by
  induction ts with
  | nil => exact .slnil
  | cons t ts ih => exact (List.filter_sublist.trans ih).cons_cons t

/-- Of the tools of one name the first is kept. -/
theorem find?_firsts (ts : List Tool) (name : String) :
    (firsts ts).find? (fun t => t.name == name) = ts.find? fun t => t.name == name := by
  induction ts with
  | nil => rfl
  | cons t ts ih =>
    rw [firsts, List.find?_cons, List.find?_cons]
    cases ht : t.name == name with
    | true => rfl
    | false =>
      have hn : t.name ≠ name := by simpa using ht
      -- a tool of the wanted name does not have the name that is left out
      have hp : (fun u : Tool => decide (decide (u.name ≠ t.name) = true ∧ (u.name == name) = true)) =
          fun u => u.name == name := by
        funext u
        by_cases hu : u.name = name <;> simp [hu, hn.symm]
      dsimp only
      rw [List.find?_filter, hp, ih]

namespace Registry

variable {r : Registry}

/-- The invariant of registries: the index gives the place of every tool, and no name has two. -/
structure WF (r : Registry) : Prop where
  index : r.index = r.tools.zipIdx.map fun t => (t.1.name, t.2)
  nodup : r.names.Nodup

theorem empty_wf : empty.WF := ⟨rfl, List.nodup_nil⟩

/-! ## Lookup -/

theorem lookup_places (ts : List Tool) (name : String) (k : Nat) :
    ((ts.zipIdx k).map fun t => (t.1.name, t.2)).lookup name =
      (ts.findIdx? fun t => t.name == name).map (· + k) := by
  induction ts generalizing k with
  | nil => rfl
  | cons t ts ih =>
    rw [List.zipIdx_cons, List.map_cons, List.lookup_cons, List.findIdx?_cons, ih (k + 1)]
    by_cases ht : t.name = name
    · simp [ht]
    · have hn : (name == t.name) = false := by simpa using Ne.symm ht
      simp [ht, hn, Function.comp_def, Nat.add_comm, Nat.add_left_comm]

/-- A registry finds the first of its tools that has the name. -/
theorem WF.get?_eq (h : r.WF) (name : String) :
    r.get? name = r.tools.find? fun t => t.name == name := by
  unfold get?
  rw [h.index, lookup_places]
  simp [List.find?_eq_bind_findIdx?_getElem?]

theorem WF.lookup_eq_none_iff (h : r.WF) (name : String) :
    r.index.lookup name = none ↔ name ∉ r.names := by
  rw [h.index, lookup_places, Option.map_eq_none_iff, List.findIdx?_eq_none_iff]
  simp [names]

/-! ## Registration -/

theorem WF.register_of_mem (h : r.WF) {t : Tool} (ht : t.name ∈ r.names) :
    r.register t = (.alreadyRegistered, r) := by
  unfold register
  cases hl : r.index.lookup t.name with
  | none => exact absurd ht ((h.lookup_eq_none_iff _).1 hl)
  | some i => rfl

theorem WF.register_of_not_mem (h : r.WF) {t : Tool} (ht : t.name ∉ r.names) :
    r.register t = (.added, ⟨r.tools ++ [t], r.index ++ [(t.name, r.tools.length)]⟩) := by
  unfold register
  rw [(h.lookup_eq_none_iff _).2 ht]

/-- The tools behind a registration: a tool of a new name is appended, any other is not taken. -/
theorem WF.register_tools (h : r.WF) (t : Tool) :
    (r.register t).2.tools = if t.name ∈ r.names then r.tools else r.tools ++ [t] := by
  by_cases ht : t.name ∈ r.names
  · rw [h.register_of_mem ht, if_pos ht]
  · rw [h.register_of_not_mem ht, if_neg ht]

theorem WF.register (h : r.WF) (t : Tool) : (r.register t).2.WF := by
  by_cases ht : t.name ∈ r.names
  · rwa [h.register_of_mem ht]
  · rw [h.register_of_not_mem ht]
    constructor
    · simp [h.index, List.zipIdx_append]
    · have hn := h.nodup
      unfold names at hn ht ⊢
      rw [List.map_append, List.nodup_append]
      refine ⟨hn, List.nodup_singleton _, ?_⟩
      rintro _ hm _ hs rfl
      exact ht (List.mem_singleton.1 hs ▸ hm)

theorem registerAll_cons (r : Registry) (t : Tool) (ts : List Tool) :
    (r.registerAll (t :: ts)).2 = ((r.register t).2.registerAll ts).2 := by
  rw [registerAll]
  rcases r.register t with ⟨_ | _, s⟩ <;> rfl

theorem registerAll_append (r : Registry) (ts us : List Tool) :
    (r.registerAll (ts ++ us)).2 = ((r.registerAll ts).2.registerAll us).2 := by
  induction ts generalizing r with
  | nil => rfl
  | cons t ts ih => rw [List.cons_append, registerAll_cons, registerAll_cons, ih]

/-- The tools that are counted are those by which the registry grows. -/
theorem registerAll_size (r : Registry) (ts : List Tool) :
    (r.registerAll ts).2.size = r.size + (r.registerAll ts).1 := by
  induction ts generalizing r with
  | nil => rfl
  | cons t ts ih =>
    rw [registerAll]
    cases hl : r.index.lookup t.name with
    | some i =>
      have hr : r.register t = (.alreadyRegistered, r) := by simp only [Registry.register, hl]
      rw [hr]
      exact ih r
    | none =>
      have hr : r.register t =
          (.added, ⟨r.tools ++ [t], r.index ++ [(t.name, r.tools.length)]⟩) := by
        simp only [Registry.register, hl]
      rw [hr]
      show (Registry.registerAll _ ts).2.size = r.size + ((Registry.registerAll _ ts).1 + 1)
      rw [ih]
      simp only [size, List.length_append, List.length_singleton]
      omega

theorem WF.registerAll (h : r.WF) (ts : List Tool) : (r.registerAll ts).2.WF := by
  induction ts generalizing r with
  | nil => exact h
  | cons t ts ih =>
    rw [registerAll_cons]
    exact ih (h.register t)

/-- Of the tools that are added those are taken whose name is new. -/
theorem WF.registerAll_tools (h : r.WF) (ts : List Tool) :
    (r.registerAll ts).2.tools = r.tools ++ (firsts ts).filter fun t => t.name ∉ r.names := by
  induction ts generalizing r with
  | nil => exact (List.append_nil _).symm
  | cons t ts ih =>
    rw [registerAll_cons, ih (h.register t), h.register_tools, firsts, List.filter_cons,
      List.filter_filter]
    by_cases ht : t.name ∈ r.names
    · rw [h.register_of_mem ht, if_pos ht, if_neg (by simpa using ht)]
      congr 1
      refine List.filter_congr fun u _ => ?_
      by_cases hu : u.name = t.name <;> simp [hu, ht]
    · have hs : ((r.register t).2).names = r.names ++ [t.name] := by
        rw [h.register_of_not_mem ht]
        simp [names]
      rw [hs, if_neg ht, if_pos (by simpa using ht), List.append_assoc, List.singleton_append]
      congr 2
      refine List.filter_congr fun u _ => ?_
      by_cases hu : u.name = t.name <;> simp [hu]

/-! ## Registries from lists -/

/-- The registry that some tools make, added one after the other. -/
def ofTools (ts : List Tool) : Registry := (empty.registerAll ts).2

theorem ofTools_wf (ts : List Tool) : (ofTools ts).WF := empty_wf.registerAll ts

/-- Adding a further tool is adding it at the end of the list. -/
theorem register_ofTools (ts : List Tool) (t : Tool) :
    ((ofTools ts).register t).2 = ofTools (ts ++ [t]) := by
  unfold ofTools
  rw [registerAll_append, registerAll_cons]
  rfl

theorem ofTools_tools (ts : List Tool) : (ofTools ts).tools = firsts ts := by
  unfold ofTools
  rw [empty_wf.registerAll_tools]
  simp [empty, names]

theorem get?_ofTools (ts : List Tool) (name : String) :
    (ofTools ts).get? name = ts.find? fun t => t.name == name := by
  rw [(ofTools_wf ts).get?_eq, ofTools_tools, find?_firsts]

end Registry

end Parley.Tool
