/-
Names of tools and keys of entries. A tool is called by the name in its description, whatever key
its entry has, so the names of an accepted preset are its keys exactly when every entry describes
its tool under its own key (`names_are_keys_iff`). Keys are distinct and names need not be: of the
tools of one name all but the first are left out when the preset is registered.
-/
import Parley.Proofs.Agent.Atomicity
import Parley.Proofs.Preset.Entries
import Parley.Proofs.Tool.Definition

namespace Parley

/-! ## Registering all of several tools -/

namespace Tool

theorem filter_firsts (p : String → Bool) (ts : List Tool) :
    (firsts ts).filter (fun t => p t.name) = firsts (ts.filter fun t => p t.name) := by
  induction ts with
  | nil => rfl
  | cons t ts ih =>
    rw [firsts, List.filter_cons, List.filter_cons, List.filter_filter]
    cases ht : p t.name with
    | true =>
      rw [if_pos rfl, if_pos rfl, firsts, ← ih, List.filter_filter]
      congr 1
      exact List.filter_congr fun u _ => Bool.and_comm _ _
    | false =>
      rw [if_neg Bool.false_ne_true, if_neg Bool.false_ne_true, ← ih]
      -- what passes does not have the name that does not pass
      refine List.filter_congr fun u _ => ?_
      by_cases hu : u.name = t.name <;> simp [hu, ht]

theorem length_firsts_eq_iff (ts : List Tool) :
    (firsts ts).length = ts.length ↔ (ts.map Tool.name).Nodup := by
  constructor
  · intro h
    rw [← (firsts_sublist ts).eq_of_length h]
    exact firsts_nodup ts
  · exact fun h => congrArg List.length (firsts_of_nodup h)

/-- All tools of new names are registered exactly when no two of them have one name. -/
theorem Registry.WF.registerAll_count_iff {r : Registry} (h : r.WF) (ts : List Tool) :
    (r.registerAll ts).1 = ((ts.map Tool.name).filter fun name => name ∉ r.names).length ↔
      ((ts.map Tool.name).filter fun name => name ∉ r.names).Nodup := by
  have hcount : (r.registerAll ts).1 =
      (firsts (ts.filter fun t => t.name ∉ r.names)).length := by
    have hsize := registerAll_size r ts
    unfold Registry.size at hsize
    rw [h.registerAll_tools, List.length_append, Nat.add_left_cancel_iff,
      filter_firsts (fun name => name ∉ r.names)] at hsize
    exact hsize.symm
  have hnames : (ts.map Tool.name).filter (fun name => name ∉ r.names) =
      (ts.filter fun t => t.name ∉ r.names).map Tool.name := List.filter_map
  rw [hcount, hnames, List.length_map, length_firsts_eq_iff]

end Tool

namespace Preset

/-! ## The names of entries -/

/-- The description in an entry gives the tool a name. -/
def Names (v : Json) (name : String) : Prop :=
  (v.part ["description"] 1).bind (fun u => u.part ["name"] 0) = some (.str name)

instance (v : Json) (name : String) : Decidable (Names v name) :=
  inferInstanceAs (Decidable (_ = _))

theorem Names.unique {v : Json} {name name' : String} (h : Names v name) (h' : Names v name') :
    name = name' :=
  Json.str.inj (Option.some.inj (h.symm.trans h'))

theorem name_of_decode {place : Json.Decode.Place} {v : Json} {d : Tool.Description}
    (h : Tool.Description.decodeAt place v = .ok d) :
    v.part ["name"] 0 = some (.str d.name) := by
  obtain ⟨r, h₄, hpart⟩ := Json.Fields.read_of_decode h
  obtain ⟨_, _, h₃, -, rfl⟩ := Json.Fields.read_seq h₄
  obtain ⟨_, _, h₂, -, rfl⟩ := Json.Fields.read_seq h₃
  obtain ⟨_, _, h₁, -, rfl⟩ := Json.Fields.read_seq h₂
  obtain ⟨name, hname, rfl⟩ := Json.Fields.read_map h₁
  obtain ⟨u, hgiven, hu⟩ := Json.Fields.read_required_iff.1 hname
  rw [hpart, hgiven, Json.Decode.string_eq_ok_iff.1 hu]
  rfl

/-- A definition has the name that its entry gives, and no other. -/
theorem Holds.names {v : Json} {d : Definition} (h : Holds v d) : Names v d.name := by
  have hdecode : Definition.decode v = .ok d := by
    have hread := h.1
    unfold Definition.ofJson at hread
    split at hread
    · rename_i d' hd
      cases hread
      exact hd
    · cases hread
  obtain ⟨u, hu, hdescription⟩ := Definition.description_of_decode hdecode
  rw [Names, hu]
  exact name_of_decode hdescription

/-! ## Names and keys -/

section Accepted

variable {preset content : String} {ms : Json.Members} {ds : List Definition}

theorem names_eq_keys_iff (h : List.Forall₂ (fun m d => Names m.2 (Definition.name d)) ms ds) :
    ds.map Definition.name = ms.map Prod.fst ↔ ∀ m ∈ ms, Names m.2 m.1 := by
  induction h with
  | nil => simp
  | @cons m d ms ds hm hms ih =>
    have hname : d.name = m.1 ↔ Names m.2 m.1 := ⟨fun he => he ▸ hm, fun hk => hm.unique hk⟩
    rw [List.map_cons, List.map_cons, List.cons.injEq, List.forall_mem_cons, ih, hname]

/-- The tools of an accepted preset have the names that its entries give them, in the order of the
file. These are the keys of the entries exactly when every entry gives its own key, and if they are,
they are distinct. Whenever it is registered, all tools of new names are taken up exactly when no
two of them have one name. -/
theorem names_are_keys_iff (h : Json.parse? content = some (.obj ms))
    (hds : parse preset content = .ok ds) :
    List.Forall₂ (fun m d => Names m.2 (Definition.name d)) (known ms) ds ∧
    (ds.map Definition.name = (known ms).map Prod.fst ↔ ∀ m ∈ known ms, Names m.2 m.1) ∧
    (ds.map Definition.name = (known ms).map Prod.fst → (ds.map Definition.name).Nodup) ∧
    ∀ (a : Agent) (fs : Files) (dir : String) (auth : Option Http.Authenticator), a.tools.WF →
      load fs dir preset = .ok ds →
      ((a.addPreset fs dir preset auth).1 =
          .ok ((ds.map Definition.name).filter fun name => name ∉ a.tools.names).length ↔
        ((ds.map Definition.name).filter fun name => name ∉ a.tools.names).Nodup) := by
  have hnames := ((parse_eq_ok_iff h).1 hds).imp fun m d hm => hm.names
  refine ⟨hnames, names_eq_keys_iff hnames, ?_, ?_⟩
  · intro hkeys
    rw [hkeys]
    exact ((known_sublist ms).map Prod.fst).nodup (Json.members_of_parse? h).1
  · intro a fs dir auth hwf hload
    obtain ⟨ts, -, hts⟩ := Agent.buildAll_ok auth fun d hd => (sound_load hload d hd).valid
    have hsame : ts.map Tool.name = ds.map Definition.name := by
      rw [← List.forall₂_eq_eq_eq, List.forall₂_map_left_iff, List.forall₂_map_right_iff]
      exact hts.flip.imp fun t d hb => hb.name
    rw [Agent.addPreset_of_load hload hts, ← hsame, Except.ok.injEq]
    exact hwf.registerAll_count_iff ts

end Accepted

/-! ## Entries under other keys -/

/-- An entry with a tool of the host. -/
def toolEntry (key name : String) : String × Json :=
  (key, .obj [("type", .str "universal"), ("description", .obj [("name", .str name)])])

/-- A preset of two tools under their names, and an entry of another type between them. -/
def keyedKit : Json.Members :=
  [toolEntry "clock" "clock", ("graph", .obj [("type", .str "graphql")]), toolEntry "say" "say"]

/-- A preset with two entries that describe a tool of one name. -/
def doubledKit : Json.Members := [toolEntry "brief" "say", toolEntry "long" "say"]

/-- A directory with the preset as its only file. -/
def kitShelf (ms : Json.Members) : Files := ⟨[(["kit.json"], (Json.obj ms).text)], []⟩

theorem load_kitShelf (ms : Json.Members) :
    load (kitShelf ms) "" "kit" = parse "kit" (Json.obj ms).text := by
  have hname : isName "kit" = true := by decide +kernel
  have hpath : Files.steps (Files.join "" ("kit" ++ "." ++ extension)) = ["kit.json"] := by
    decide +kernel
  unfold load Files.read?
  rw [if_pos hname, hpath]
  rfl

/-- The tools that a preset of tools of the host defines. -/
def toolsNamed (names : List String) : List Definition :=
  names.map fun name => .universal ⟨name, "", Tool.Parameters.none, none⟩ ⟨none⟩

/-- Tools under their names are all registered. -/
theorem keyedKit_registered :
    let a := Agent.fresh (.qwen "small" "Qwen") []
    Json.parse? (Json.obj keyedKit).text = some (.obj keyedKit) ∧
      parse "kit" (Json.obj keyedKit).text = .ok (toolsNamed ["clock", "say"]) ∧
      (toolsNamed ["clock", "say"]).map Definition.name = (known keyedKit).map Prod.fst ∧
      (a.addPreset (kitShelf keyedKit) "" "kit" none).1 = .ok 2 := by
  intro a
  have hjson : Json.parse? (Json.obj keyedKit).text = some (.obj keyedKit) := by decide +kernel
  have hds : parse "kit" (Json.obj keyedKit).text = .ok (toolsNamed ["clock", "say"]) := by
    rw [parse_eq hjson]
    decide +kernel
  have hload := (load_kitShelf keyedKit).trans hds
  obtain ⟨-, hkeys, -, hadd⟩ := names_are_keys_iff hjson hds
  refine ⟨hjson, hds, hkeys.2 ?_, (hadd a _ _ none Tool.Registry.empty_wf hload).2 (by decide)⟩
  decide +kernel

/-- Two tools of one name are accepted under two keys, and one of them is left out. -/
theorem doubledKit_shadowed :
    let a := Agent.fresh (.qwen "small" "Qwen") []
    Json.parse? (Json.obj doubledKit).text = some (.obj doubledKit) ∧
      parse "kit" (Json.obj doubledKit).text = .ok (toolsNamed ["say", "say"]) ∧
      (known doubledKit).map Prod.fst = ["brief", "long"] ∧
      (toolsNamed ["say", "say"]).map Definition.name = ["say", "say"] ∧
      (a.addPreset (kitShelf doubledKit) "" "kit" none).1 = .ok 1 := by
  intro a
  have hjson : Json.parse? (Json.obj doubledKit).text = some (.obj doubledKit) := by
    decide +kernel
  have hds : parse "kit" (Json.obj doubledKit).text = .ok (toolsNamed ["say", "say"]) := by
    rw [parse_eq hjson]
    decide +kernel
  refine ⟨hjson, hds, by decide +kernel, by decide +kernel, ?_⟩
  unfold Agent.addPreset
  rw [load_kitShelf, hds]
  decide +kernel

end Preset

end Parley
