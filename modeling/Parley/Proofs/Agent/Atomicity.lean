/-
Tools that are added in bulk, and what is left of them behind a failure. All tools of a preset are
built before the first is registered, so a preset is added as a whole or not at all
(`addPreset_atomic`). The tools of a server are built and registered one by one, up to the first
that cannot be used, so a failure leaves behind it those that come earlier, unless each of them has
a name that was taken (`failed_addServer_kept_iff`).
-/
import Parley.Proofs.Agent.Equipment

namespace Parley

open Tool

namespace Agent

/-! ## What becomes of the registry -/

section Registries

variable {a b : Agent} {ts : List Tool} {n : Nat}

theorem newcomers_eq_nil_iff (a : Agent) (ts : List Tool) :
    a.newcomers ts = [] ↔ ∀ t ∈ ts, t.name ∈ a.tools.names := by
  unfold newcomers
  rw [List.filter_eq_nil_iff]
  constructor
  · intro h t ht
    -- the first tool of the name is among the firsts
    obtain ⟨u, hu⟩ : ∃ u, ts.find? (fun u => u.name == t.name) = some u := by
      rw [← Option.isSome_iff_exists, List.find?_isSome]
      exact ⟨t, ht, beq_self_eq_true _⟩
    have hname : u.name = t.name := by simpa using List.find?_some hu
    rw [← find?_firsts] at hu
    simpa [hname] using h u (List.mem_of_find?_eq_some hu)
  · intro h t ht
    simpa using h t ((firsts_sublist ts).mem ht)

/-- The agent stays as it is exactly when nothing new is offered. -/
theorem Merges.eq_iff (h : a.tools.WF) (hm : a.Merges ts n b) : b = a ↔ a.newcomers ts = [] := by
  constructor
  · rintro rfl
    exact List.self_eq_append_right.1 hm.tools
  · intro hn
    have htools : b.tools.tools = a.tools.tools := by rw [hm.tools, hn, List.append_nil]
    rw [hm.agent, hm.wf.eq_of_tools h htools]

/-- Under a name the agent finds what it found before, and else the first tool of the name. -/
theorem Merges.get? (h : a.tools.WF) (hm : a.Merges ts n b) (name : String) :
    b.tools.get? name = (a.tools.get? name).or (ts.find? fun t => t.name == name) := by
  rw [hm.wf.get?_eq, h.get?_eq, hm.tools, List.find?_append]
  cases hf : a.tools.tools.find? fun t => t.name == name with
  | some t => rfl
  | none =>
    have hnew : name ∉ a.tools.names := by
      unfold Registry.names
      simpa [List.find?_eq_none] using hf
    rw [Option.none_or, Option.none_or, newcomers, List.find?_filter, ← find?_firsts]
    congr 1
    funext t
    by_cases ht : t.name = name
    · simp [ht, hnew]
    · simp [ht]

end Registries

/-! ## Presets -/

section Presets

variable {a b : Agent} {ts : List Tool} {n : Nat}

/-- The count that is given back is that of the tools that were taken. -/
theorem merges_registerAll_iff (h : a.tools.WF) :
    a.Merges ts n b ↔ a.taking ts = b ∧ (a.tools.registerAll ts).1 = n := by
  have hcount : (a.taking ts).tools.size - a.tools.size = (a.tools.registerAll ts).1 := by
    show (a.tools.registerAll ts).2.size - _ = _
    rw [Registry.registerAll_size, Nat.add_sub_cancel_left]
  rw [merges_iff h]
  constructor
  · rintro ⟨rfl, rfl⟩
    exact ⟨rfl, hcount.symm⟩
  · rintro ⟨rfl, rfl⟩
    exact ⟨rfl, hcount⟩

/-- A preset is added as a whole or not at all. It is not added exactly when it cannot be loaded,
and then the agent is as before. Otherwise the agent takes, in the order of the file, the tools of
new names, and finds under a name what it found before. -/
theorem addPreset_atomic (a : Agent) (h : a.tools.WF) (fs : Files) (dir preset : String)
    (auth : Option Http.Authenticator) :
    (∀ e b, a.addPreset fs dir preset auth = (.error e, b) ↔
      b = a ∧ ∃ d, Preset.load fs dir preset = .error d ∧ e = .definition d) ∧
    ∀ n b, a.addPreset fs dir preset auth = (.ok n, b) ↔
      ∃ ds ts, Preset.Defines fs dir preset ds ∧ List.Forall₂ (Definition.Builds auth) ds ts ∧
        a.Merges ts n b ∧
        ∀ name, b.tools.get? name = (a.tools.get? name).or (ts.find? fun t => t.name == name) := by
  constructor
  · intro e b
    cases hl : Preset.load fs dir preset with
    | error d =>
      rw [addPreset_of_error hl]
      constructor
      · rintro ⟨⟩
        exact ⟨rfl, d, rfl, rfl⟩
      · rintro ⟨rfl, _, ⟨⟩, rfl⟩
        rfl
    | ok ds =>
      obtain ⟨ts, -, hts⟩ := buildAll_ok auth fun d hd => (Preset.sound_load hl d hd).valid
      rw [addPreset_of_load hl hts]
      constructor
      · rintro ⟨⟩
      · rintro ⟨-, _, ⟨⟩, -⟩
  · intro n b
    constructor
    · intro hadd
      obtain ⟨ds, ts, hl, hts, -⟩ := addPreset_ok_iff.1 ⟨n, hadd⟩
      rw [addPreset_of_load hl hts] at hadd
      have hm : a.Merges ts n b := (merges_registerAll_iff h).2 (by
        cases hadd
        exact ⟨rfl, rfl⟩)
      exact ⟨ds, ts, Preset.load_eq_ok_iff.1 hl, hts, hm, hm.get? h⟩
    · rintro ⟨ds, ts, hd, hts, hm, -⟩
      obtain ⟨rfl, rfl⟩ := (merges_registerAll_iff h).1 hm
      exact addPreset_of_load (Preset.load_eq_ok_iff.2 hd) hts

/-- A file of three tools, two of them of one name, and an entry of a type that is not known. -/
def kit : Files :=
  let tool (name : String) : Json :=
    .obj [("type", .str "universal"), ("description", .obj [("name", .str name)])]
  { entries := [(["kit.json"], (Json.obj [("a", tool "clock"), ("b", tool "say"),
      ("c", .obj [("type", .str "graph")]), ("d", tool "say")]).text)]
    directories := [] }

/-- The agent keeps its clock and takes the first of the other tools; a file that is not there
changes nothing. -/
theorem kit_added :
    let a := fresh (.qwen "small" "Qwen") [.constant "clock" (.str "noon")]
    a.tools.WF ∧
      (∃ ds ts b, Preset.Defines kit "" "kit" ds ∧ List.Forall₂ (Definition.Builds none) ds ts ∧
        a.Merges ts 1 b ∧ b.tools.names = ["clock", "say"]) ∧
      (a.addPreset kit "" "tools" none).2 = a := by
  intro a
  have hwf : a.tools.WF := Registry.empty_wf.registerAll _
  have hrun : ((a.addPreset kit "" "kit" none).1.toOption,
      (a.addPreset kit "" "kit" none).2.tools.names) = (some 1, ["clock", "say"]) := by
    decide +kernel
  obtain ⟨hcount, hnames⟩ := Prod.mk.inj hrun
  have hname : Preset.isName "tools" = true := by decide +kernel
  have hread : kit.read? (Files.join "" ("tools" ++ "." ++ Preset.extension)) = none := by
    decide +kernel
  have hnone : Preset.load kit "" "tools" = .error (.unknownPreset "tools") := by
    simp only [Preset.load, hname, hread, if_true]
  obtain ⟨ds, ts, hd, hts, hm, -⟩ := ((addPreset_atomic a hwf kit "" "kit" none).2 1 _).1
    (Prod.ext (Command.ok_of_toOption hcount) rfl)
  have hfailed := ((addPreset_atomic a hwf kit "" "tools" none).1 _ a).2 ⟨rfl, _, hnone, rfl⟩
  exact ⟨hwf, ⟨ds, ts, _, hd, hts, hm, hnames⟩, congrArg Prod.snd hfailed⟩

end Presets

/-! ## Servers -/

/-- Whether an advertised tool has a schema that can be read. -/
def isUsable (t : Mcp.RemoteTool) : Bool :=
  match Parameters.decode t.inputSchema with
  | .ok _ => true
  | .error _ => false

/-- The wanted tools of a server that come before the first that cannot be used. -/
def handled (w : World) (server : Mcp.Server) (filter : Option (List String)) :
    List Mcp.RemoteTool :=
  match (Mcp.listTools w.connector w.serial server).1 with
  | .error _ => []
  | .ok listed => (listed.filter (passes filter)).takeWhile isUsable

section Servers

variable {a b : Agent} {w w' : World} {server : Mcp.Server} {e : Error}
  {filter : Option (List String)} {rs : List Mcp.RemoteTool} {ts : List Tool}

theorem isUsable_of_tool {r : Mcp.RemoteTool} {t : Tool} (h : r.tool server = .ok t) :
    isUsable r = true := by
  obtain ⟨hp⟩ := standsFor_iff.1 h
  simp only [isUsable, hp]

theorem isUsable_of_error {r : Mcp.RemoteTool} {d : Definition.Error}
    (h : r.tool server = .error d) : isUsable r = false := by
  unfold Mcp.RemoteTool.tool at h
  unfold isUsable
  split at h
  · rename_i hp
    rw [hp]
  · cases h

/-- Tools that are added one by one are registered up to the first that cannot be used. -/
theorem addRemotes_error (h : a.addRemotes server rs = (.error e, b)) :
    ∃ ts, List.Forall₂ (Mcp.RemoteTool.StandsFor server) (rs.takeWhile isUsable) ts ∧
      a.taking ts = b := by
  induction rs generalizing a with
  | nil => cases h
  | cons r rs ih =>
    unfold addRemotes addRemote at h
    cases hr : r.tool server with
    | error d =>
      rw [hr] at h
      cases h
      rw [List.takeWhile_cons_of_neg (by simp [isUsable_of_error hr])]
      exact ⟨[], .nil, rfl⟩
    | ok t =>
      rw [hr] at h
      obtain ⟨ts, hts, rfl⟩ := ih h
      rw [List.takeWhile_cons_of_pos (isUsable_of_tool hr)]
      exact ⟨t :: ts, .cons (standsFor_iff.1 hr) hts, (addTool_taking a t ts).symm⟩

theorem names_of_standsFor (h : List.Forall₂ (Mcp.RemoteTool.StandsFor server) rs ts) :
    ts.map Tool.name = rs.map Mcp.RemoteTool.name := by
  induction h with
  | nil => rfl
  | cons hs _ ih =>
    obtain ⟨-⟩ := hs
    exact congrArg _ ih

/-- Behind a failure the agent has the tools that were handled before it. It is as it was exactly
when the names of all of them were taken, as they are when the server could not be asked. -/
theorem failed_addServer_kept_iff (h : a.tools.WF)
    (hadd : a.addServer w server filter = (.error e, b, w')) :
    (∃ ts n, List.Forall₂ (Mcp.RemoteTool.StandsFor server) (handled w server filter) ts ∧
      a.Merges ts n b) ∧
    (b = a ↔ ∀ r ∈ handled w server filter, r.name ∈ a.tools.names) := by
  obtain ⟨ts, hts, htake⟩ : ∃ ts, List.Forall₂ (Mcp.RemoteTool.StandsFor server)
      (handled w server filter) ts ∧ a.taking ts = b := by
    unfold addServer World.listTools at hadd
    unfold handled
    rcases hl : Mcp.listTools w.connector w.serial server with ⟨_ | listed, asked⟩
    · rw [hl] at hadd
      cases hadd
      exact ⟨[], .nil, rfl⟩
    · rw [hl] at hadd
      dsimp only at hadd ⊢
      split at hadd
      · rename_i he
        cases hadd
        exact addRemotes_error he
      · cases hadd
  have hm := (merges_registerAll_iff h).2 ⟨htake, rfl⟩
  refine ⟨⟨ts, _, hts, hm⟩, ?_⟩
  rw [hm.eq_iff h, newcomers_eq_nil_iff]
  have hnames := names_of_standsFor hts
  have hall : (∀ t ∈ ts, t.name ∈ a.tools.names) ↔ ∀ k ∈ ts.map Tool.name, k ∈ a.tools.names := by
    simp
  rw [hall, hnames]
  simp

/-- A new world that reaches a server with some tools. -/
def worldListing (listed : List Mcp.RemoteTool) : World :=
  { World.scripted [] with
    connector := fun _ _ => .ok
      { handshake := .ok ()
        list := .ok listed
        call := fun _ _ => .error (.transport "any" "no calls")
        close := .ok () } }

/-- Three tools, of which the second cannot be used. -/
def brokenTrio : List Mcp.RemoteTool :=
  [⟨"a", none, .obj []⟩, ⟨"bad", none, .obj [("type", .str "array")]⟩, ⟨"c", none, .obj []⟩]

/-- An agent that has a tool of the first name stays as it is. -/
theorem brokenTrio_kept :
    let a := fresh (.qwen "small" "Qwen") [.constant "a" .null]
    let server : Mcp.Server := ⟨"fs-server", [], [], none⟩
    a.tools.WF ∧ ∃ e b w', a.addServer (worldListing brokenTrio) server none = (.error e, b, w') ∧
      b = a := by
  intro a server
  have hwf : a.tools.WF := Registry.empty_wf.registerAll _
  have hadd : a.addServer (worldListing brokenTrio) server none = (.error _, _, _) := rfl
  exact ⟨hwf, _, _, _, hadd, (failed_addServer_kept_iff hwf hadd).2.2 (by decide +kernel)⟩

/-- An agent without tools is left with the first. -/
theorem brokenTrio_left_behind :
    let a := fresh (.qwen "small" "Qwen") []
    let server : Mcp.Server := ⟨"fs-server", [], [], none⟩
    a.tools.WF ∧ ∃ e b w', a.addServer (worldListing brokenTrio) server none = (.error e, b, w') ∧
      a.tools.names = [] ∧ b.tools.names = ["a"] :=
  ⟨Registry.empty_wf, _, _, _, rfl, rfl, rfl⟩

end Servers

end Agent

end Parley
