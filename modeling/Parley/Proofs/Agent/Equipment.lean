/-
The tools that an agent gets from a configuration. The presets and then the tool servers of the
configuration offer tools, each in its order (`Offers`); the agent keeps what it has, and of the
offered tools it takes the first of every name that it has no tool of (`configured_tools_merged`).

Presets and servers are taken up one after the other, and each of them tool by tool. All of that is
one registration of the whole offer, because registering lists one behind the other is registering
them joined (`Registry.registerAll_append`). So the proof goes source by source, and what becomes of
names that several sources have is settled once, for the joined list (`WF.registerAll_tools`).
-/
import Parley.Agent.Setup
import Parley.Proofs.Agent.Script
import Parley.Proofs.Command.Plan
import Parley.Proofs.Tool.Built
import Parley.Proofs.Tool.Upkeep

namespace Parley

open Tool

/-! ## What is offered -/

/-- A tool stands for one that a server advertises. -/
inductive Mcp.RemoteTool.StandsFor (server : Mcp.Server) : Mcp.RemoteTool → Tool → Prop
  | remote {t : Mcp.RemoteTool} {parameters : Parameters} :
    Parameters.decode t.inputSchema = .ok parameters →
    StandsFor server t (.remote ⟨t.name, t.description.getD "", parameters, none⟩ server)

namespace Agent

/-- The tools of some presets; those that make requests carry the credentials of their preset. -/
inductive Holds (c : Config) (fs : Files) : List String → List Tool → Prop
  | nil : Holds c fs [] []
  | cons {preset : String} {presets : List String} {ds : List Definition} {ts us : List Tool} :
    Preset.load fs c.presetDir preset = .ok ds →
    List.Forall₂ (Definition.Builds ((c.auth.get? preset).map fun a => .bearer a.token a.format)) ds ts →
    Holds c fs presets us → Holds c fs (preset :: presets) (ts ++ us)

/-- The tools that some servers list when they are asked one after the other, less those that the
configuration does not want. -/
inductive Lists (connector : Mcp.Connector) : Nat → List Config.Entry → List Tool → Prop
  | nil {serial : Nat} : Lists connector serial [] []
  | cons {serial : Nat} {e : Config.Entry} {es : List Config.Entry} {listed : List Mcp.RemoteTool}
    {ts us : List Tool} :
    (Mcp.listTools connector serial e.server).1 = .ok listed →
    List.Forall₂ (Mcp.RemoteTool.StandsFor e.server)
      (listed.filter fun t => e.tools.all fun names => names.contains t.name) ts →
    Lists connector (serial + 1) es us → Lists connector serial (e :: es) (ts ++ us)

/-- All that a configuration offers: the tools of its presets, and then those of its servers. -/
def Offers (c : Config) (fs : Files) (w : World) (ts : List Tool) : Prop :=
  ∃ held listed, Holds c fs c.presets held ∧ Lists w.connector w.serial c.servers listed ∧
    ts = held ++ listed

/-! ## One source after the other -/

/-- The agent with some tools registered behind those that it has. -/
def taking (a : Agent) (ts : List Tool) : Agent :=
  { a with tools := (a.tools.registerAll ts).2 }

theorem taking_taking (a : Agent) (ts us : List Tool) :
    (a.taking ts).taking us = a.taking (ts ++ us) := by
  unfold taking
  rw [Registry.registerAll_append]

/-- A tool that is added is registered before the others. -/
theorem addTool_taking (a : Agent) (t : Tool) (ts : List Tool) :
    (a.addTool t).2.taking ts = a.taking (t :: ts) := by
  unfold taking
  rw [Registry.registerAll_cons]
  rfl

section Presets

variable {c : Config} {fs : Files} {a b : Agent}

/-- A preset is added when all of it can be built, and then all of it is registered. -/
theorem addPreset_ok_iff {auth : Option Http.Authenticator} {dir preset : String} :
    (∃ n, a.addPreset fs dir preset auth = (.ok n, b)) ↔
      ∃ ds ts, Preset.load fs dir preset = .ok ds ∧
        List.Forall₂ (Definition.Builds auth) ds ts ∧ a.taking ts = b := by
  cases hl : Preset.load fs dir preset with
  | error e =>
    rw [addPreset_of_error hl]
    constructor
    · rintro ⟨n, h⟩
      cases h
    · rintro ⟨ds, ts, hds, -⟩
      cases hds
  | ok ds =>
    constructor
    · rintro ⟨n, h⟩
      obtain ⟨ts, -, hts⟩ := buildAll_ok auth fun d hd => (Preset.sound_load hl d hd).valid
      rw [addPreset_of_load hl hts] at h
      cases h
      exact ⟨ds, ts, rfl, hts, rfl⟩
    · rintro ⟨ds', ts, hds, hts, rfl⟩
      cases hds
      exact ⟨_, addPreset_of_load hl hts⟩

theorem addPresets_ok_iff {presets : List String} :
    addPresets c fs presets a = (.ok (), b) ↔ ∃ ts, Holds c fs presets ts ∧ a.taking ts = b := by
  induction presets generalizing a with
  | nil =>
    constructor
    · rintro ⟨⟩
      exact ⟨[], .nil, rfl⟩
    · rintro ⟨ts, ⟨⟩, rfl⟩
      rfl
  | cons p ps ih =>
    unfold addPresets
    constructor
    · intro h
      split at h
      · cases h
      · rename_i n a' ha
        obtain ⟨us, hus, rfl⟩ := ih.1 h
        obtain ⟨ds, ts, hl, hts, rfl⟩ := addPreset_ok_iff.1 ⟨n, ha⟩
        exact ⟨ts ++ us, .cons hl hts hus, (taking_taking a ts us).symm⟩
    · rintro ⟨_, hh, rfl⟩
      cases hh with
      | @cons _ _ ds ts us hl hts hus =>
        obtain ⟨n, ha⟩ := addPreset_ok_iff.2 ⟨ds, ts, hl, hts, (rfl : a.taking ts = _)⟩
        unfold Config.authenticator
        rw [ha]
        exact ih.2 ⟨us, hus, taking_taking a ts us⟩

end Presets

section Servers

variable {a b : Agent} {w : World}

theorem standsFor_iff {server : Mcp.Server} {r : Mcp.RemoteTool} {t : Tool} :
    r.tool server = .ok t ↔ r.StandsFor server t := by
  unfold Mcp.RemoteTool.tool
  cases hp : Parameters.decode r.inputSchema with
  | error e =>
    constructor
    · intro h
      cases h
    · rintro ⟨h⟩
      rw [hp] at h
      cases h
  | ok parameters =>
    constructor
    · rintro ⟨⟩
      exact .remote hp
    · rintro ⟨h⟩
      rw [hp] at h
      cases h
      rfl

theorem addRemotes_ok_iff {server : Mcp.Server} {rs : List Mcp.RemoteTool} :
    a.addRemotes server rs = (.ok (), b) ↔
      ∃ ts, List.Forall₂ (Mcp.RemoteTool.StandsFor server) rs ts ∧ a.taking ts = b := by
  induction rs generalizing a with
  | nil =>
    constructor
    · rintro ⟨⟩
      exact ⟨[], .nil, rfl⟩
    · rintro ⟨ts, ⟨⟩, rfl⟩
      rfl
  | cons r rs ih =>
    unfold addRemotes addRemote
    cases hr : r.tool server with
    | error e =>
      constructor
      · intro h
        cases h
      · rintro ⟨_, hf, -⟩
        cases hf with
        | cons hs _ =>
          rw [standsFor_iff.2 hs] at hr
          cases hr
    | ok t =>
      constructor
      · intro h
        obtain ⟨us, hus, rfl⟩ := ih.1 h
        exact ⟨t :: us, .cons (standsFor_iff.1 hr) hus, (addTool_taking a t us).symm⟩
      · rintro ⟨_, hf, rfl⟩
        cases hf with
        | cons hs hus =>
          rw [standsFor_iff.2 hs] at hr
          cases hr
          exact ih.2 ⟨_, hus, addTool_taking a _ _⟩

theorem passes_eq (filter : Option (List String)) :
    passes filter = fun t => filter.all fun names => names.contains t.name := by
  funext t
  cases filter <;> rfl

/-- Of a server all tools are added that are wanted, or the server is at fault. -/
theorem addServer_ok_iff {server : Mcp.Server} {filter : Option (List String)} {w' : World} :
    (∃ listed, a.addServer w server filter = (.ok listed, b, w')) ↔
      ∃ listed ts, (Mcp.listTools w.connector w.serial server).1 = .ok listed ∧
        List.Forall₂ (Mcp.RemoteTool.StandsFor server)
          (listed.filter fun t => filter.all fun names => names.contains t.name) ts ∧
        a.taking ts = b ∧ w.notingSession (Mcp.listTools w.connector w.serial server).2 = w' := by
  unfold addServer World.listTools
  rw [← passes_eq]
  rcases Mcp.listTools w.connector w.serial server with ⟨e | listed, asked⟩
  · constructor
    · rintro ⟨listed, h⟩
      cases h
    · rintro ⟨listed, ts, h, -⟩
      cases h
  · constructor
    · rintro ⟨listed', h⟩
      dsimp only at h
      split at h
      · cases h
      · rename_i a' ha
        cases h
        obtain ⟨ts, hts, rfl⟩ := addRemotes_ok_iff.1 ha
        exact ⟨listed, ts, rfl, hts, rfl, rfl⟩
    · rintro ⟨listed', ts, hl, hts, rfl, rfl⟩
      cases hl
      have ha := addRemotes_ok_iff.2 ⟨ts, hts, (rfl : a.taking ts = _)⟩
      dsimp only
      rw [ha]
      exact ⟨_, rfl⟩

theorem addServers_ok_iff {es : List Config.Entry} :
    (∃ w', addServers es a w = (.ok (), b, w')) ↔
      ∃ ts, Lists w.connector w.serial es ts ∧ a.taking ts = b := by
  induction es generalizing a w with
  | nil =>
    constructor
    · rintro ⟨w', ⟨⟩⟩
      exact ⟨[], .nil, rfl⟩
    · rintro ⟨ts, ⟨⟩, rfl⟩
      exact ⟨w, rfl⟩
  | cons e es ih =>
    unfold addServers
    constructor
    · rintro ⟨w', h⟩
      split at h
      · cases h
      · rename_i listed a' w₁ ha
        obtain ⟨us, hus, rfl⟩ := ih.1 ⟨w', h⟩
        obtain ⟨_, ts, hl, hts, rfl, rfl⟩ := addServer_ok_iff.1 ⟨listed, ha⟩
        exact ⟨ts ++ us, .cons hl hts hus, (taking_taking a ts us).symm⟩
    · rintro ⟨_, hh, rfl⟩
      cases hh with
      | @cons _ _ _ listed ts us hl hts hus =>
        obtain ⟨answer, ha⟩ :=
          addServer_ok_iff.2 ⟨listed, ts, hl, hts, (rfl : a.taking ts = _), rfl⟩
        rw [ha]
        exact ih.2 ⟨us, hus, taking_taking a ts us⟩

end Servers

/-! ## The whole configuration -/

/-- Of some tools the first of every name that an agent has no tool of. -/
def newcomers (a : Agent) (ts : List Tool) : List Tool :=
  (firsts ts).filter fun t => t.name ∉ a.tools.names

/-- What becomes of an agent that is offered some tools. -/
structure Merges (a : Agent) (ts : List Tool) (n : Nat) (b : Agent) : Prop where
  /-- Behind the tools that it has come the newcomers. -/
  tools : b.tools.tools = a.tools.tools ++ a.newcomers ts
  count : n = (a.newcomers ts).length
  wf : b.tools.WF
  /-- Nothing but the tools changes. -/
  agent : b = { a with tools := b.tools }

theorem merges_iff {a b : Agent} {ts : List Tool} {n : Nat} (h : a.tools.WF) :
    a.Merges ts n b ↔ a.taking ts = b ∧ b.tools.size - a.tools.size = n := by
  have ht : (a.taking ts).tools.tools = a.tools.tools ++ a.newcomers ts := h.registerAll_tools ts
  have hw : (a.taking ts).tools.WF := h.registerAll ts
  have hsize {b : Agent} (hb : b.tools.tools = a.tools.tools ++ a.newcomers ts) :
      b.tools.size - a.tools.size = (a.newcomers ts).length := by
    unfold Registry.size
    rw [hb, List.length_append, Nat.add_sub_cancel_left]
  constructor
  · intro hm
    -- the list settles the index, so a registry with these tools is the one that was made
    have heq : (a.taking ts).tools = b.tools := hw.eq_of_tools hm.wf (ht.trans hm.tools.symm)
    refine ⟨?_, (hsize hm.tools).trans hm.count.symm⟩
    rw [hm.agent, ← heq]
    rfl
  · rintro ⟨rfl, rfl⟩
    exact ⟨ht, hsize ht, hw, rfl⟩

/-- An agent gets the tools of a configuration exactly when all that it offers can be used, and
then it takes the newcomers among them. -/
theorem configured_tools_merged (a : Agent) (w : World) (fs : Files) (c : Config) (h : a.tools.WF)
    (n : Nat) (b : Agent) :
    (∃ w', a.addConfigured w fs c = (.ok n, b, w')) ↔
      ∃ ts, Offers c fs w ts ∧ a.Merges ts n b := by
  unfold addConfigured
  constructor
  · rintro ⟨w', hadd⟩
    dsimp only at hadd
    split at hadd
    · cases hadd
    · rename_i a₁ hp
      split at hadd
      · cases hadd
      · rename_i a₂ w₂ hs
        cases hadd
        obtain ⟨held, hheld, rfl⟩ := addPresets_ok_iff.1 hp
        obtain ⟨listed, hlisted, rfl⟩ := addServers_ok_iff.1 ⟨_, hs⟩
        exact ⟨held ++ listed, ⟨held, listed, hheld, hlisted, rfl⟩,
          (merges_iff h).2 ⟨(taking_taking a held listed).symm, rfl⟩⟩
  · rintro ⟨_, ⟨held, listed, hheld, hlisted, rfl⟩, hm⟩
    obtain ⟨rfl, rfl⟩ := (merges_iff h).1 hm
    have hp := addPresets_ok_iff.2 ⟨held, hheld, (rfl : a.taking held = _)⟩
    obtain ⟨w', hs⟩ := addServers_ok_iff.2 ⟨listed, hlisted, taking_taking a held listed⟩
    refine ⟨w', ?_⟩
    dsimp only
    rw [hp]
    dsimp only
    rw [hs]

/-- The desk with a server that lists tools of names that are taken, and one that is not wanted. -/
def deskWithMaps : Config :=
  { Command.deskConfig "one 1" "Token" with
    presets := ["films"]
    servers := [⟨"maps", ⟨"maps", [], [], none⟩, some ["clock", "find", "route"]⟩] }

/-- A new world that reaches the server. -/
def worldWithMaps : World :=
  { World.scripted [] with
    connector := fun _ _ => .ok
      { handshake := .ok ()
        list := .ok (["clock", "route", "find", "zoom"].map fun name => ⟨name, none, .obj []⟩)
        call := fun _ _ => .error (.transport "maps" "no calls")
        close := .ok () } }

/-- The agent keeps its clock, searches with the credentials of the preset and gets the route. -/
theorem taken_names_kept :
    let a := fresh (.qwen "small" "Qwen") [.constant "clock" (.str "noon")]
    a.tools.WF ∧ ∃ ts b, Offers deskWithMaps (Command.desk "one 1" "Token").files worldWithMaps ts ∧
      a.Merges ts 2 b ∧ b.tools.names = ["clock", "find", "route"] := by
  intro a
  have hwf : a.tools.WF := Registry.empty_wf.registerAll _
  have hn : (a.addConfigured worldWithMaps (Command.desk "one 1" "Token").files deskWithMaps).1 =
    .ok 2 := Command.ok_of_toOption (by decide +kernel)
  obtain ⟨ts, hts, hm⟩ := (configured_tools_merged a worldWithMaps
    (Command.desk "one 1" "Token").files deskWithMaps hwf 2 _).1 ⟨_, Prod.ext hn rfl⟩
  exact ⟨hwf, ts, _, hts, hm, by decide +kernel⟩

end Agent

end Parley
