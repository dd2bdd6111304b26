/-
Agents that are set up as a configuration says, and what is left outside when that fails. Setting up
goes step by step (`Config.steps`): the options, the component, the presets, the servers. Whether a
step fails is settled by the outside alone and not by the steps before it (`Config.Step.failure?`),
so a failed setup gives the error of the first step that fails, whatever the host says to the
deletion behind it. The component is deleted exactly when it was defined (`setup_balanced`).
-/
import Parley.Proofs.Agent.Equipment
import Parley.Proofs.Agent.Lifecycle

namespace Parley

/-! ## Steps -/

namespace Config

inductive Step where
  /-- The model is looked up and its attributes are checked. -/
  | options
  | component
  | preset (name : String)
  /-- The server at a place of the list is asked for its tools, and these are made. -/
  | server (place : Nat) (entry : Config.Entry)

/-- What is done to set up an agent, in order. -/
def steps (c : Config) : List Step :=
  .options :: .component ::
    (c.presets.map .preset ++ c.servers.zipIdx.map fun e => .server e.2 e.1)

def presetFailure? (c : Config) (fs : Files) (preset : String) : Option Parley.Error :=
  match Preset.load fs c.presetDir preset with
  | .ok _ => none
  | .error d => some (.definition d)

def remoteFailure? (server : Mcp.Server) (r : Mcp.RemoteTool) : Option Parley.Error :=
  match r.tool server with
  | .ok _ => none
  | .error d => some (.definition d)

/-- A server that is asked at a serial fails in the listing, or else with the first wanted tool that
cannot be used. -/
def serverFailure? (connector : Mcp.Connector) (serial : Nat) (e : Config.Entry) : Option Parley.Error :=
  match (Mcp.listTools connector serial e.server).1 with
  | .ok listed => (listed.filter (Agent.passes e.tools)).findSome? (remoteFailure? e.server)
  | .error f => some (.mcp f)

/-- The error that a step fails with in a world, if it fails. -/
def Step.failure? (c : Config) (fs : Files) (w : World) : Step → Option Parley.Error
  | .options =>
    match c.options.resolve with
    | .ok _ => none
    | .error d => some (.definition d)
  | .component =>
    match c.options.resolve with
    | .ok (m, attrs) =>
      match w.host.define w.serial m.componentType (w.freshId w.defined) attrs with
      | .ok () => none
      | .error e => some (.host e)
    | .error _ => none
  | .preset name => c.presetFailure? fs name
  -- the first server is asked right behind the component
  | .server place e => serverFailure? w.connector (w.serial + 1 + place) e

end Config

namespace Agent

open Config

/-! ## Adding tools -/

/-- What comes of steps that fail with the given error, if at all. -/
def ending : Option Error → Except Error Unit
  | none => .ok ()
  | some e => .error e

theorem ending_eq_ok_iff {f : Option Error} : ending f = .ok () ↔ f = none := by
  cases f <;> simp [ending]

theorem ending_eq_error_iff {f : Option Error} {e : Error} : ending f = .error e ↔ f = some e := by
  cases f <;> simp [ending]

section Adding

theorem addPresets_ending (c : Config) (fs : Files) (ps : List String) (a : Agent) :
    (addPresets c fs ps a).1 = ending (ps.findSome? (c.presetFailure? fs)) := by
  induction ps generalizing a with
  | nil => rfl
  | cons p ps ih =>
    unfold addPresets
    rw [List.findSome?_cons, presetFailure?]
    cases hl : Preset.load fs c.presetDir p with
    | error d =>
      rw [addPreset_of_error hl]
      rfl
    | ok ds =>
      -- what was loaded can be built
      obtain ⟨ts, -, hts⟩ := buildAll_ok (c.authenticator p)
        fun d hd => (Preset.sound_load hl d hd).valid
      rw [addPreset_of_load hl hts]
      exact ih _

theorem addRemotes_ending (server : Mcp.Server) (rs : List Mcp.RemoteTool) (a : Agent) :
    (a.addRemotes server rs).1 = ending (rs.findSome? (remoteFailure? server)) := by
  induction rs generalizing a with
  | nil => rfl
  | cons r rs ih =>
    unfold addRemotes addRemote
    rw [List.findSome?_cons, remoteFailure?]
    cases r.tool server with
    | error d => rfl
    | ok t => exact ih _

theorem addServer_ending (a : Agent) (w : World) (e : Config.Entry) :
    (a.addServer w e.server e.tools).1.map (fun _ => ()) =
      ending (serverFailure? w.connector w.serial e) := by
  unfold addServer World.listTools serverFailure?
  rcases Mcp.listTools w.connector w.serial e.server with ⟨f | listed, asked⟩
  · rfl
  · have hv := addRemotes_ending e.server (listed.filter (passes e.tools)) a
    dsimp only
    rw [← hv]
    rcases a.addRemotes e.server (listed.filter (passes e.tools)) with ⟨f | u, b⟩ <;> rfl

/-- Each server is asked at a serial of its own, which counts those before it. -/
theorem addServers_ending (serial place : Nat) (es : List Config.Entry) (a : Agent) (w : World)
    (hw : w.serial = serial + place) :
    (addServers es a w).1 = ending ((es.zipIdx place).findSome? fun e =>
      serverFailure? w.connector (serial + e.2) e.1) := by
  induction es generalizing a w place with
  | nil => rfl
  | cons e es ih =>
    have he := addServer_ending a w e
    have hworld := addServer_world a w e.server e.tools
    rw [listTools_world] at hworld
    rw [List.zipIdx_cons, List.findSome?_cons, ← hw]
    unfold addServers
    rcases hr : a.addServer w e.server e.tools with ⟨f | listed, b, w'⟩
    · rw [hr] at he
      rw [ending_eq_error_iff.1 he.symm]
      rfl
    · rw [hr] at he hworld
      subst hworld
      rw [ending_eq_ok_iff.1 he.symm]
      exact ih (place + 1) b _ (congrArg (· + 1) hw)

/-- The tools of a configuration are added up to the first preset or server that fails. -/
theorem addConfigured_ending (a : Agent) (w : World) (fs : Files) (c : Config) :
    (a.addConfigured w fs c).1.map (fun _ => ()) =
      ending ((c.presets.findSome? (c.presetFailure? fs)).or
        (c.servers.zipIdx.findSome? fun e => serverFailure? w.connector (w.serial + e.2) e.1)) := by
  have hp := addPresets_ending c fs c.presets a
  unfold addConfigured
  dsimp only
  rcases hr : addPresets c fs c.presets a with ⟨e | u, b⟩
  · rw [hr] at hp
    rw [ending_eq_error_iff.1 hp.symm]
    rfl
  · rw [hr] at hp
    have hs := addServers_ending w.serial 0 c.servers b w rfl
    rw [ending_eq_ok_iff.1 hp.symm, Option.none_or, ← hs]
    dsimp only
    rcases addServers c.servers b w with ⟨e | u, b', w'⟩ <;> rfl

theorem addServers_rests (es : List Config.Entry) (a : Agent) (w : World) :
    (addServers es a w).2.1.component = a.component ∧ (addServers es a w).2.2.log = w.log := by
  induction es generalizing a w with
  | nil => exact ⟨rfl, rfl⟩
  | cons e es ih =>
    obtain ⟨hc, hl⟩ := enlist_component a w e.server e.tools
    unfold addServers
    rcases hr : a.addServer w e.server e.tools with ⟨f | listed, b, w'⟩
    all_goals rw [hr] at hc hl
    · exact ⟨hc, hl⟩
    · obtain ⟨hc', hl'⟩ := ih b w'
      exact ⟨hc'.trans hc, hl'.trans hl⟩

/-- To add tools asks nothing of the host, and the handle of the component stays as it is. -/
theorem addConfigured_rests (a : Agent) (w : World) (fs : Files) (c : Config) :
    (a.addConfigured w fs c).2.1.component = a.component ∧
      (a.addConfigured w fs c).2.2.log = w.log := by
  obtain ⟨tools, ht⟩ := addPresets_agent c fs c.presets a
  unfold addConfigured
  dsimp only
  rcases hp : addPresets c fs c.presets a with ⟨e | u, b⟩
  all_goals
    rw [hp] at ht
    cases ht
  · exact ⟨rfl, rfl⟩
  · have hs := addServers_rests c.servers { a with tools } w
    dsimp only
    rcases hr : addServers c.servers { a with tools } w with ⟨e | u, b, w'⟩
    all_goals
      rw [hr] at hs
      exact hs

end Adding

/-! ## The whole setup -/

section Setup

variable {w w₁ : World} {c : Config} {a : Agent}

theorem define_ending (w : World) (fs : Files) (c : Config) :
    (define w c.options).1.map (fun _ => ()) =
      ending ((Step.failure? c fs w .options).or (Step.failure? c fs w .component)) := by
  unfold define Step.failure?
  rcases c.options.resolve with d | ⟨m, attrs⟩
  · rfl
  · dsimp only
    unfold Component.define World.define
    cases hd : w.host.define w.serial m.componentType (w.freshId w.defined) attrs with
    | error e =>
      simp only [hd]
      rfl
    | ok u =>
      simp only [hd]
      rfl

theorem steps_failure (w : World) (fs : Files) (c : Config) :
    c.steps.findSome? (Step.failure? c fs w) =
      ((Step.failure? c fs w .options).or (Step.failure? c fs w .component)).or
        ((c.presets.findSome? (c.presetFailure? fs)).or (c.servers.zipIdx.findSome? fun e =>
          serverFailure? w.connector (w.serial + 1 + e.2) e.1)) := by
  unfold steps
  rw [List.findSome?_cons, List.findSome?_cons, List.findSome?_append, List.findSome?_map,
    List.findSome?_map]
  cases Step.failure? c fs w .options with
  | some e => rfl
  | none =>
    cases Step.failure? c fs w .component with
    | some e => rfl
    | none => rfl

/-- A setup fails with the error of the first step that fails. -/
theorem ofConfig_ending (w : World) (fs : Files) (c : Config) :
    (ofConfig w fs c).1.map (fun _ => ()) = ending (c.steps.findSome? (Step.failure? c fs w)) := by
  have hd := define_ending w fs c
  rw [steps_failure]
  unfold ofConfig
  rcases hr : define w c.options with ⟨e | a, w₁⟩
  · rw [hr] at hd
    rw [ending_eq_error_iff.1 hd.symm]
    rfl
  · rw [hr] at hd
    rw [ending_eq_ok_iff.1 hd.symm, Option.none_or]
    have ha := addConfigured_ending a w₁ fs c
    obtain ⟨attrs, -, -, -, rfl⟩ := define_ok hr
    refine Eq.trans ?_ ha
    dsimp only
    rcases a.addConfigured _ fs c with ⟨e | n, b, w'⟩ <;> rfl

section Define

variable {m : Model} {attrs : Json} {o : Options}

theorem define_refused (hr : o.resolve = .ok (m, attrs)) {e : Host.Error}
    (hd : w.host.define w.serial m.componentType (w.freshId w.defined) attrs = .error e) :
    ∃ w₁, define w o = (.error (.host e), w₁) ∧
      w₁.log = w.log ++ [.define m.componentType (w.freshId w.defined) attrs] := by
  unfold define Component.define World.define
  simp only [hr, hd, Except.map]
  exact ⟨_, rfl, rfl⟩

theorem define_agreed (hr : o.resolve = .ok (m, attrs))
    (hd : w.host.define w.serial m.componentType (w.freshId w.defined) attrs = .ok ()) :
    ∃ a w₁, define w o = (.ok a, w₁) ∧
      a.component = ⟨w.freshId w.defined, m.componentType, true⟩ ∧
      w₁.log = w.log ++ [.define m.componentType (w.freshId w.defined) attrs] := by
  unfold define Component.define World.define
  simp only [hr, hd, Except.map]
  exact ⟨_, _, rfl, rfl, rfl⟩

end Define

/-- An agent that is deleted and given up has its component deleted once. -/
theorem delete_drop_log (hv : a.isValid = true) :
    ((a.delete w).2.1.drop (a.delete w).2.2).log = w.log ++ [.delete a.component.id] := by
  have hc : a.component.valid = true := hv
  unfold delete
  rw [if_pos hv]
  unfold Component.delete
  rw [if_pos hc]
  rfl

/-- An agent that was defined is given up again exactly when it cannot get its tools. -/
theorem ofConfig_of_define (fs : Files) (hd : define w c.options = (.ok a, w₁)) :
    (∃ b w₂, ofConfig w fs c = (.ok b, w₂) ∧ b.component = a.component ∧ w₂.log = w₁.log) ∨
      ∃ e w₂, ofConfig w fs c = (.error e, w₂) ∧ w₂.log = w₁.log ++ [.delete a.component.id] := by
  obtain ⟨hc, hl⟩ := addConfigured_rests a w₁ fs c
  have hv : a.isValid = true := by
    obtain ⟨-, -, -, ha, -⟩ := define_ok hd
    rw [ha]
    rfl
  unfold ofConfig
  rw [hd]
  dsimp only
  rcases hr : a.addConfigured w₁ fs c with ⟨e | n, b, w₂⟩
  all_goals rw [hr] at hc hl
  · right
    have hvb : b.isValid = true := (congrArg Component.valid hc).trans hv
    refine ⟨e, _, rfl, (delete_drop_log hvb).trans ?_⟩
    rw [hc, hl]
  · left
    exact ⟨b, w₂, rfl, hc, hl⟩

theorem ofConfig_error_iff {fs : Files} {e : Error} : (ofConfig w fs c).1 = .error e ↔
    c.steps.findSome? (Step.failure? c fs w) = some e := by
  rw [← ending_eq_error_iff, ← ofConfig_ending w fs c]
  cases (ofConfig w fs c).1 <;> simp [Except.map]

/-- No step looks at what the host says to a deletion. -/
theorem failure_deleting (w : World) (fs : Files) (c : Config)
    (delete : Nat → String → Except Host.Error Unit) :
    Step.failure? c fs { w with host := { w.host with delete } } = Step.failure? c fs w := by
  funext s
  cases s <;> rfl

section Configured

variable {m : Model} {attrs : Json} (fs : Files)

theorem ofConfig_refused (hr : c.options.resolve = .ok (m, attrs)) {e : Host.Error}
    (hd : w.host.define w.serial m.componentType (w.freshId w.defined) attrs = .error e) :
    ∃ w₁, ofConfig w fs c = (.error (.host e), w₁) ∧
      w₁.log = w.log ++ [.define m.componentType (w.freshId w.defined) attrs] := by
  obtain ⟨w₁, hdef, hl⟩ := define_refused hr hd
  unfold ofConfig
  rw [hdef]
  exact ⟨w₁, rfl, hl⟩

theorem ofConfig_agreed (hr : c.options.resolve = .ok (m, attrs))
    (hd : w.host.define w.serial m.componentType (w.freshId w.defined) attrs = .ok ()) :
    (∃ b w₂, ofConfig w fs c = (.ok b, w₂) ∧
        b.component = ⟨w.freshId w.defined, m.componentType, true⟩ ∧
        w₂.log = w.log ++ [.define m.componentType (w.freshId w.defined) attrs]) ∨
      ∃ e w₂, ofConfig w fs c = (.error e, w₂) ∧
        w₂.log = w.log ++ [.define m.componentType (w.freshId w.defined) attrs,
          .delete (w.freshId w.defined)] := by
  obtain ⟨a, w₁, hdef, ha, hl⟩ := define_agreed hr hd
  rcases ofConfig_of_define fs hdef with ⟨b, w₂, hof, hb, hl₂⟩ | ⟨e, w₂, hof, hl₂⟩
  · exact .inl ⟨b, w₂, hof, hb.trans ha, hl₂.trans hl⟩
  · refine .inr ⟨e, w₂, hof, ?_⟩
    rw [hl₂, hl, ha, List.append_assoc]
    rfl

/-- An agent is set up only with options that can be used, and when the host agrees. -/
theorem agreed_of_ofConfig {b : Agent} (h : (ofConfig w fs c).1 = .ok b) :
    ∃ m attrs, c.options.resolve = .ok (m, attrs) ∧
      w.host.define w.serial m.componentType (w.freshId w.defined) attrs = .ok () := by
  rcases hr : c.options.resolve with d | ⟨m, attrs⟩
  · unfold ofConfig define at h
    rw [hr] at h
    cases h
  · cases hd : w.host.define w.serial m.componentType (w.freshId w.defined) attrs with
    | error e =>
      obtain ⟨w₁, hof, -⟩ := ofConfig_refused fs hr hd
      rw [hof] at h
      cases h
    | ok u => exact ⟨m, attrs, rfl, hd⟩

end Configured

/-- What a setup leaves behind, whether it succeeds or not. -/
structure Balanced (w : World) (fs : Files) (c : Config) (r : Except Error Agent) (w' : World) :
    Prop where
  /-- It fails with the error of the first step that fails, -/
  failed : ∀ e, r = .error e ↔ c.steps.findSome? (Step.failure? c fs w) = some e
  /-- also when the host answers otherwise to deletions. -/
  anyhow : ∀ delete e, (ofConfig { w with host := { w.host with delete } } fs c).1 = .error e ↔
    r = .error e
  /-- With options that cannot be used, nothing is asked at all. -/
  unasked : ∀ d, c.options.resolve = .error d → w' = w
  /-- A component that the host refuses is not deleted, -/
  refused : ∀ m attrs e, c.options.resolve = .ok (m, attrs) →
    w.host.define w.serial m.componentType (w.freshId w.defined) attrs = .error e →
    w'.log = w.log ++ [.define m.componentType (w.freshId w.defined) attrs]
  /-- and one that it defined is deleted once if a later step fails. -/
  released : ∀ m attrs e, c.options.resolve = .ok (m, attrs) →
    w.host.define w.serial m.componentType (w.freshId w.defined) attrs = .ok () → r = .error e →
    w'.log = w.log ++ [.define m.componentType (w.freshId w.defined) attrs,
      .delete (w.freshId w.defined)]
  /-- Otherwise it belongs to the agent. -/
  kept : ∀ a, r = .ok a → ∃ m attrs, c.options.resolve = .ok (m, attrs) ∧
    w.host.define w.serial m.componentType (w.freshId w.defined) attrs = .ok () ∧
    a.component = ⟨w.freshId w.defined, m.componentType, true⟩ ∧
    w'.log = w.log ++ [.define m.componentType (w.freshId w.defined) attrs]

/-- Nothing that a setup acquires is left behind when it fails. -/
theorem setup_balanced (w : World) (fs : Files) (c : Config) :
    Balanced w fs c (ofConfig w fs c).1 (ofConfig w fs c).2 := by
  constructor
  case failed => exact fun e => ofConfig_error_iff
  case anyhow =>
    intro delete e
    rw [ofConfig_error_iff, ofConfig_error_iff, failure_deleting]
  case unasked =>
    intro d hd
    unfold ofConfig define
    rw [hd]
  case refused =>
    intro m attrs e hr hd
    obtain ⟨w₁, hof, hl⟩ := ofConfig_refused fs hr hd
    rw [hof]
    exact hl
  case released =>
    intro m attrs e hr hd he
    rcases ofConfig_agreed fs hr hd with ⟨b, w₂, hof, -⟩ | ⟨e', w₂, hof, hl⟩
    · rw [hof] at he
      cases he
    · rw [hof]
      exact hl
  case kept =>
    intro b hb
    obtain ⟨m, attrs, hr, hd⟩ := agreed_of_ofConfig fs hb
    rcases ofConfig_agreed fs hr hd with ⟨b', w₂, hof, hc, hl⟩ | ⟨e, w₂, hof, -⟩
    all_goals
      rw [hof] at hb ⊢
      cases hb
    exact ⟨m, attrs, hr, hd, hc, hl⟩

/-- The error of a server that is not there comes through, although the host cannot delete. -/
example :
    let c : Config := { Config.default fun _ => none with
      model := "qwen3-0.6b", servers := [⟨"maps", ⟨"maps", [], [], none⟩, none⟩] }
    ∃ w, ofConfig busyWorld ⟨[], []⟩ c = (.error (.mcp (.transport "any" "no server")), w) ∧
      w.log = [.define "tvm_language_model" "component"
          (.obj [("model", .str "Qwen/Qwen3-0.6B")]), .delete "component"] :=
  ⟨_, rfl, rfl⟩

end Setup

end Agent

end Parley
