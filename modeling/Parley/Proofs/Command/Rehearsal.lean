/-
A plan as a rehearsal of a call. The command looks for the first definition of a name in a preset
and makes a request of it; an agent builds all definitions of the preset, registers them and looks
the tool up when it is called. Both come to the same: what is planned is what is sent, and a tool
that a plan does not find the agent does not find either (`plan_rehearses`).

The two ways meet in the list of definitions. Everything that is loaded is valid, so all of it can
be built (`buildAll_ok`), and the first tool of a name is built from the first definition of that
name (`find?_built`).
-/
import Parley.Proofs.Agent.Script
import Parley.Proofs.Command.Plan
import Parley.Proofs.Tool.Built
import Parley.Proofs.Tool.Registry

namespace Parley

open Http

namespace Agent

variable {auth : Option Authenticator} {ds : List Definition} {ts : List Tool}

/-- The first tool of a name is built from the first definition of that name. -/
theorem find?_built (h : List.Forall₂ (Definition.Builds auth) ds ts) (name : String) :
    Option.Rel (Definition.Builds auth) (ds.find? fun d => d.name = name)
      (ts.find? fun t => t.name == name) := by
  induction h with
  | nil => exact .none
  | @cons d t ds ts hb _ ih =>
    rw [List.find?_cons, List.find?_cons, hb.name]
    by_cases hd : d.name = name
    · simp only [hd, decide_true, beq_self_eq_true]
      exact .some hb
    · simp only [hd, decide_false, beq_eq_false_iff_ne.2 hd]
      exact ih

/-- A preset that can be loaded can be added, and under a name the agent finds the tool of the
first definition of that name. -/
theorem addPreset_ok {fs : Files} {dir preset : String} (hl : Preset.load fs dir preset = .ok ds)
    {a : Agent} (ha : a.tools = .empty) (auth : Option Authenticator) :
    ∃ n b, a.addPreset fs dir preset auth = (.ok n, b) ∧
      ∀ name, Option.Rel (Definition.Builds auth) (ds.find? fun d => d.name = name)
        (b.tools.get? name) := by
  obtain ⟨ts, -, hbs⟩ := buildAll_ok auth fun d hd => (Preset.sound_load hl d hd).valid
  refine ⟨_, _, addPreset_of_load hl hbs, fun name => ?_⟩
  have hget : ((a.tools.registerAll ts).2).get? name = ts.find? fun t => t.name == name := by
    rw [ha]
    exact Tool.Registry.get?_ofTools ts name
  exact hget ▸ find?_built hbs name

/-! ## A call on its own -/

theorem dispatch_one (a : Agent) (w : World) (c : ToolCall) :
    a.dispatch w [c] =
      ([.of c (a.perform w 0 c).completion], w.notingBatch [a.perform w 0 c]) := rfl

theorem perform_rest {a : Agent} {c : ToolCall} {d : Tool.Description} {b : Definition.Rest}
    {path : Option OutputPath} (h : a.tools.get? c.name = some (.rest d b path auth)) (w : World)
    (i : Nat) :
    ∃ completion, a.perform w i c =
      ⟨completion, [.call Host.httpRequest (b.request auth c.arguments).toJson], [], []⟩ := by
  unfold perform Tool.Registry.find
  rw [h]
  exact ⟨_, rfl⟩

theorem perform_missing {a : Agent} {c : ToolCall} (h : a.tools.get? c.name = none) (w : World)
    (i : Nat) : a.perform w i c = .failed (.notFound c.name) := by
  unfold perform Tool.Registry.find
  rw [h]

end Agent

namespace Command

/-! ## What is planned -/

/-- The request of a plan before its credentials are hidden. -/
def planned (fs : Files) (dir preset tool : String) (auth : Option Authenticator)
    (args : Arguments) : Except Error Http.Request :=
  match Preset.load fs dir preset with
  | .error e => .error (.definition e)
  | .ok ds =>
    match ds.find? fun d => d.name = tool with
    | none => .error (.noTool preset tool)
    | some d => (d.request auth args).mapError .definition

section Planned

variable {c : Context} {g : Config} {preset tool : String} {args dir : Option String}

theorem planRequest_planned (h : c.config = .ok g) {as : Arguments}
    (ha : readArguments args = .ok as) :
    planRequest c preset tool args dir =
      (planned c.files (dir.getD g.presetDir) preset tool (g.authenticator preset) as).map
        fun r => Text.unlines [(hideCredentials r).toJson.indented] := by
  unfold planRequest planned
  simp only [h]
  cases Preset.load c.files (dir.getD g.presetDir) preset with
  | error e => rfl
  | ok ds =>
    dsimp only
    cases ds.find? fun d => d.name = tool with
    | none => rfl
    | some d =>
      simp only [ha]
      cases d.request (g.authenticator preset) as <;> rfl

/-- A plan finds no tool only in a preset that can be loaded and has none of the name. -/
theorem planRequest_noTool (h : c.config = .ok g)
    (hp : planRequest c preset tool args dir = .error (.noTool preset tool)) :
    ∃ ds, Preset.load c.files (dir.getD g.presetDir) preset = .ok ds ∧
      (ds.find? fun d => d.name = tool) = none := by
  unfold planRequest at hp
  simp only [h] at hp
  cases hl : Preset.load c.files (dir.getD g.presetDir) preset with
  | error e =>
    rw [hl] at hp
    cases hp
  | ok ds =>
    refine ⟨ds, rfl, ?_⟩
    rw [hl] at hp
    dsimp only at hp
    cases hf : ds.find? fun d => d.name = tool with
    | none => rfl
    | some d =>
      rw [hf] at hp
      dsimp only at hp
      -- what can go wrong behind that is told in other words
      cases hr : readArguments args with
      | error e =>
        rw [hr] at hp
        cases hp
        unfold readArguments at hr
        split at hr
        · cases hr
        · split at hr <;> cases hr
      | ok as =>
        rw [hr] at hp
        dsimp only at hp
        split at hp <;> cases hp

/-- A plan that gives a request found the definition of a tool that makes it. -/
theorem planned_ok {fs : Files} {dir : String} {auth : Option Authenticator} {as : Arguments}
    {r : Http.Request} (h : planned fs dir preset tool auth as = .ok r) :
    ∃ ds desc b, Preset.load fs dir preset = .ok ds ∧
      (ds.find? fun d => d.name = tool) = some (.restApi desc b) ∧ b.request auth as = r := by
  unfold planned at h
  split at h
  · cases h
  · rename_i ds hl
    split at h
    · cases h
    · rename_i d hf
      cases d with
      | universal desc b => cases h
      | restApi desc b =>
        refine ⟨ds, desc, b, hl, hf, ?_⟩
        unfold Definition.request Definition.restApi? at h
        dsimp only at h
        cases hp : Definition.compilePath b.outputPath with
        | error e =>
          rw [hp] at h
          cases h
        | ok path =>
          rw [hp] at h
          cases h
          rfl

end Planned

/-! ## Plans and calls -/

theorem ordered_authenticated {b : Definition.Rest} (h : b.headers.Ordered) (g : Config)
    (preset : String) (as : Arguments) :
    (b.request (g.authenticator preset) as).headers.Ordered := by
  unfold Config.authenticator
  cases g.auth.get? preset with
  | none => exact (Definition.Rest.ordered_request h "" "" as).1
  | some a => exact (Definition.Rest.ordered_request h a.token a.format as).2

/-- A plan tells what an agent does that was given the tools of the preset and nothing else. -/
structure Rehearses (c : Context) (g : Config) (preset tool : String) (dir : Option String)
    (a : Agent) : Prop where
  /-- A plan shows the planned request, less the credentials. -/
  shown : ∀ args as, readArguments args = .ok as →
    planRequest c preset tool args dir =
      (planned c.files (dir.getD g.presetDir) preset tool (g.authenticator preset) as).map
        fun r => Text.unlines [(hideCredentials r).toJson.indented]
  /-- A call of the tool asks the host for that very request, and for nothing else. -/
  sent : ∀ as r,
    planned c.files (dir.getD g.presetDir) preset tool (g.authenticator preset) as = .ok r →
    ∃ n b, a.addPreset c.files (dir.getD g.presetDir) preset (g.authenticator preset) = (.ok n, b) ∧
      Http.Request.decode r.toJson = .ok r ∧
      ∀ w id kind, (b.dispatch w [⟨id, kind, tool, as⟩]).2 =
        { w with serial := w.serial + 1, log := w.log ++ [.call Host.httpRequest r.toJson] }
  /-- A call of a tool that the plan does not find fails before anything is asked. -/
  missing : ∀ args, planRequest c preset tool args dir = .error (.noTool preset tool) →
    ∃ n b, a.addPreset c.files (dir.getD g.presetDir) preset (g.authenticator preset) = (.ok n, b) ∧
      ∀ w id kind as, b.dispatch w [⟨id, kind, tool, as⟩] =
        ([.aborted (.notFound tool)], { w with serial := w.serial + 1 })

/-- What is planned is what is sent, whatever stands in the preset. -/
theorem plan_rehearses (c : Context) (g : Config) (preset tool : String) (dir : Option String)
    (a : Agent) (hc : c.config = .ok g) (ha : a.tools = .empty) :
    Rehearses c g preset tool dir a := by
  constructor
  case shown => exact fun args as hr => planRequest_planned hc hr
  case sent =>
    intro as r hp
    obtain ⟨ds, desc, b, hl, hf, rfl⟩ := planned_ok hp
    -- what was loaded is sound, so the names of its headers ascend and the request reads back
    have hs : (Definition.restApi desc b).Sound :=
      Preset.sound_load hl _ (List.mem_of_find?_eq_some hf)
    obtain ⟨n, a', hadd, hget⟩ := Agent.addPreset_ok hl ha (g.authenticator preset)
    refine ⟨n, a', hadd, ?_, fun w id kind => ?_⟩
    · exact Http.Request.decode_toJson (ordered_authenticated (hs.ordered desc b rfl) g preset as)
    · have hrel := hget tool
      rw [hf] at hrel
      cases ht : a'.tools.get? tool with
      | none =>
        rw [ht] at hrel
        cases hrel
      | some t =>
        rw [ht] at hrel
        cases hrel with
        | some hb =>
          obtain ⟨path, rfl⟩ := hb.rest desc b rfl
          obtain ⟨completion, hq⟩ := Agent.perform_rest (c := ⟨id, kind, tool, as⟩) ht w 0
          rw [Agent.dispatch_one, hq]
          simp [World.notingBatch]
  case missing =>
    intro args hp
    obtain ⟨ds, hl, hf⟩ := planRequest_noTool hc hp
    obtain ⟨n, a', hadd, hget⟩ := Agent.addPreset_ok hl ha (g.authenticator preset)
    refine ⟨n, a', hadd, fun w id kind as => ?_⟩
    -- the name leads to the tool that was built from the very definition that the plan read
    have hrel := hget tool
    rw [hf] at hrel
    cases ht : a'.tools.get? tool with
    | some t =>
      rw [ht] at hrel
      cases hrel
    | none =>
      rw [Agent.dispatch_one, Agent.perform_missing (c := ⟨id, kind, tool, as⟩) ht]
      simp [World.notingBatch, Tool.Invocation.failed, Tool.Invocation.inside, Agent.Outcome.of,
        Tool.Error.isFatal]

/-- A request that is planned at the desk is sent as it was planned, with the credentials. -/
theorem desk_request_sent :
    (desk "one 1" "Token").config = .ok (deskConfig "one 1" "Token") ∧
    (Agent.fresh (.qwen "small" "Qwen") []).tools = .empty ∧
    ∃ n b, (Agent.fresh (.qwen "small" "Qwen") []).addPreset (desk "one 1" "Token").files
        (deskConfig "one 1" "Token").presetDir "films"
        ((deskConfig "one 1" "Token").authenticator "films") = (.ok n, b) ∧
      ∀ w, (b.dispatch w [.new "1" "find" [("title", .str "Ran")]]).2.log =
        w.log ++ [.call "http_request" (Http.Request.toJson
          ⟨"https://h?title=Ran", "GET", [("Authorization", "Token one 1")], none⟩)] := by
  have hc : (desk "one 1" "Token").config = .ok (deskConfig "one 1" "Token") :=
    ok_of_toOption (by decide +kernel)
  have hr := plan_rehearses (desk "one 1" "Token") (deskConfig "one 1" "Token") "films" "find" none
    (Agent.fresh (.qwen "small" "Qwen") []) hc rfl
  obtain ⟨n, b, hadd, -, hw⟩ := hr.sent [("title", .str "Ran")]
    ⟨"https://h?title=Ran", "GET", [("Authorization", "Token one 1")], none⟩
    (ok_of_toOption (by decide +kernel))
  refine ⟨hc, rfl, n, b, hadd, fun w => ?_⟩
  unfold ToolCall.new
  rw [hw w "1" ToolCall.defaultKind]
  rfl

end Command

end Parley
