/-
Batches whose calls all go outside: to capabilities of the host, over HTTP or to tool servers.
Whatever the outside does, such a call ends with a value or with a failure that names the tool and
the call and is not fatal (`Tool.invoke_outward`), so the model is told and is asked for a further
round.
-/
import Parley.Proofs.Agent.Execution
import Parley.Proofs.Agent.Use

namespace Parley

open Chat

namespace Tool

/-! ## Failures of the outside -/

/-- A failure that the outside is to blame for, and that names the tool and the call. -/
inductive Error.Reports (name callId : String) : Error → Prop
  | invocation (reason : String) : Reports name callId (.invocationFailed name callId reason)
  | transport (reason : String) : Reports name callId (.transport name callId reason)
  | response (reason : String) : Reports name callId (.invalidResponse name callId reason)

theorem Error.Reports.isFatal {name callId : String} {e : Error} (h : e.Reports name callId) :
    e.isFatal = false := by
  cases h <;> rfl

/-- A call ends with a result, which is a value or blames the outside. -/
def Completion.Settles (name callId : String) (c : Completion) : Prop :=
  ∃ r, c = .returned r ∧ ∀ e, r = .error e → e.Reports name callId

/-- A tool passes the arguments on to the outside. -/
def IsOutward (args : Arguments) : Tool → Prop
  | .function _ _ => False
  | .universal d _ => Supplied d args
  | .rest _ _ _ _ | .remote _ _ => True

section Calls

variable (d : Description) (c : Context)

theorem callHost_settles (path : Option OutputPath) (args : Arguments) :
    (callHost d path c args).completion.Settles d.name c.callId := by
  unfold callHost
  cases c.host.call c.serial d.name (.obj args) with
  | ok v => exact ⟨_, rfl, fun _ he => by cases he⟩
  | error f =>
    refine ⟨_, rfl, fun _ he => ?_⟩
    cases he
    exact .invocation f.message

theorem callRest_settles (path : Option OutputPath) (r : Http.Request) :
    (callRest d path c r).completion.Settles d.name c.callId := by
  unfold callRest
  cases c.host.fetch c.serial r with
  | error f =>
    refine ⟨_, rfl, fun _ he => ?_⟩
    cases he
    exact .transport f.message
  | ok response =>
    dsimp only
    cases Json.parse? response.body with
    | some v => exact ⟨_, rfl, fun _ he => by cases he⟩
    | none =>
      refine ⟨_, rfl, fun _ he => ?_⟩
      cases he
      exact .response _

/-- An error that the server answers is the tool's own, any other is one of the way there. -/
theorem remoteFailure_reports (callId : String) (e : Mcp.Error) :
    (remoteFailure d callId e).Reports d.name callId := by
  cases e with
  | server => exact .invocation _
  | _ => exact .transport _

theorem remoteResult_reports (callId : String) (r : Mcp.CallResult) {e : Error}
    (h : remoteResult d callId r = .error e) : e.Reports d.name callId := by
  unfold remoteResult at h
  split at h
  · cases h
    exact .invocation _
  · cases h

theorem callRemote_settles (server : Mcp.Server) (args : Arguments) :
    (callRemote d server c args).completion.Settles d.name c.callId := by
  unfold callRemote
  rcases Mcp.callTool c.connector c.serial server d.name args with ⟨outcome, asked⟩
  cases outcome with
  | error f =>
    refine ⟨_, rfl, fun _ he => ?_⟩
    cases he
    exact remoteFailure_reports d c.callId f
  | ok r => exact ⟨_, rfl, fun _ he => remoteResult_reports d c.callId r he⟩

/-- Whatever the outside does, a call that goes there ends with a result. -/
theorem invoke_outward {t : Tool} {args : Arguments} (h : t.IsOutward args) :
    (t.invoke c args).completion.Settles t.name c.callId := by
  cases t with
  | function d run => exact h.elim
  | universal d path =>
    rw [invoke_universal path c h]
    exact callHost_settles d c path args
  | rest d b path auth => exact callRest_settles d c path _
  | remote d server => exact callRemote_settles d c server args

end Calls

end Tool

namespace Agent

open Tool Turn

/-! ## Outcomes -/

/-- An outcome that lets the model go on: a value, or a failure that it is told. -/
inductive Outcome.Recovers (c : ToolCall) : Outcome → Prop
  | done (v : Json) : Recovers c (.done v)
  | failed {e : Tool.Error} : e.Reports c.name c.id → e.isFatal = false → Recovers c (.failed e)

theorem Outcome.Recovers.fatal?_eq {c : ToolCall} {o : Outcome} (h : o.Recovers c) :
    o.fatal? = none := by
  cases h <;> rfl

theorem recovers_of_settles {c : ToolCall} {ending : Completion} (h : ending.Settles c.name c.id) :
    (Outcome.of c ending).Recovers c := by
  obtain ⟨r, rfl, hr⟩ := h
  cases r with
  | ok v => exact .done v
  | error e =>
    have he := hr e rfl
    simp only [Outcome.of, he.isFatal]
    exact .failed he he.isFatal

/-- The first of some tools that has the name of a call passes its arguments on. -/
def GoesOut (ts : List Tool) (c : ToolCall) : Prop :=
  ∃ t, (ts.find? fun t => t.name == c.name) = some t ∧ t.IsOutward c.arguments

section Batches

variable {a : Agent} {ts : List Tool} {calls : List ToolCall}

theorem perform_goesOut (h : a.tools = .ofTools ts) (w : World) (i : Nat) {c : ToolCall}
    (hc : GoesOut ts c) : (Outcome.of c (a.perform w i c).completion).Recovers c := by
  obtain ⟨t, ht, ho⟩ := hc
  obtain ⟨_, _, _, _, hn⟩ := find?_name_eq_some_iff.1 ht
  have hs := invoke_outward (w.context i c.id) ho
  rw [hn] at hs
  rw [perform_of_find? h w i ht]
  exact recovers_of_settles hs

/-- Every call of the batch recovers, whatever became of the others. -/
theorem dispatch_goesOut (h : a.tools = .ofTools ts) (w : World) (hc : ∀ c ∈ calls, GoesOut ts c) :
    List.Forall₂ Outcome.Recovers calls (a.dispatch w calls).1 := by
  rw [dispatch_eq]
  conv => arg 2; rw [← List.zipIdx_map_fst 0 calls]
  rw [List.forall₂_map_left_iff, List.forall₂_map_right_iff, List.forall₂_same]
  intro c hm
  have hm : c.1 ∈ calls := by
    rw [← List.zipIdx_map_fst 0 calls]
    exact List.mem_map_of_mem hm
  exact perform_goesOut h w c.2 (hc c.1 hm)

theorem fatalOf_recovers {outcomes : List Outcome} (h : List.Forall₂ Outcome.Recovers calls outcomes) :
    fatalOf (calls.zip outcomes) = none := by
  unfold fatalOf
  induction h with
  | nil => rfl
  | cons ho _ ih => rw [List.zip_cons_cons, List.findSome?_cons, ho.fatal?_eq, ih]

/-! ## The next round -/

/-- What follows when a turn runs some calls. -/
structure GoesOn (t : Turn) (calls : List ToolCall) : Prop where
  /-- Every call has a value, or a failure that names it and is not fatal. -/
  outcomes : List.Forall₂ Outcome.Recovers calls (t.agent.dispatch t.world calls).1
  /-- The model is told what became of each. -/
  told : t.advance.agent =
    t.agent.saying (resultsOf (calls.zip (t.agent.dispatch t.world calls).1))
  /-- Nothing but the results and the failures that the model is told is shown. -/
  shown : t.advance.pending =
    t.pending ++ (shownOf (calls.zip (t.agent.dispatch t.world calls).1)).map .ok
  phase : t.advance.phase = .infer
  /-- The step behind asks for the next round; no turn of a deleted agent comes to a batch
  (`leads_speaking`). -/
  asks : t.agent.isValid = true →
    t.advance.advance.world.inferences = t.world.inferences ++ [t.advance.request]

/-- A batch without a fatal failure lets the turn go on. -/
theorem advance_clean {t : Turn} {calls : List ToolCall} (hp : t.phase = .dispatch calls)
    (hf : fatalOf (calls.zip (t.agent.dispatch t.world calls).1) = none) :
    t.advance = { t.showing (shownOf (calls.zip (t.agent.dispatch t.world calls).1)) with
      agent := t.agent.saying (resultsOf (calls.zip (t.agent.dispatch t.world calls).1))
      world := (t.agent.dispatch t.world calls).2
      phase := .infer } := by
  unfold fatalOf at hf
  have hr := advance_of_dispatch hp
  unfold record at hr
  simp only [hf] at hr
  exact hr

/-- The step behind it asks for a round. -/
theorem advance_clean_asks {t : Turn} {calls : List ToolCall} (hp : t.phase = .dispatch calls)
    (hf : fatalOf (calls.zip (t.agent.dispatch t.world calls).1) = none)
    (hv : t.agent.isValid = true) :
    t.advance.advance.world.inferences = t.world.inferences ++ [t.advance.request] := by
  have hr := advance_clean hp hf
  have hi : t.advance.world.inferences = t.world.inferences := by
    rw [hr]
    exact dispatch_inferences t.agent t.world calls
  have hn : t.advance.asks = true := (asks_iff _).2 ⟨by rw [hr], by rw [hr]; exact hv⟩
  have hd : t.advance.isDone = false := by rw [hr]; rfl
  rw [advance_inferences hd, hn, hi]
  rfl

/-- A batch whose calls all go outside never ends the turn. -/
theorem outward_batch_goesOn (t : Turn) (ts : List Tool) (calls : List ToolCall)
    (hp : t.phase = .dispatch calls) (ht : t.agent.tools = .ofTools ts)
    (hc : ∀ c ∈ calls, GoesOut ts c) : GoesOn t calls := by
  have ho := dispatch_goesOut ht t.world hc
  have hf := fatalOf_recovers ho
  have hr := advance_clean hp hf
  exact ⟨ho, by rw [hr], by rw [hr]; rfl, by rw [hr], advance_clean_asks hp hf⟩

end Batches

/-- A batch in which the host fails a capability and a request, and a server refuses. -/
theorem failing_batch_goesOn :
    ∃ t ts calls, t.phase = .dispatch calls ∧ t.agent.isValid = true ∧
      t.agent.tools = .ofTools ts ∧ (∀ c ∈ calls, GoesOut ts c) ∧ GoesOn t calls ∧
      (t.agent.dispatch t.world calls).1 = [
        .failed (.invocationFailed "search" "1" (Host.Error.call "search" "not offered").message),
        .failed (.transport "weather" "2" (Host.Error.call "http_request" "not offered").message),
        .failed (.transport "remote" "3" (Mcp.Error.transport "any" "no server").message)] := by
  have hc : ∀ c ∈ [ToolCall.new "1" "search" [], .new "2" "weather" [], .new "3" "remote" []],
      GoesOut [.universal ⟨"search", "", .none, none⟩ none,
        .rest ⟨"weather", "", .none, none⟩ ⟨"http://weather", .get, [], none, none, none⟩ none none,
        .remote ⟨"remote", "", .none, none⟩ ⟨"fake", [], [], none⟩] c := by
    intro c hc
    rw [List.mem_cons, List.mem_cons, List.mem_singleton] at hc
    rcases hc with rfl | rfl | rfl
    · exact ⟨_, rfl, fun p hp => by cases hp⟩
    · exact ⟨_, rfl, trivial⟩
    · exact ⟨_, rfl, trivial⟩
  exact ⟨⟨fresh (.qwen "small" "Qwen") _, .scripted [], ⟨true, false⟩, .dispatch _, []⟩, _, _, rfl,
    rfl, rfl, hc, outward_batch_goesOn _ _ _ rfl rfl hc, rfl⟩

end Agent

end Parley
