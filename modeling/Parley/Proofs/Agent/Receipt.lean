/-
What a batch of calls leaves behind, whatever its calls came to. Each call has a receipt
(`Receipt.Fair`), and the receipts are all there, in the order of the calls, in the conversation and
in the events (`batch_receipted`). Only behind them does the first fatal failure end the turn; when
there is none the model is asked once more, with the results at the end of the conversation.

The receipts are read off the rules, not off the machine that records a batch; a fair receipt says
what the machine records because its rules leave it no choice (`Receipt.Fair.recorded`).
-/
import Parley.Proofs.Agent.Recovery

namespace Parley.Agent

open Chat Turn Tool

/-! ## Receipts -/

/-- A call that came to its end: what the model is told of it, the text of a warning in front of
that, and the failure that it ends the turn with. -/
structure Receipt where
  call : ToolCall
  completion : Completion
  content : String
  warning : Option String
  fatal : Option Tool.Error

/-- What the model is told of a failure. -/
def failureContent (e : Tool.Error) : String := (Json.obj [("error", .str e.message)]).text

/-- The failure of a call whose task broke down. -/
def lost (c : ToolCall) (reason : String) : Tool.Error :=
  .invocationFailed c.name c.id ("tool task did not complete: " ++ reason)

namespace Receipt

def result (r : Receipt) : Message := .toolResult r.call.name r.call.id r.content

/-- The events about the call. -/
def events (r : Receipt) : List Event :=
  r.warning.toList.map .error ++ [.toolResult r.result]

/-- The rules. A call that no tool was found for, that lacked a parameter or that broke down ends
the turn; of any other failure there is a warning. -/
inductive Fair : Receipt → Prop
  | value {c : ToolCall} {v : Json} : Fair ⟨c, .returned (.ok v), v.text, none, none⟩
  | notFound {c : ToolCall} {name : String} :
    Fair ⟨c, .returned (.error (.notFound name)), failureContent (.notFound name), none,
      some (.notFound name)⟩
  | missingParameter {c : ToolCall} {name parameter : String} :
    Fair ⟨c, .returned (.error (.missingParameter name parameter)),
      failureContent (.missingParameter name parameter), none,
      some (.missingParameter name parameter)⟩
  | brokenDown {c : ToolCall} {reason : String} :
    Fair ⟨c, .brokenDown reason, failureContent (lost c reason), none, some (lost c reason)⟩
  | failed {c : ToolCall} {e : Tool.Error} :
    (∀ name, e ≠ .notFound name) → (∀ name parameter, e ≠ .missingParameter name parameter) →
    Fair ⟨c, .returned (.error e), failureContent e, some e.message, none⟩

def outcome (r : Receipt) : ToolCall × Outcome := (r.call, .of r.call r.completion)

theorem Fair.recorded {r : Receipt} (h : r.Fair) :
    resultOf r.call r.outcome.2 = r.result ∧ eventsOf r.call r.outcome.2 = r.events ∧
      r.outcome.2.fatal? = r.fatal := by
  cases h with
  | value | notFound | missingParameter | brokenDown => exact ⟨rfl, rfl, rfl⟩
  | @failed c e hn hm =>
    cases e with
    | notFound name => exact absurd rfl (hn name)
    | missingParameter name parameter => exact absurd rfl (hm name parameter)
    | invalidArguments | invocationFailed | transport | invalidResponse => exact ⟨rfl, rfl, rfl⟩

/-- Every call gets a receipt, however it comes to its end. -/
theorem fair_exists (c : ToolCall) (ending : Completion) :
    ∃ r : Receipt, r.call = c ∧ r.completion = ending ∧ r.Fair := by
  cases ending with
  | brokenDown reason => exact ⟨_, rfl, rfl, .brokenDown⟩
  | returned result =>
    cases result with
    | ok v => exact ⟨_, rfl, rfl, .value⟩
    | error e =>
      cases e with
      | notFound => exact ⟨_, rfl, rfl, .notFound⟩
      | missingParameter => exact ⟨_, rfl, rfl, .missingParameter⟩
      | invalidArguments | invocationFailed | transport | invalidResponse =>
        exact ⟨_, rfl, rfl, .failed nofun nofun⟩

theorem receipts_exist : ∀ (calls : List ToolCall) (endings : List Completion),
    endings.length = calls.length → ∃ rs : List Receipt, rs.map call = calls ∧
      rs.map completion = endings ∧ ∀ r ∈ rs, r.Fair
  | [], [], _ => ⟨[], rfl, rfl, nofun⟩
  | c :: calls, ending :: endings, h => by
    obtain ⟨r, rfl, rfl, hr⟩ := fair_exists c ending
    obtain ⟨rs, rfl, rfl, hrs⟩ := receipts_exist calls endings (Nat.succ.inj h)
    exact ⟨r :: rs, rfl, rfl, List.forall_mem_cons.2 ⟨hr, hrs⟩⟩

section Lists

variable {rs : List Receipt} (h : ∀ r ∈ rs, r.Fair)

include h

theorem resultsOf_outcomes : resultsOf (rs.map outcome) = rs.map result := by
  unfold resultsOf
  rw [List.map_map]
  exact List.map_congr_left fun r hr => (h r hr).recorded.1

theorem shownOf_outcomes : shownOf (rs.map outcome) = rs.flatMap events := by
  unfold shownOf
  rw [List.flatMap_map]
  exact List.flatMap_congr fun r hr => (h r hr).recorded.2.1

theorem fatalOf_outcomes : fatalOf (rs.map outcome) = rs.findSome? fatal := by
  unfold fatalOf
  rw [List.findSome?_map, ← List.head?_filterMap, ← List.head?_filterMap]
  exact congrArg List.head? (List.filterMap_congr fun r hr => (h r hr).recorded.2.2)

end Lists

end Receipt

/-! ## The turn behind a batch -/

namespace Course

/-- The batches that the course goes on behind, with what came of their calls. -/
def batches : Course → List (List (ToolCall × Outcome))
  | .refused _ | .ended _ _ _ | .aborted _ _ _ _ => []
  | .batch _ _ results next => results :: next.batches

/-- Rounds are opened with a conversation, and once more for each batch behind it. -/
theorem conversations_eq (c : Course) (ms : List Message) :
    c.conversations ms = (c.batches.map batchSaid).scanl (· ++ ·) ms := by
  induction c generalizing ms with
  | refused | ended | aborted => rfl
  | batch read texts results next ih =>
    show ms :: next.conversations (ms ++ batchSaid results) =
      ((batchSaid results) :: next.batches.map batchSaid).scanl (· ++ ·) ms
    rw [ih, List.scanl_cons]

end Course

/-- A turn that runs some calls is to show these items, and then it is over. -/
structure Delivers (t : Turn) (items : List (Except Error Event)) (u : Turn) : Prop where
  exhausted : t.exhaust = (t.pending ++ items, u)
  /-- Whoever polls sees them one by one. -/
  polled : ∀ n, (t.takeEvents n).1 = (t.pending ++ items).take n
  finished : u.phase = .done ∧ u.pending = []

/-- A turn ends with a failure, behind all that there is to tell of a batch. -/
structure Ends (t : Turn) (rs : List Receipt) (e : Tool.Error) (u : Turn) : Prop where
  delivers : Delivers t ((rs.flatMap Receipt.events).map .ok ++ [.error (.tool e)]) u
  said : u.agent = t.agent.saying (rs.map Receipt.result)
  asked : u.world.inferences = t.world.inferences

/-- A turn goes on along a course, behind all that there is to tell of a batch. -/
structure Resumes (t : Turn) (calls : List ToolCall) (rs : List Receipt) (next : Course)
    (u : Turn) : Prop where
  served : next.ServedBy t.world.rounds
  performed : next.PerformedIn t.options (t.agent.saying (rs.map Receipt.result))
    (t.agent.dispatch t.world calls).2
  delivers : Delivers t ((rs.flatMap Receipt.events).map .ok ++ next.items) u
  said : u.agent = t.agent.saying (rs.map Receipt.result ++ next.messages)
  /-- The next step asks for a round, with the results at the end of the conversation. -/
  asks : ∃ r, t.advance.advance.world.inferences = t.world.inferences ++ [r] ∧
    r.conversation? = some (t.agent.history.messages ++ rs.map Receipt.result)
  /-- It is the only request, but for one more behind each later batch. -/
  asked : u.world.inferences = t.world.inferences ++
    (((next.batches.map batchSaid).scanl (· ++ ·)
      (t.agent.history.messages ++ rs.map Receipt.result)).map (t.agent.asking t.options))

theorem delivers_of_drains {t u : Turn} {items : List (Except Error Event)}
    (h : Drains t.emptied items u) : Delivers t items u := by
  have hd : Drains t (t.pending ++ items) u := h.pend t.pending
  exact ⟨exhaust_eq hd, fun n => (takeEvents_take n t _ hd).1, h.isDone⟩

section Batch

variable {a : Agent} {w : World} {o : RunOptions} {pending : List (Except Error Event)}
  {rs : List Receipt} (hf : ∀ r ∈ rs, r.Fair)

theorem map_fst_outcomes (rs : List Receipt) :
    (rs.map Receipt.outcome).map Prod.fst = rs.map Receipt.call := by
  rw [List.map_map]
  rfl

theorem map_snd_outcomes
    (he : rs.map Receipt.completion =
      (invocations a w (rs.map Receipt.call)).map Invocation.completion) :
    (rs.map Receipt.outcome).map Prod.snd =
      (a.dispatch w ((rs.map Receipt.outcome).map Prod.fst)).1 := by
  rw [map_fst_outcomes, dispatch_outcomes, ← he, List.map_map, List.zipWith_map, List.zipWith_self]
  rfl

variable (ho : (rs.map Receipt.outcome).map Prod.snd =
  (a.dispatch w ((rs.map Receipt.outcome).map Prod.fst)).1)

include hf ho

theorem ends_of_fatal {e : Tool.Error} (he : rs.findSome? Receipt.fatal = some e) :
    ∃ u, Ends ⟨a, w, o, .dispatch (rs.map Receipt.call), pending⟩ rs e u := by
  rw [← Receipt.fatalOf_outcomes hf] at he
  have hd := drains_aborted (o := o) ho he
  rw [Receipt.shownOf_outcomes hf, Receipt.resultsOf_outcomes hf, map_fst_outcomes] at hd
  exact ⟨_, delivers_of_drains hd, rfl, dispatch_inferences a w _⟩

theorem asks_of_clean (he : rs.findSome? Receipt.fatal = none) (hv : a.isValid = true) :
    (advance (advance ⟨a, w, o, .dispatch (rs.map Receipt.call), pending⟩)).world.inferences =
      w.inferences ++ [a.asking o (a.history.messages ++ rs.map Receipt.result)] := by
  have hzip : (rs.map Receipt.call).zip (a.dispatch w (rs.map Receipt.call)).1 =
      rs.map Receipt.outcome := by
    rw [← map_fst_outcomes]
    exact zip_of_outcomes ho
  have hfatal : fatalOf ((rs.map Receipt.call).zip (a.dispatch w (rs.map Receipt.call)).1) = none := by
    rw [hzip, Receipt.fatalOf_outcomes hf, he]
  have hasks := advance_clean_asks (t := ⟨a, w, o, _, pending⟩) rfl hfatal hv
  rw [hasks, advance_clean (t := ⟨a, w, o, _, pending⟩) rfl hfatal]
  unfold request
  rw [hzip, Receipt.resultsOf_outcomes hf]
  rfl

theorem resumes_of_clean (he : rs.findSome? Receipt.fatal = none) (hv : a.isValid = true)
    (hh : a.history.messages ≠ []) :
    ∃ next u, Resumes ⟨a, w, o, .dispatch (rs.map Receipt.call), pending⟩ (rs.map Receipt.call) rs
      next u := by
  have hresults := Receipt.resultsOf_outcomes hf
  -- the turn goes on with the results said, in the world behind the batch
  obtain ⟨next, hs, hp⟩ := course_exists o w.rounds (a.saying (rs.map Receipt.result))
    (a.dispatch w (rs.map Receipt.call)).2 hv rfl
  have hne : (a.saying (rs.map Receipt.result)).history.messages ≠ [] := by
    rw [saying_messages]
    exact List.append_ne_nil_of_left_ne_nil hh _
  have hnext := drains_of_course o next (a.saying (rs.map Receipt.result))
    (a.dispatch w (rs.map Receipt.call)).2 hv hne hs hp
  rw [← hresults, ← map_fst_outcomes] at hnext
  have hd := drains_ran ho ((Receipt.fatalOf_outcomes hf).trans he) hnext
  rw [Receipt.shownOf_outcomes hf, hresults, saying_saying, map_fst_outcomes] at hd
  refine ⟨next, _, hs, hp, delivers_of_drains hd, rfl, ⟨_, asks_of_clean hf ho he hv, ?_⟩, ?_⟩
  · exact asking_conversation a o _
  · show (next.worldAfter o _ _).inferences = _
    rw [worldAfter_inferences next (a.saying (rs.map Receipt.result)) _ hv, dispatch_inferences,
      Course.conversations_eq]
    rfl

end Batch

/-- Whatever the calls of a batch come to, each of them has its receipt. They are told and shown in
the order of the calls, and the first fatal failure ends the turn behind all of them. -/
theorem batch_receipted (a : Agent) (w : World) (o : RunOptions) (message : String) (t : Turn)
    (calls : List ToolCall) (ht : Leads (Turn.new a w o message) t) (hp : t.phase = .dispatch calls) :
    ∃ rs : List Receipt, rs.map Receipt.call = calls ∧
      rs.map Receipt.completion =
        (invocations t.agent t.world calls).map Invocation.completion ∧
      (∀ r ∈ rs, r.Fair) ∧
      (∀ e, rs.findSome? Receipt.fatal = some e → ∃ u, Ends t rs e u) ∧
      (rs.findSome? Receipt.fatal = none → ∃ next u, Resumes t calls rs next u) := by
  obtain ⟨rs, rfl, hc, hf⟩ := Receipt.receipts_exist calls
    ((invocations t.agent t.world calls).map Invocation.completion) (by simp [invocations])
  have hv : t.agent.isValid = true ∧ t.agent.history.messages ≠ [] :=
    leads_speaking ht (by rw [hp]; exact nofun) (by rw [hp]; exact nofun)
  obtain ⟨a', w', o', p, pending⟩ := t
  cases hp
  have ho := map_snd_outcomes hc
  exact ⟨rs, rfl, hc, hf, fun e he => ends_of_fatal hf ho he,
    fun he => resumes_of_clean hf ho he hv.1 hv.2⟩

/-- An agent with a tool that works, one that fails and one that breaks down. -/
def mixedAgent : Agent :=
  fresh (.qwen "small" "Qwen")
    [.constant "clock" (.str "noon"),
      .function ⟨"oracle", "", .none, none⟩ fun _ _ => .returned (.error (.invalidArguments "no")),
      .function ⟨"bridge", "", .none, none⟩ fun _ _ => .brokenDown "panic"]

/-- A turn in which the model asks for all of them, and for one that there is not. -/
def mixedTurn : Turn :=
  .new mixedAgent
    (.scripted [.ok [.ok (Delta.mk (some .toolCalls) (.toolCalls
      [.new "1" "oracle" [], .new "2" "nobody" [], .new "3" "bridge" [], .new "4" "clock" []])).toJson]])
    ⟨true, false⟩ "go"

/-- The first fatal failure is the one of the second call, and the two behind it are told as well. -/
theorem mixed_batch_receipted :
    ∃ t calls rs u, Leads mixedTurn t ∧ t.phase = .dispatch calls ∧ rs.map Receipt.call = calls ∧
      Ends t rs (.notFound "nobody") u ∧
      t.exhaust.1 = t.pending ++
        [.ok (.error "Invalid tool arguments: no"),
          .ok (.toolResult (.toolResult "oracle" "1"
            "\x7b\"error\":\"Invalid tool arguments: no\"\x7d")),
          .ok (.toolResult (.toolResult "nobody" "2"
            "\x7b\"error\":\"Tool not found: nobody\"\x7d")),
          .ok (.toolResult (.toolResult "bridge" "3"
            (failureContent (lost (.new "3" "bridge" []) "panic")))),
          .ok (.toolResult (.toolResult "clock" "4" "\"noon\"")),
          .error (.tool (.notFound "nobody"))] := by
  have hl : Leads mixedTurn mixedTurn.advance.advance.advance := .step (.step (.step .refl rfl) rfl) rfl
  obtain ⟨rs, hc, hcompletion, hf, hends, -⟩ := batch_receipted _ _ _ _ _
    [.new "1" "oracle" [], .new "2" "nobody" [], .new "3" "bridge" [], .new "4" "clock" []] hl rfl
  have hfatal : rs.findSome? Receipt.fatal = some (.notFound "nobody") := by
    have hoc : rs.map Receipt.outcome = List.zipWith (fun c ending => (c, Outcome.of c ending))
        (rs.map Receipt.call) (rs.map Receipt.completion) := by
      rw [List.zipWith_map, List.zipWith_self]
      rfl
    rw [← Receipt.fatalOf_outcomes hf, hoc, hc, hcompletion]
    rfl
  obtain ⟨u, hu⟩ := hends _ hfatal
  exact ⟨_, _, rs, u, hl, rfl, hc, hu, rfl⟩

end Parley.Agent
