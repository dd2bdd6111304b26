/-
The requests for inference among all that the host is asked: what each of them shows the model of
the conversation, and that no call of a tool makes one.
-/
import Parley.Proofs.Agent.Step
import Parley.Proofs.Chat.Wire

namespace Parley

open Chat Json

/-! ## Requests for inference -/

/-- Whether the host is asked for a round of inference. -/
def Host.Request.isInference : Host.Request → Bool
  | .stream method _ _ => method == Agent.inferMethod
  | .define _ _ _ | .delete _ | .call _ _ | .callMethod _ _ _ => false

/-- The conversation that a request shows the model, read from the request itself. -/
def Host.Request.conversation? : Host.Request → Option (List Message)
  | .stream _ _ args =>
    (args.get? "messages").bind fun v => (Decode.list Message.decode v).toOption
  | .define _ _ _ | .delete _ | .call _ _ | .callMethod _ _ _ => none

/-- The requests for inference that the host got. -/
def World.inferences (w : World) : List Host.Request :=
  w.log.filter Host.Request.isInference

namespace Agent

/-- The request for a round of inference with a conversation. -/
def asking (a : Agent) (o : RunOptions) (ms : List Message) : Host.Request :=
  .stream inferMethod a.component.id ({ a with history := ⟨ms⟩ }.inferenceRequest o)

/-- A request for inference shows the whole conversation, and the model reads the very messages
that the agent holds. -/
theorem asking_conversation (a : Agent) (o : RunOptions) (ms : List Message) :
    (a.asking o ms).conversation? = some ms := by
  show (Decode.list Message.decode (History.toJson ⟨ms⟩)).toOption = _
  rw [History.decode_toJson]
  rfl

/-! ## Calls of tools -/

/-- Whatever tool is called, it asks of the host calls of capabilities only. -/
theorem perform_calls (a : Agent) (w : World) (i : Nat) (c : ToolCall) :
    ∀ r ∈ (a.perform w i c).requests, ∃ capability args, r = .call capability args := by
  intro r hr
  unfold perform at hr
  split at hr
  · cases hr
  · rename_i t ht
    cases t with
    | function d run =>
      unfold Tool.invoke at hr
      simp only at hr
      split at hr <;> cases hr
    | universal d path =>
      unfold Tool.invoke at hr
      simp only at hr
      split at hr
      · cases hr
      · exact ⟨_, _, List.mem_singleton.1 hr⟩
    | rest d b path auth => exact ⟨_, _, List.mem_singleton.1 hr⟩
    | remote d server => cases hr

theorem dispatch_log (a : Agent) (w : World) (calls : List ToolCall) :
    ∃ more, (a.dispatch w calls).2.log = w.log ++ more ∧
      ∀ r ∈ more, ∃ capability args, r = .call capability args := by
  refine ⟨(calls.zipIdx.map fun c => a.perform w c.2 c.1).flatMap Tool.Invocation.requests, ?_, ?_⟩
  · simp [dispatch, World.notingBatch, Function.comp_def]
  · intro r hr
    obtain ⟨i, hi, hr⟩ := List.mem_flatMap.1 hr
    obtain ⟨c, -, rfl⟩ := List.mem_map.1 hi
    exact perform_calls a w c.2 c.1 r hr

/-- A batch of calls asks for no inference. -/
theorem dispatch_inferences (a : Agent) (w : World) (calls : List ToolCall) :
    (a.dispatch w calls).2.inferences = w.inferences := by
  obtain ⟨more, hl, hm⟩ := dispatch_log a w calls
  have hn : more.filter Host.Request.isInference = [] := by
    rw [List.filter_eq_nil_iff]
    intro r hr
    obtain ⟨capability, args, rfl⟩ := hm r hr
    exact Bool.false_ne_true
  unfold World.inferences
  rw [hl, List.filter_append, hn, List.append_nil]

/-! ## Requests along a turn -/

theorem stream_inferences {c : Component} {w w' : World} {method : String} {args : Json}
    {r : Round} (h : c.stream w method args = (r, w')) :
    ∃ more, w'.inferences = w.inferences ++ more := by
  have noting (r : Host.Request) : ∃ more, (w.noting r).inferences = w.inferences ++ more :=
    ⟨_, List.filter_append _ _⟩
  unfold Component.stream World.stream at h
  split at h
  · split at h
    · cases h
      exact noting _
    · cases h
      exact noting _
  · cases h
    exact ⟨[], (List.append_nil _).symm⟩

/-- No step takes a request back. -/
theorem step_inferences {t u : Turn} (h : Turn.Step t u) :
    ∃ more, u.world.inferences = t.world.inferences ++ more := by
  have same {w : World} : ∃ more, w.inferences = w.inferences ++ more :=
    ⟨[], (List.append_nil _).symm⟩
  cases h with
  | invalid | started | exhausted | interrupted | undecodable | text | asked | strange | closed
  | misplaced | gaveUp => exact same
  | refused _ hs | opened _ hs => exact stream_inferences hs
  | @ran calls _ _ _ hd | @aborted calls _ _ _ _ hd =>
    have hi := dispatch_inferences t.agent t.world calls
    rw [hd] at hi
    exact ⟨[], hi.trans (List.append_nil _).symm⟩

end Agent

end Parley
