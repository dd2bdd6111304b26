/-
All that a turn can do in one step. `Step` lists the moves of a turn that is not done, each with
the condition under which it is taken; `step_advance` says that there are no others. What a turn
keeps is proved move by move.
-/
import Parley.Agent.Turn
import Mathlib.Data.List.Infix

namespace Parley.Agent

open Chat

/-! ## What is said -/

/-- The agent with messages behind its conversation. -/
def saying (a : Agent) (ms : List Message) : Agent :=
  { a with history := ⟨a.history.messages ++ ms⟩ }

theorem saying_messages (a : Agent) (ms : List Message) :
    (a.saying ms).history.messages = a.history.messages ++ ms := rfl

theorem saying_nil (a : Agent) : a.saying [] = a := by
  unfold saying
  rw [List.append_nil]

theorem saying_saying (a : Agent) (ms ns : List Message) :
    (a.saying ms).saying ns = a.saying (ms ++ ns) := by
  unfold saying
  rw [List.append_assoc]

namespace Turn

/-- The text of the failure of a stream that ends too early. -/
def unfinished : String := "inference stream ended without a finish reason"

/-- The text of the failure of a request for tools that names none. -/
def noCalls : String := "tool_calls delta does not carry tool calls"

/-- The results of a batch as messages. -/
def resultsOf (results : List (ToolCall × Outcome)) : List Message :=
  results.map fun r => resultOf r.1 r.2

/-- The events about the results of a batch. -/
def shownOf (results : List (ToolCall × Outcome)) : List Event :=
  results.flatMap fun r => eventsOf r.1 r.2

/-- The first failure of a batch that ends the turn. -/
def fatalOf (results : List (ToolCall × Outcome)) : Option Tool.Error :=
  results.findSome? fun r => r.2.fatal?

/-! ## Moves -/

/-- The moves of a turn. -/
inductive Step (t : Turn) : Turn → Prop
  | invalid {message : String} :
    t.phase = .start message → t.agent.isValid = false →
    Step t (t.fail (.componentInvalid t.agent.component.id))
  | started {message : String} :
    t.phase = .start message → t.agent.isValid = true →
    Step t { t with agent := t.agent.saying [.user message], phase := .infer }
  | refused {e : Host.Error} {w : World} :
    t.phase = .infer →
    t.agent.component.stream t.world inferMethod (t.agent.inferenceRequest t.options) = (.error e, w) →
    Step t ({ t with world := w }.fail (.host e))
  | opened {items : List Item} {w : World} :
    t.phase = .infer →
    t.agent.component.stream t.world inferMethod (t.agent.inferenceRequest t.options) = (.ok items, w) →
    Step t { t with world := w, phase := .streaming items }
  | exhausted : t.phase = .streaming [] → Step t (t.fail (.invalidDelta unfinished))
  | interrupted {e : Host.Error} {rest : List Item} :
    t.phase = .streaming (.error e :: rest) → Step t (t.fail (.host e))
  | undecodable {v : Json} {e : Json.Fault} {rest : List Item} :
    t.phase = .streaming (.ok v :: rest) → Delta.decode v = .error e →
    Step t (t.fail (.invalidDelta e.message))
  | text {v : Json} {m : Message} {rest : List Item} :
    t.phase = .streaming (.ok v :: rest) → Delta.decode v = .ok ⟨none, m⟩ →
    Step t { t.showing [.text m false] with phase := .streaming rest }
  | asked {v : Json} {calls : List ToolCall} {rest : List Item} :
    t.phase = .streaming (.ok v :: rest) →
    Delta.decode v = .ok ⟨some .toolCalls, .toolCalls calls⟩ →
    Step t { t.showing (calls.map fun c => .toolCall c true) with
      agent := t.agent.saying [.toolCalls calls], phase := .dispatch calls }
  | strange {v : Json} {m : Message} {rest : List Item} :
    t.phase = .streaming (.ok v :: rest) → Delta.decode v = .ok ⟨some .toolCalls, m⟩ →
    (∀ calls, m ≠ .toolCalls calls) → Step t (t.fail (.invalidDelta noCalls))
  | closed {v : Json} {r : FinishReason} {m : Message} {rest : List Item} :
    t.phase = .streaming (.ok v :: rest) → Delta.decode v = .ok ⟨some r, m⟩ →
    r = .stop ∨ r = .length → m.isSystem = false ∨ t.agent.history.messages = [] →
    Step t { t.showing [.text m false] with agent := t.agent.saying [m], phase := .done }
  | misplaced {v : Json} {r : FinishReason} {m : Message} {rest : List Item} :
    t.phase = .streaming (.ok v :: rest) → Delta.decode v = .ok ⟨some r, m⟩ →
    r = .stop ∨ r = .length → m.isSystem = true → t.agent.history.messages ≠ [] →
    Step t ((t.showing [.text m false]).fail (.history .misplacedSystemMessage))
  | gaveUp {v : Json} {m : Message} {rest : List Item} :
    t.phase = .streaming (.ok v :: rest) → Delta.decode v = .ok ⟨some .error, m⟩ →
    Step t { t.showing [.error (failureText m)] with phase := .done }
  | ran {calls : List ToolCall} {outcomes : List Outcome} {w : World} :
    t.phase = .dispatch calls → t.agent.dispatch t.world calls = (outcomes, w) →
    fatalOf (calls.zip outcomes) = none →
    Step t { t.showing (shownOf (calls.zip outcomes)) with
      agent := t.agent.saying (resultsOf (calls.zip outcomes)), world := w, phase := .infer }
  | aborted {calls : List ToolCall} {outcomes : List Outcome} {w : World} {e : Tool.Error} :
    t.phase = .dispatch calls → t.agent.dispatch t.world calls = (outcomes, w) →
    fatalOf (calls.zip outcomes) = some e →
    Step t ({ t.showing (shownOf (calls.zip outcomes)) with
      agent := t.agent.saying (resultsOf (calls.zip outcomes)), world := w }.fail (.tool e))

/-! ## Every step is a move -/

theorem append_taken {t : Turn} {m : Message} (next : Phase)
    (h : m.isSystem = false ∨ t.agent.history.messages = []) :
    t.append m next = { t with agent := t.agent.saying [m], phase := next } := by
  have hp : (m.isSystem && !t.agent.history.messages.isEmpty) = false := by
    rcases h with h | h <;> simp [h]
  unfold append History.push
  rw [hp]
  rfl

theorem append_refused {t : Turn} {m : Message} (next : Phase) (hm : m.isSystem = true)
    (h : t.agent.history.messages ≠ []) :
    t.append m next = t.fail (.history .misplacedSystemMessage) := by
  have hp : (m.isSystem && !t.agent.history.messages.isEmpty) = true := by simp [hm, h]
  unfold append History.push
  rw [hp]
  rfl

theorem step_record {t : Turn} {calls : List ToolCall} {outcomes : List Outcome} {w : World}
    (hp : t.phase = .dispatch calls) (hd : t.agent.dispatch t.world calls = (outcomes, w)) :
    Step t ({ t with world := w }.record (calls.zip outcomes)) := by
  unfold record
  cases hf : fatalOf (calls.zip outcomes) with
  | none =>
    have hm := Step.ran hp hd hf
    unfold fatalOf at hf
    simp only [hf]
    exact hm
  | some e =>
    have hm := Step.aborted hp hd hf
    unfold fatalOf at hf
    simp only [hf]
    exact hm

theorem step_receive {t : Turn} {v : Json} {d : Delta} {rest : List Item}
    (hp : t.phase = .streaming (.ok v :: rest)) (hd : Delta.decode v = .ok d) :
    Step t (t.receive d rest) := by
  obtain ⟨finish, m⟩ := d
  -- both reasons to stop close the turn, but for a message of the system behind others
  have closes (r : FinishReason) (hr : r = .stop ∨ r = .length)
      (hd : Delta.decode v = .ok ⟨some r, m⟩) :
      Step t ((t.showing [.text m false]).append m .done) := by
    by_cases hm : m.isSystem = true ∧ t.agent.history.messages ≠ []
    · rw [append_refused (t := t.showing _) .done hm.1 hm.2]
      exact .misplaced hp hd hr hm.1 hm.2
    · have ht : m.isSystem = false ∨ t.agent.history.messages = [] := by
        cases hs : m.isSystem with
        | false => exact .inl rfl
        | true => exact .inr (by_contra fun hne => hm ⟨hs, hne⟩)
      rw [append_taken (t := t.showing _) .done ht]
      exact .closed hp hd hr ht
  cases finish with
  | none => exact .text hp hd
  | some r =>
    cases r with
    | stop => exact closes .stop (.inl rfl) hd
    | length => exact closes .length (.inr rfl) hd
    | error => exact .gaveUp hp hd
    | toolCalls =>
      cases m with
      | toolCalls calls =>
        show Step t ((t.append (.toolCalls calls) (.dispatch calls)).showing _)
        rw [append_taken _ (.inl rfl)]
        exact .asked hp hd
      | system | user | assistant | toolResult => exact .strange hp hd fun _ h => by cases h

/-- A turn that is not done goes on by one of the moves. -/
theorem step_advance {t : Turn} (h : t.isDone = false) : Step t t.advance := by
  unfold advance
  split
  · rename_i hp
    simp [isDone, hp] at h
  · rename_i message hp
    split
    · rename_i hv
      rw [append_taken _ (.inl rfl)]
      exact .started hp hv
    · rename_i hv
      exact .invalid hp (by simpa using hv)
  · rename_i hp
    dsimp only
    split
    · rename_i items w hs
      exact .opened hp hs
    · rename_i e w hs
      exact .refused hp hs
  · rename_i hp
    exact .exhausted hp
  · rename_i e rest hp
    exact .interrupted hp
  · rename_i v rest hp
    split
    · rename_i d hd
      exact step_receive hp hd
    · rename_i e hd
      exact .undecodable hp hd
  · rename_i calls hp
    exact step_record hp rfl

end Turn

end Parley.Agent
