/-
Pairing of calls and results. A conversation is paired when each request of the assistant for
tools is followed at once by one result for each of its calls, in the order of the calls, and no
result stands anywhere else.

Read from its start, a conversation is an automaton whose state is the calls that still wait for
their results (`owed`). It is paired exactly when none wait at its end and none is answered that
does not wait (`paired_iff_owed`), so what appending does to pairing is what it does to the state.
-/
import Parley.Chat.History
import Mathlib.Data.List.Forall2

namespace Parley.Chat

/-! ## Paired conversations -/

/-- A message gives the result of a call, by the name and the identity of the call. -/
def Answers (c : ToolCall) (m : Message) : Prop :=
  ∃ content, m = .toolResult c.name c.id content

/-- Whether a message neither asks for tools nor gives the result of a call. -/
def Message.isPlain : Message → Bool
  | .toolCalls _ | .toolResult _ _ _ => false
  | .system _ | .user _ | .assistant _ _ => true

/-- Each request for tools is followed at once by exactly the results of its calls, in order, and
there is no other result. -/
inductive Paired : List Message → Prop
  | nil : Paired []
  | plain {m : Message} {ms : List Message} : m.isPlain = true → Paired ms → Paired (m :: ms)
  | batch {calls : List ToolCall} {results ms : List Message} :
    List.Forall₂ Answers calls results → Paired ms → Paired (.toolCalls calls :: (results ++ ms))

/-! ## Calls that wait for their results -/

/-- The calls that wait behind a message when `calls` wait before it; none when the message may
not stand there. -/
def owe : List ToolCall → Message → Option (List ToolCall)
  | [], .toolCalls calls => some calls
  | [], .toolResult _ _ _ => none
  | [], _ => some []
  | c :: calls, .toolResult name callId _ =>
    if name = c.name ∧ callId = c.id then some calls else none
  | _ :: _, _ => none

/-- The calls that wait behind some messages when `calls` wait before them. -/
def owed (calls : List ToolCall) (ms : List Message) : Option (List ToolCall) :=
  ms.foldlM owe calls

theorem owed_cons (calls : List ToolCall) (m : Message) (ms : List Message) :
    owed calls (m :: ms) = (owe calls m).bind fun cs => owed cs ms := rfl

theorem owed_append (calls : List ToolCall) (ms ns : List Message) :
    owed calls (ms ++ ns) = (owed calls ms).bind fun cs => owed cs ns :=
  List.foldlM_append

theorem owe_plain {m : Message} (h : m.isPlain = true) : owe [] m = some [] := by
  cases m <;> first | rfl | cases h

/-- The results of all calls that wait leave none waiting. -/
theorem owed_results {calls : List ToolCall} {results : List Message}
    (h : List.Forall₂ Answers calls results) : owed calls results = some [] := by
  induction h with
  | nil => rfl
  | cons hm _ ih =>
    obtain ⟨content, rfl⟩ := hm
    rw [owed_cons]
    simpa [owe] using ih

/-- Messages that leave no call waiting start with the results of those that waited. -/
theorem split_of_owed {calls : List ToolCall} {ms : List Message} (h : owed calls ms = some []) :
    ∃ results rest, ms = results ++ rest ∧ List.Forall₂ Answers calls results ∧ Paired rest := by
  -- `calls` is general, as each result takes the first of them away
  induction ms generalizing calls with
  | nil =>
    cases h
    exact ⟨[], [], rfl, .nil, .nil⟩
  | cons m ms ih =>
    rw [owed_cons] at h
    obtain ⟨cs, hm, h⟩ := Option.bind_eq_some_iff.1 h
    obtain ⟨results, rest, rfl, ha, hp⟩ := ih h
    rcases calls with _ | ⟨c, calls⟩
    · refine ⟨[], _, rfl, .nil, ?_⟩
      cases m with
      | toolCalls calls =>
        cases hm
        exact .batch ha hp
      | toolResult name callId content => cases hm
      | system c | user c | assistant c r =>
        cases hm
        cases ha
        exact .plain rfl hp
    · cases m with
      | toolResult name callId content =>
        simp only [owe] at hm
        split at hm
        · rename_i hc
          obtain ⟨rfl, rfl⟩ := hc
          cases hm
          exact ⟨_ :: results, rest, rfl, .cons ⟨content, rfl⟩ ha, hp⟩
        · cases hm
      | system | user | assistant | toolCalls => cases hm

/-- A conversation is paired when no call waits behind it. -/
theorem paired_iff_owed (ms : List Message) : Paired ms ↔ owed [] ms = some [] := by
  constructor
  · intro h
    induction h with
    | nil => rfl
    | plain hm _ ih => rw [owed_cons, owe_plain hm]; exact ih
    | batch ha _ ih =>
      rw [owed_cons]
      show owed _ _ = _
      rw [owed_append, owed_results ha]
      exact ih
  · intro h
    obtain ⟨results, rest, rfl, ha, hp⟩ := split_of_owed h
    cases ha
    exact hp

instance (ms : List Message) : Decidable (Paired ms) :=
  decidable_of_iff _ (paired_iff_owed ms).symm

/-! ## Appending -/

/-- What is paired up to some point is paired behind it when it is so on its own. -/
theorem Paired.append_iff {ms : List Message} (h : Paired ms) (ns : List Message) :
    Paired (ms ++ ns) ↔ Paired ns := by
  rw [paired_iff_owed] at h
  rw [paired_iff_owed, paired_iff_owed, owed_append, h]
  rfl

theorem paired_singleton {m : Message} (h : m.isPlain = true) : Paired [m] :=
  .plain h .nil

/-- A request for tools and the results of all its calls. -/
theorem paired_batch {calls : List ToolCall} {results : List Message}
    (h : List.Forall₂ Answers calls results) : Paired (.toolCalls calls :: results) := by
  have := Paired.batch h .nil
  rwa [List.append_nil] at this

/-- Whether a message can stand last: it gives no result and asks for no tool. -/
def Message.settles : Message → Bool
  | .toolCalls calls => calls.isEmpty
  | .toolResult _ _ _ => false
  | .system _ | .user _ | .assistant _ _ => true

theorem paired_singleton_iff (m : Message) : Paired [m] ↔ m.settles = true := by
  rw [paired_iff_owed]
  cases m with
  | toolCalls calls => simp [owed, owe, Message.settles]
  | toolResult name callId content => simp [owed, owe, Message.settles]
  | system | user | assistant => simp [owed, owe, Message.settles]

/-- A message of the user may stand only where no call waits. -/
theorem paired_user_iff (ms : List Message) (text : String) :
    Paired (ms ++ [.user text]) ↔ Paired ms := by
  constructor
  · intro h
    rw [paired_iff_owed, owed_append] at h
    obtain ⟨cs, hm, hu⟩ := Option.bind_eq_some_iff.1 h
    cases cs with
    | nil => exact (paired_iff_owed ms).2 hm
    | cons c cs => cases hu
  · intro h
    exact (h.append_iff _).2 (paired_singleton rfl)

theorem History.new_paired (system : Option String) : Paired (History.new system).messages := by
  cases system with
  | none => exact .nil
  | some text => exact paired_singleton rfl

theorem History.reset_paired (h : History) : Paired h.reset.messages :=
  new_paired _

end Parley.Chat
