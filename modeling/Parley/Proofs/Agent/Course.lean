/-
The course of a turn: what the model said in each round, what came of the calls that it asked for,
and how the turn ended. A course is data, told apart from the machine that runs turns; it fits a
script when each round of the script starts with the items that the course read there
(`Course.ServedBy`), and an agent when its batches have the outcomes that the agent's tools give
(`Course.PerformedIn`). From a course its events, its failure and its messages are read off.

Every turn of a valid agent has a course, and shows, says and asks the host for exactly what the
course says (`drains_of_course`).
-/
import Parley.Proofs.Agent.Polling

namespace Parley.Agent

open Chat Turn

/-! ## Rounds -/

/-- How a round ends in which the model asks for no tools. -/
inductive Ending where
  /-- The model stops, with its last message. -/
  | closed (m : Message)
  /-- The model gives up, with a message that says why. -/
  | gaveUp (m : Message)
  /-- The stream gives nothing that can be used. -/
  | broken (e : Error)

/-- How a round ends. -/
inductive Verdict where
  | asks (calls : List ToolCall)
  | ends (e : Ending)

/-- The items of a stream up to the one that ends the round, the items behind it, the messages
that the model streams before the end, and the end. -/
inductive Reads : (read unread : List Item) → (texts : List Message) → Verdict → Prop
  | text {v : Json} {m : Message} {read unread : List Item} {texts : List Message}
    {verdict : Verdict} : Delta.decode v = .ok ⟨none, m⟩ → Reads read unread texts verdict →
    Reads (.ok v :: read) unread (m :: texts) verdict
  | asked {v : Json} {calls : List ToolCall} {unread : List Item} :
    Delta.decode v = .ok ⟨some .toolCalls, .toolCalls calls⟩ →
    Reads [.ok v] unread [] (.asks calls)
  | strange {v : Json} {m : Message} {unread : List Item} :
    Delta.decode v = .ok ⟨some .toolCalls, m⟩ → (∀ calls, m ≠ .toolCalls calls) →
    Reads [.ok v] unread [] (.ends (.broken (.invalidDelta noCalls)))
  | closed {v : Json} {r : FinishReason} {m : Message} {unread : List Item} :
    Delta.decode v = .ok ⟨some r, m⟩ → r = .stop ∨ r = .length →
    Reads [.ok v] unread [] (.ends (.closed m))
  | gaveUp {v : Json} {m : Message} {unread : List Item} :
    Delta.decode v = .ok ⟨some .error, m⟩ → Reads [.ok v] unread [] (.ends (.gaveUp m))
  | undecodable {v : Json} {e : Json.Fault} {unread : List Item} :
    Delta.decode v = .error e →
    Reads [.ok v] unread [] (.ends (.broken (.invalidDelta e.message)))
  | interrupted {e : Host.Error} {unread : List Item} :
    Reads [.error e] unread [] (.ends (.broken (.host e)))
  | exhausted : Reads [] [] [] (.ends (.broken (.invalidDelta unfinished)))

/-- Every stream ends the round somewhere. -/
theorem reads_exists : ∀ items : List Item, ∃ read unread texts verdict,
    items = read ++ unread ∧ Reads read unread texts verdict
  | [] => ⟨[], [], [], _, rfl, .exhausted⟩
  | .error e :: rest => ⟨[.error e], rest, [], _, rfl, .interrupted⟩
  | .ok v :: rest => by
    cases hd : Delta.decode v with
    | error e => exact ⟨[.ok v], rest, [], _, rfl, .undecodable hd⟩
    | ok d =>
      obtain ⟨finish, m⟩ := d
      cases finish with
      | none =>
        obtain ⟨read, unread, texts, verdict, rfl, hr⟩ := reads_exists rest
        exact ⟨.ok v :: read, unread, m :: texts, verdict, rfl, .text hd hr⟩
      | some r =>
        cases r with
        | stop => exact ⟨[.ok v], rest, [], _, rfl, .closed hd (.inl rfl)⟩
        | length => exact ⟨[.ok v], rest, [], _, rfl, .closed hd (.inr rfl)⟩
        | error => exact ⟨[.ok v], rest, [], _, rfl, .gaveUp hd⟩
        | toolCalls =>
          cases m with
          | toolCalls calls => exact ⟨[.ok v], rest, [], _, rfl, .asked hd⟩
          | system | user | assistant | toolResult =>
            exact ⟨[.ok v], rest, [], _, rfl, .strange hd fun _ h => by cases h⟩

namespace Ending

/-- The event that the end of a round shows. -/
def events : Ending → List Event
  | .closed m => [.text m false]
  | .gaveUp m => [.error (failureText m)]
  | .broken _ => []

/-- The failure that the end of a round is: a message of the system may not close a turn. -/
def failure? : Ending → Option Error
  | .closed m => if m.isSystem then some (.history .misplacedSystemMessage) else none
  | .gaveUp _ => none
  | .broken e => some e

/-- The message that the end of a round adds to the conversation. -/
def messages : Ending → List Message
  | .closed m => if m.isSystem then [] else [m]
  | .gaveUp _ | .broken _ => []

end Ending

/-! ## Courses -/

/-- The course of a turn from its next round on. Each round that was opened has the items that
were read of it and the messages that the model streamed before the end of the round. -/
inductive Course where
  /-- The round could not be opened. -/
  | refused (e : Host.Error)
  /-- The model asked for no tools. -/
  | ended (read : List Item) (texts : List Message) (ending : Ending)
  /-- The model asked for tools, and a call failed fatally. -/
  | aborted (read : List Item) (texts : List Message) (results : List (ToolCall × Outcome))
    (e : Tool.Error)
  /-- The model asked for tools, and got their results in a further round. -/
  | batch (read : List Item) (texts : List Message) (results : List (ToolCall × Outcome))
    (next : Course)

/-- The events of the messages that the model streams. -/
def textsShown (texts : List Message) : List Event :=
  texts.map fun m => .text m false

/-- The events of a request for tools. -/
def callsShown (calls : List ToolCall) : List Event :=
  calls.map fun c => .toolCall c true

/-- The events of a batch: all its calls, and then all its results. -/
def batchShown (results : List (ToolCall × Outcome)) : List Event :=
  callsShown (results.map Prod.fst) ++ shownOf results

/-- The messages of a batch: the request for its calls, and a result for each. -/
def batchSaid (results : List (ToolCall × Outcome)) : List Message :=
  .toolCalls (results.map Prod.fst) :: resultsOf results

/-- The world when a round has been asked for. -/
def askingFor (a : Agent) (o : RunOptions) (w : World) : World :=
  (a.component.stream w inferMethod (a.inferenceRequest o)).2

/-- The world when the calls of a round have been run. -/
def running (a : Agent) (o : RunOptions) (w : World) (calls : List ToolCall) : World :=
  (a.dispatch (a.askingFor o w) calls).2

namespace Course

/-- What the turn shows. -/
def events : Course → List Event
  | .refused _ => []
  | .ended _ texts e => textsShown texts ++ e.events
  | .aborted _ texts results _ => textsShown texts ++ batchShown results
  | .batch _ texts results next => textsShown texts ++ batchShown results ++ next.events

/-- The failure behind the events, if the turn fails. -/
def failure? : Course → Option Error
  | .refused e => some (.host e)
  | .ended _ _ e => e.failure?
  | .aborted _ _ _ e => some (.tool e)
  | .batch _ _ _ next => next.failure?

/-- All that the turn gives its caller: events, and at most one failure behind them. -/
def items (c : Course) : List (Except Error Event) :=
  c.events.map .ok ++ c.failure?.toList.map .error

/-- What the turn adds to the conversation. -/
def messages : Course → List Message
  | .refused _ => []
  | .ended _ _ e => e.messages
  | .aborted _ _ results _ => batchSaid results
  | .batch _ _ results next => batchSaid results ++ next.messages

/-- The message that the model stopped with, if it stopped. -/
def closing? : Course → Option Message
  | .ended _ _ (.closed m) => some m
  | .batch _ _ _ next => next.closing?
  | _ => none

/-- The conversations that the rounds were opened with, when the first is `ms`. -/
def conversations (ms : List Message) : Course → List (List Message)
  | .refused _ | .ended _ _ _ | .aborted _ _ _ _ => [ms]
  | .batch _ _ results next => ms :: next.conversations (ms ++ batchSaid results)

/-- The rounds of a script start with what the course read of them. -/
def ServedBy : Course → List Round → Prop
  | .refused e, rounds =>
    (∃ rest, rounds = .error e :: rest) ∨ rounds = [] ∧ e = .stream "no more scripted rounds"
  | .ended read texts e, rounds =>
    ∃ unread rest, rounds = .ok (read ++ unread) :: rest ∧ Reads read unread texts (.ends e)
  | .aborted read texts results _, rounds =>
    ∃ unread rest, rounds = .ok (read ++ unread) :: rest ∧
      Reads read unread texts (.asks (results.map Prod.fst))
  | .batch read texts results next, rounds =>
    ∃ unread rest, rounds = .ok (read ++ unread) :: rest ∧
      Reads read unread texts (.asks (results.map Prod.fst)) ∧ next.ServedBy rest

/-- The batches of the course have the outcomes that the tools of the agent give, and the first
fatal failure ends the turn. -/
def PerformedIn (o : RunOptions) : Course → Agent → World → Prop
  | .refused _, _, _ | .ended _ _ _, _, _ => True
  | .aborted _ _ results e, a, w =>
    results.map Prod.snd = (a.dispatch (a.askingFor o w) (results.map Prod.fst)).1 ∧
      fatalOf results = some e
  | .batch _ _ results next, a, w =>
    results.map Prod.snd = (a.dispatch (a.askingFor o w) (results.map Prod.fst)).1 ∧
      fatalOf results = none ∧
      next.PerformedIn o (a.saying (batchSaid results)) (a.running o w (results.map Prod.fst))

/-- The world when the turn is over. -/
def worldAfter (o : RunOptions) : Course → Agent → World → World
  | .refused _, a, w | .ended _ _ _, a, w => a.askingFor o w
  | .aborted _ _ results _, a, w => a.running o w (results.map Prod.fst)
  | .batch _ _ results next, a, w =>
    next.worldAfter o (a.saying (batchSaid results)) (a.running o w (results.map Prod.fst))

end Course

/-! ## Reading a round -/

section Reading

variable {a : Agent} {w : World} {o : RunOptions} {read unread : List Item} {texts : List Message}

/-- A step of a turn that shows something. -/
theorem drains_showing {t u v : Turn} {es : List (Except Error Event)} (hp : t.pending = [])
    (hd : t.isDone = false) (hv : t.advance = v) (h : Drains v.emptied es u) :
    Drains t (v.pending ++ es) u := by
  subst hv
  exact Drains.advance hp hd (h.pend t.advance.pending)

/-- A step that ends a turn shows what it leaves. -/
theorem drains_last {t v : Turn} (hp : t.pending = []) (hd : t.isDone = false)
    (hv : t.advance = v) (hv' : v.phase = .done) : Drains t v.pending v.emptied := by
  subst hv
  exact Drains.advance hp hd (.done ((isDone_iff _).2 hv'))

theorem advance_ok {v : Json} {d : Delta} {rest : List Item} {p : List (Except Error Event)}
    (hd : Delta.decode v = .ok d) :
    advance ⟨a, w, o, .streaming (.ok v :: rest), p⟩ =
      receive ⟨a, w, o, .streaming (.ok v :: rest), p⟩ d rest := by
  unfold advance
  simp only [hd]

theorem advance_closing {v : Json} {r : FinishReason} {m : Message} {rest : List Item}
    (hd : Delta.decode v = .ok ⟨some r, m⟩) (hr : r = .stop ∨ r = .length) :
    advance ⟨a, w, o, .streaming (.ok v :: rest), []⟩ =
      append (Turn.showing ⟨a, w, o, .streaming (.ok v :: rest), []⟩ [.text m false]) m .done := by
  rw [advance_ok hd]
  rcases hr with rfl | rfl <;> rfl

/-- The messages that are streamed are shown one by one. -/
theorem Reads.skip {verdict : Verdict} (h : Reads read unread texts verdict) :
    ∃ last, Reads last unread [] verdict ∧ ∀ {es u},
      Drains ⟨a, w, o, .streaming (last ++ unread), []⟩ es u →
      Drains ⟨a, w, o, .streaming (read ++ unread), []⟩ ((textsShown texts).map .ok ++ es) u := by
  induction h with
  | text hd _ ih =>
    obtain ⟨last, hl, ih⟩ := ih
    refine ⟨last, hl, fun h => ?_⟩
    exact drains_showing rfl rfl (advance_ok hd) (ih h)
  | asked hd => exact ⟨_, .asked hd, id⟩
  | strange hd hm => exact ⟨_, .strange hd hm, id⟩
  | closed hd hr => exact ⟨_, .closed hd hr, id⟩
  | gaveUp hd => exact ⟨_, .gaveUp hd, id⟩
  | undecodable hd => exact ⟨_, .undecodable hd, id⟩
  | interrupted => exact ⟨_, .interrupted, id⟩
  | exhausted => exact ⟨_, .exhausted, id⟩

/-- A delta that closes the turn: its message is taken, unless the system says it behind others. -/
theorem drains_closed {v : Json} {r : FinishReason} {m : Message}
    (hd : Delta.decode v = .ok ⟨some r, m⟩) (hr : r = .stop ∨ r = .length)
    (hh : a.history.messages ≠ []) :
    Drains ⟨a, w, o, .streaming (.ok v :: unread), []⟩
      (Course.ended [.ok v] [] (.closed m)).items
      ⟨a.saying (Ending.closed m).messages, w, o, .done, []⟩ := by
  cases hm : m.isSystem with
  | true =>
    have hi : (Course.ended [.ok v] [] (.closed m)).items =
        [.ok (.text m false), .error (.history .misplacedSystemMessage)] := by
      simp [Course.items, Course.events, Course.failure?, textsShown, Ending.events,
        Ending.failure?, hm]
    have hms : (Ending.closed m).messages = [] := by simp [Ending.messages, hm]
    rw [hi, hms, saying_nil]
    exact drains_last rfl rfl ((advance_closing hd hr).trans (append_refused .done hm hh)) rfl
  | false =>
    have hi : (Course.ended [.ok v] [] (.closed m)).items = [.ok (.text m false)] := by
      simp [Course.items, Course.events, Course.failure?, textsShown, Ending.events,
        Ending.failure?, hm]
    have hms : (Ending.closed m).messages = [m] := by simp [Ending.messages, hm]
    rw [hi, hms]
    exact drains_last rfl rfl ((advance_closing hd hr).trans (append_taken .done (.inl hm))) rfl

/-- A round that ends the turn. -/
theorem drains_ending {e : Ending} (hr : Reads read unread texts (.ends e))
    (hh : a.history.messages ≠ []) :
    Drains ⟨a, w, o, .streaming (read ++ unread), []⟩ (Course.ended read texts e).items
      ⟨a.saying e.messages, w, o, .done, []⟩ := by
  -- what is streamed before is shown whatever the end is, so the end may come first
  suffices h : ∀ last, Reads last unread [] (.ends e) →
      Drains ⟨a, w, o, .streaming (last ++ unread), []⟩ (Course.ended last [] e).items
        ⟨a.saying e.messages, w, o, .done, []⟩ by
    obtain ⟨last, hl, hs⟩ := hr.skip (a := a) (w := w) (o := o)
    have := hs (h last hl)
    unfold Course.items Course.events at this ⊢
    rwa [← List.append_assoc, ← List.map_append] at this
  intro last hl
  cases hl with
  | @strange v m _ hd hm =>
    rw [Ending.messages, saying_nil]
    cases m with
    | toolCalls calls => exact absurd rfl (hm calls)
    | system | user | assistant | toolResult => exact drains_last rfl rfl (advance_ok hd) rfl
  | closed hd hs => exact drains_closed hd hs hh
  | gaveUp hd =>
    rw [Ending.messages, saying_nil]
    exact drains_last rfl rfl (advance_ok hd) rfl
  | @undecodable v f _ hd =>
    rw [Ending.messages, saying_nil]
    have hv : advance ⟨a, w, o, .streaming (.ok v :: unread), []⟩ =
        Turn.fail ⟨a, w, o, .streaming (.ok v :: unread), []⟩ (.invalidDelta f.message) := by
      unfold advance
      simp only [hd]
    exact drains_last rfl rfl hv rfl
  | interrupted =>
    rw [Ending.messages, saying_nil]
    exact drains_last rfl rfl rfl rfl
  | exhausted =>
    rw [Ending.messages, saying_nil]
    exact drains_last rfl rfl rfl rfl

/-- A round that asks for tools. -/
theorem drains_asking {calls : List ToolCall} (hr : Reads read unread texts (.asks calls))
    {es : List (Except Error Event)} {u : Turn}
    (h : Drains ⟨a.saying [.toolCalls calls], w, o, .dispatch calls, []⟩ es u) :
    Drains ⟨a, w, o, .streaming (read ++ unread), []⟩
      ((textsShown texts ++ callsShown calls).map .ok ++ es) u := by
  obtain ⟨last, hl, hs⟩ := hr.skip (a := a) (w := w) (o := o)
  rw [List.map_append, List.append_assoc]
  refine hs ?_
  cases hl with
  | asked hd => exact drains_showing rfl rfl (advance_ok hd) h

end Reading

/-! ## Running a batch -/

section Batch

variable {a : Agent} {w : World} {o : RunOptions} {results : List (ToolCall × Outcome)}

theorem zip_of_outcomes (h : results.map Prod.snd = (a.dispatch w (results.map Prod.fst)).1) :
    (results.map Prod.fst).zip (a.dispatch w (results.map Prod.fst)).1 = results := by
  rw [← h]
  exact (List.zip_of_prod rfl rfl).symm

theorem advance_dispatch (h : results.map Prod.snd = (a.dispatch w (results.map Prod.fst)).1) :
    advance ⟨a, w, o, .dispatch (results.map Prod.fst), []⟩ =
      record ⟨a, (a.dispatch w (results.map Prod.fst)).2, o, .dispatch (results.map Prod.fst), []⟩
        results :=
  congrArg (record _) (zip_of_outcomes h)

/-- A batch that lets the turn go on. -/
theorem drains_ran (h : results.map Prod.snd = (a.dispatch w (results.map Prod.fst)).1)
    (hf : fatalOf results = none) {es : List (Except Error Event)} {u : Turn}
    (hu : Drains ⟨a.saying (resultsOf results), (a.dispatch w (results.map Prod.fst)).2, o,
      .infer, []⟩ es u) :
    Drains ⟨a, w, o, .dispatch (results.map Prod.fst), []⟩ ((shownOf results).map .ok ++ es) u := by
  unfold fatalOf at hf
  have hv := advance_dispatch (o := o) h
  unfold record at hv
  simp only [hf] at hv
  exact drains_showing rfl rfl hv hu

/-- A batch with a fatal failure. -/
theorem drains_aborted (h : results.map Prod.snd = (a.dispatch w (results.map Prod.fst)).1)
    {e : Tool.Error} (hf : fatalOf results = some e) :
    Drains ⟨a, w, o, .dispatch (results.map Prod.fst), []⟩
      ((shownOf results).map .ok ++ [.error (.tool e)])
      ⟨a.saying (resultsOf results), (a.dispatch w (results.map Prod.fst)).2, o, .done, []⟩ := by
  unfold fatalOf at hf
  have hv := advance_dispatch (o := o) h
  unfold record at hv
  simp only [hf] at hv
  exact drains_last rfl rfl hv rfl

end Batch

/-! ## Opening a round -/

section Opening

variable {a : Agent} {w : World} {o : RunOptions}

/-- A valid agent gets the next round of the script. -/
theorem stream_round (hv : a.isValid = true) {round : Round} {rest : List Round}
    (hw : w.rounds = round :: rest) :
    a.component.stream w inferMethod (a.inferenceRequest o) = (round, a.askingFor o w) ∧
      (a.askingFor o w).rounds = rest := by
  unfold isValid at hv
  unfold askingFor Component.stream World.stream
  simp only [hv, hw, if_true, and_self]

theorem stream_exhausted (hv : a.isValid = true) (hw : w.rounds = []) :
    a.component.stream w inferMethod (a.inferenceRequest o) =
      (.error (.stream "no more scripted rounds"), a.askingFor o w) := by
  unfold isValid at hv
  unfold askingFor Component.stream World.stream
  simp only [hv, hw, if_true]

/-- A round that the host refuses ends the turn. -/
theorem drains_refused {e : Host.Error}
    (h : a.component.stream w inferMethod (a.inferenceRequest o) = (.error e, a.askingFor o w)) :
    Drains ⟨a, w, o, .infer, []⟩ [.error (.host e)] ⟨a, a.askingFor o w, o, .done, []⟩ := by
  have hv : advance ⟨a, w, o, .infer, []⟩ =
      Turn.fail ⟨a, a.askingFor o w, o, .infer, []⟩ (.host e) := by
    unfold advance
    simp only [h]
  exact drains_last rfl rfl hv rfl

theorem drains_opened {items : List Item}
    (h : a.component.stream w inferMethod (a.inferenceRequest o) = (.ok items, a.askingFor o w))
    {es : List (Except Error Event)} {u : Turn}
    (hu : Drains ⟨a, a.askingFor o w, o, .streaming items, []⟩ es u) :
    Drains ⟨a, w, o, .infer, []⟩ es u := by
  have hv : advance ⟨a, w, o, .infer, []⟩ = ⟨a, a.askingFor o w, o, .streaming items, []⟩ := by
    unfold advance
    simp only [h]
  rw [← hv] at hu
  exact Drains.advance rfl rfl hu

end Opening

/-! ## A turn along its course -/

theorem Course.items_batch (read : List Item) (texts : List Message)
    (results : List (ToolCall × Outcome)) (next : Course) :
    (Course.batch read texts results next).items =
      (textsShown texts ++ callsShown (results.map Prod.fst)).map .ok ++
        ((shownOf results).map .ok ++ next.items) := by
  simp [Course.items, Course.events, Course.failure?, batchShown]

theorem Course.items_aborted (read : List Item) (texts : List Message)
    (results : List (ToolCall × Outcome)) (e : Tool.Error) :
    (Course.aborted read texts results e).items =
      (textsShown texts ++ callsShown (results.map Prod.fst)).map .ok ++
        ((shownOf results).map .ok ++ [.error (.tool e)]) := by
  simp [Course.items, Course.events, Course.failure?, batchShown]

/-- A turn that is about to open a round goes as its course says. -/
theorem drains_of_course (o : RunOptions) (c : Course) (a : Agent) (w : World)
    (hv : a.isValid = true) (hh : a.history.messages ≠ []) (hs : c.ServedBy w.rounds)
    (hp : c.PerformedIn o a w) :
    Drains ⟨a, w, o, .infer, []⟩ c.items
      ⟨a.saying c.messages, c.worldAfter o a w, o, .done, []⟩ := by
  induction c generalizing a w with
  | refused e =>
    rw [Course.messages, saying_nil]
    rcases hs with ⟨rest, hw⟩ | ⟨hw, rfl⟩
    · exact drains_refused (stream_round hv hw).1
    · exact drains_refused (stream_exhausted hv hw)
  | ended read texts e =>
    obtain ⟨unread, rest, hw, hr⟩ := hs
    exact drains_opened (stream_round hv hw).1 (drains_ending hr hh)
  | aborted read texts results e =>
    obtain ⟨unread, rest, hw, hr⟩ := hs
    obtain ⟨ho, hf⟩ := hp
    rw [Course.items_aborted]
    have hd := drains_aborted (a := a.saying [.toolCalls (results.map Prod.fst)]) (o := o) ho hf
    rw [saying_saying] at hd
    exact drains_opened (stream_round hv hw).1 (drains_asking hr hd)
  | batch read texts results next ih =>
    obtain ⟨unread, rest, hw, hr, hs⟩ := hs
    obtain ⟨ho, hf, hp⟩ := hp
    rw [Course.items_batch]
    -- the next round is opened by the agent that has said the whole batch
    have hne : (a.saying (batchSaid results)).history.messages ≠ [] := by
      rw [saying_messages]
      exact List.append_ne_nil_of_left_ne_nil hh _
    have hrounds : (a.running o w (results.map Prod.fst)).rounds = rest :=
      (stream_round hv hw).2
    have hd := ih (a.saying (batchSaid results)) (a.running o w (results.map Prod.fst)) hv hne
      (by rwa [hrounds]) hp
    rw [saying_saying] at hd
    refine drains_opened (stream_round hv hw).1 (drains_asking hr ?_)
    exact drains_ran (a := a.saying [.toolCalls (results.map Prod.fst)]) ho hf
      (by rwa [saying_saying])

end Parley.Agent
