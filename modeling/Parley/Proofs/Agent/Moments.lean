/-
The moments at which a turn asks the model for a round. The host gets a request for inference at
each of them and at no other time (`drain_inferences`), and between two of them a turn says exactly
the calls that the model asked for in the round and a result for each (`moments_chain`).

The chain is an induction on the steps of the turn. Its invariant is `Since`: what the turn has read
and said since the moment at which it asked last.
-/
import Parley.Proofs.Agent.Abandoned

namespace Parley

/-- The items of the list that a request to stream has in a field. -/
def Host.Request.items? (field : String) : Host.Request → Option (List Json)
  | .stream _ _ args =>
    match args.get? field with
    | some (.arr vs) => some vs
    | _ => none
  | .define _ _ _ | .delete _ | .call _ _ | .callMethod _ _ _ => none

namespace Agent

open Chat

namespace Turn

/-- Whether a turn asks for a round in its next step. -/
def asks (t : Turn) : Bool :=
  match t.phase with
  | .infer => t.agent.isValid
  | .start _ | .streaming _ | .dispatch _ | .done => false

/-- What a turn asks for in that step. -/
def request (t : Turn) : Host.Request :=
  .stream inferMethod t.agent.component.id (t.agent.inferenceRequest t.options)

/-- The turn as it stands each time that it asks, on the way on which `drain` takes it. -/
def moments : (fuel : Nat) → Turn → List Turn
  | 0, _ => []
  | fuel + 1, t =>
    if t.isDone then []
    else (if t.asks then [t] else []) ++ moments fuel t.emptied.advance

section Requests

variable {t u : Turn}

theorem asks_iff (t : Turn) : t.asks = true ↔ t.phase = .infer ∧ t.agent.isValid = true := by
  unfold asks
  cases t.phase <;> simp

theorem request_conversation (t : Turn) :
    t.request.conversation? = some t.agent.history.messages :=
  asking_conversation t.agent t.options t.agent.history.messages

theorem request_messages (t : Turn) :
    t.request.items? "messages" = some (t.agent.history.messages.map Message.toJson) := rfl

theorem request_tools (t : Turn) :
    t.request.items? "tools" =
      some (t.agent.tools.descriptions.map Tool.Description.functionSpec) := rfl

/-! ## Steps -/

theorem advance_agent (t : Turn) : ∃ ms, t.advance.agent = t.agent.saying ms := by
  cases hd : t.isDone with
  | true =>
    refine ⟨[], ?_⟩
    unfold advance
    simp only [(isDone_iff t).1 hd, saying_nil]
  | false =>
    have hs := step_advance hd
    generalize t.advance = u at hs ⊢
    cases hs with
    | invalid | refused | opened | exhausted | interrupted | undecodable | text | strange
    | misplaced | gaveUp => exact ⟨[], (saying_nil _).symm⟩
    | started | asked | closed | ran | aborted => exact ⟨_, rfl⟩

theorem stream_of_invalid {c : Component} (h : c.valid = false) (w : World) (method : String)
    (args : Json) : c.stream w method args = (.error (.componentInvalid c.id), w) := by
  simp [Component.stream, h]

/-- A step asks for a round exactly when the turn is said to. -/
theorem advance_inferences (hd : t.isDone = false) :
    t.advance.world.inferences = t.world.inferences ++ if t.asks then [t.request] else [] := by
  cases ha : t.asks with
  | true =>
    obtain ⟨hp, hv⟩ := (asks_iff t).1 ha
    obtain ⟨a, w, o, p, es⟩ := t
    cases hp
    exact advance_infer_inferences hv es
  | false =>
    -- in the phase that asks only an invalid agent does not, and its world stays
    have hq {w : World} (hp : t.phase = .infer) {r : Round} (hs : t.agent.component.stream t.world
        inferMethod (t.agent.inferenceRequest t.options) = (r, w)) : w = t.world := by
      have hv : t.agent.component.valid = false := by
        by_contra hv
        have := (asks_iff t).2 ⟨hp, by simpa [isValid] using hv⟩
        simp [ha] at this
      rw [stream_of_invalid hv] at hs
      exact (Prod.mk.inj hs).2.symm
    rw [if_neg Bool.false_ne_true, List.append_nil]
    have hs := step_advance hd
    generalize t.advance = u at hs ⊢
    cases hs with
    | invalid | started | exhausted | interrupted | undecodable | text | asked | strange | closed
    | misplaced | gaveUp => rfl
    | refused hp hs | opened hp hs => exact congrArg World.inferences (hq hp hs)
    | @ran calls _ _ _ hr | @aborted calls _ _ _ _ hr =>
      have hi := dispatch_inferences t.agent t.world calls
      rwa [hr] at hi

/-! ## The whole of a turn -/

theorem drain_succ (n : Nat) (t : Turn) :
    (t.drain (n + 1)).2 = if t.isDone then t.emptied else (t.emptied.advance.drain n).2 := by
  rw [drain]
  split <;> rfl

/-- Draining a turn asks the model at its moments and at no other time. -/
theorem drain_inferences (n : Nat) (t : Turn) :
    (t.drain n).2.world.inferences = t.world.inferences ++ (t.moments n).map request := by
  induction n generalizing t with
  | zero => exact (List.append_nil _).symm
  | succ n ih =>
    rw [drain_succ, moments]
    cases hd : t.isDone with
    | true => exact (List.append_nil _).symm
    | false =>
      have hs : t.emptied.advance.world.inferences =
          t.world.inferences ++ if t.asks then [t.request] else [] :=
        advance_inferences (t := t.emptied) hd
      rw [if_neg Bool.false_ne_true, if_neg Bool.false_ne_true, ih, hs, List.map_append,
        List.append_assoc]
      cases t.asks <;> rfl

theorem drain_agent (n : Nat) (t : Turn) : ∃ ms, (t.drain n).2.agent = t.agent.saying ms := by
  induction n generalizing t with
  | zero => exact ⟨[], (saying_nil _).symm⟩
  | succ n ih =>
    rw [drain_succ]
    split
    · exact ⟨[], (saying_nil _).symm⟩
    · obtain ⟨ms, hm⟩ := advance_agent t.emptied
      obtain ⟨ns, hn⟩ := ih t.emptied.advance
      exact ⟨ms ++ ns, by rw [hn, hm, saying_saying]; rfl⟩

theorem exhaust_agent (t : Turn) : ∃ ms, t.exhaust.2.agent = t.agent.saying ms :=
  drain_agent t.bound t

/-- At each of its moments a turn has said more than at its start, and less than at its end. -/
theorem moments_agent (n : Nat) (t : Turn) :
    ∀ m ∈ t.moments n, ∃ ms ns, m.agent = t.agent.saying ms ∧
      (t.drain n).2.agent = m.agent.saying ns := by
  induction n generalizing t with
  | zero => intro m hm; cases hm
  | succ n ih =>
    intro m hm
    rw [moments] at hm
    split at hm
    · cases hm
    · rename_i hd
      -- the moment is the turn itself, or it comes after the next step
      rcases List.mem_append.1 hm with hm | hm
      · have hmt : m = t := by
          by_cases ha : t.asks = true
          · simpa [ha] using hm
          · simp [ha] at hm
        subst hmt
        obtain ⟨ns, hn⟩ := drain_agent (n + 1) m
        exact ⟨[], ns, (saying_nil _).symm, hn⟩
      · obtain ⟨ms, hms⟩ := advance_agent t.emptied
        obtain ⟨ms', ns, hm', hn⟩ := ih t.emptied.advance m hm
        refine ⟨ms ++ ms', ns, by rw [hm', hms, saying_saying]; rfl, ?_⟩
        rw [drain_succ, if_neg hd]
        exact hn

end Requests

/-! ## From one moment to the next -/

/-- Between two moments a turn says the calls that the model asks for in the round that it opened at
the first, and a result for each. -/
def Adds (m t : Turn) : Prop :=
  ∃ read unread rest texts calls results,
    m.world.rounds = .ok (read ++ unread) :: rest ∧ Reads read unread texts (.asks calls) ∧
    List.Forall₂ Answers calls results ∧
    t.agent.history.messages = m.agent.history.messages ++ .toolCalls calls :: results

/-- What a turn has done since the moment at which it asked last. -/
inductive Since (m t : Turn) : Prop
  | reading {read left : List Item} {rest : List Round} {seen : List Message} :
    t.phase = .streaming left → t.agent = m.agent → m.world.rounds = .ok (read ++ left) :: rest →
    (∀ more unread texts v, Reads more unread texts v →
      Reads (read ++ more) unread (seen ++ texts) v) → Since m t
  | running {read unread : List Item} {rest : List Round} {texts : List Message}
    {calls : List ToolCall} :
    t.phase = .dispatch calls → t.agent = m.agent.saying [.toolCalls calls] →
    m.world.rounds = .ok (read ++ unread) :: rest → Reads read unread texts (.asks calls) → Since m t
  | again : t.phase = .infer → Adds m t → Since m t
  | finished : t.phase = .done → Since m t

section Chain

variable {m t u : Turn}

/-- The events that wait make no difference. -/
theorem Since.congr {m' t' : Turn} (h : Since m t) (ha : m'.agent = m.agent)
    (hw : m'.world = m.world) (ha' : t'.agent = t.agent) (hp' : t'.phase = t.phase) :
    Since m' t' := by
  cases h with
  | reading hp hm hr hx => exact .reading (hp'.trans hp) (by rw [ha', hm, ha]) (hw ▸ hr) hx
  | running hp hm hr hx => exact .running (hp'.trans hp) (by rw [ha', hm, ha]) (hw ▸ hr) hx
  | again hp hm =>
    unfold Adds at hm
    refine .again (hp'.trans hp) ?_
    unfold Adds
    rwa [ha, hw, ha']
  | finished hp => exact .finished (hp'.trans hp)

/-- A turn that has just asked reads the round that it got, if it got one. -/
theorem since_of_asks (ha : t.asks = true) (hs : Step t u) : Since t u := by
  obtain ⟨hp, -⟩ := (asks_iff t).1 ha
  cases hs with
  | refused => exact .finished rfl
  | @opened items w _ hs =>
    exact @Since.reading _ _ [] items _ [] rfl rfl (stream_ok hs).2.1 fun _ _ _ _ h => h
  | invalid h | started h | exhausted h | interrupted h | undecodable h | text h | asked h
  | strange h | closed h | misplaced h | gaveUp h | ran h | aborted h => simp [hp] at h

theorem since_of_emptied (ha : t.asks = true) (hs : Step t.emptied u) : Since t u :=
  (since_of_asks (t := t.emptied) ha hs).congr rfl rfl rfl rfl

/-- A step that asks for no round keeps the invariant. -/
theorem Since.step (h : Since m t) (ha : t.asks = false) (hs : Step t u) : Since m u := by
  cases hs with
  | invalid | refused | exhausted | interrupted | undecodable | strange | closed | misplaced
  | gaveUp | aborted => exact .finished rfl
  | started hp => cases h with
    | reading hp' | running hp' | again hp' | finished hp' => simp [hp] at hp'
  | opened hp hs =>
    have := (asks_iff t).2 ⟨hp, (stream_ok hs).1⟩
    simp [ha] at this
  | @text v x left hp hd => cases h with
    | running hp' | again hp' | finished hp' => simp [hp] at hp'
    | @reading read _ rest seen hp' hm hr hx =>
      rw [hp] at hp'
      cases hp'
      -- the item goes over from what is left of the round to what was read of it
      have hr' : m.world.rounds = .ok ((read ++ [.ok v]) ++ left) :: rest := by simpa using hr
      have hx' (more unread : List Item) (texts : List Message) (verdict : Verdict)
          (h : Reads more unread texts verdict) :
          Reads ((read ++ [.ok v]) ++ more) unread ((seen ++ [x]) ++ texts) verdict := by
        simpa using hx _ _ _ _ (.text hd h)
      exact .reading rfl hm hr' hx'
  | @asked v calls left hp hd => cases h with
    | running hp' | again hp' | finished hp' => simp [hp] at hp'
    | @reading read _ rest seen hp' hm hr hx =>
      rw [hp] at hp'
      cases hp'
      have hr' : m.world.rounds = .ok ((read ++ [.ok v]) ++ left) :: rest := by simpa using hr
      have ha : t.agent.saying [.toolCalls calls] = m.agent.saying [.toolCalls calls] := by rw [hm]
      exact .running rfl ha hr' (hx _ _ _ _ (.asked hd))
  | @ran calls outcomes w hp hr hf => cases h with
    | reading hp' | again hp' | finished hp' => simp [hp] at hp'
    | @running read unread rest texts _ hp' hm hw hread =>
      rw [hp] at hp'
      cases hp'
      have hres := resultsOf_answers (calls.zip outcomes)
      rw [calls_of_zip hr] at hres
      -- the request for the calls was said when it was read, the results are said now
      refine .again rfl ⟨read, unread, rest, texts, calls, _, hw, hread, hres, ?_⟩
      show (t.agent.saying _).history.messages = _
      rw [hm, saying_saying]
      rfl

theorem isChain_since (n : Nat) (h : Since m t) : List.IsChain Adds (m :: t.moments n) := by
  induction n generalizing m t with
  | zero => exact .singleton m
  | succ n ih =>
    rw [moments]
    cases hd : t.isDone with
    | true => exact .singleton m
    | false =>
      have hs : Step t.emptied t.emptied.advance := step_advance hd
      cases ha : t.asks with
      | false =>
        have h' : Since m t.emptied := h.congr rfl rfl rfl rfl
        exact ih (h'.step ha hs)
      | true =>
        -- only a turn that has answered the calls of its round asks again
        cases h with
        | reading hp | running hp | finished hp => simp [asks, hp] at ha
        | again _ hm => exact .cons_cons hm (ih (since_of_emptied ha hs))

/-- Whether a turn is behind a request whose round it has not done with. -/
def inRound (t : Turn) : Bool :=
  match t.phase with
  | .streaming _ | .dispatch _ => true
  | .start _ | .infer | .done => false

theorem step_inRound (hr : t.inRound = false) (ha : t.asks = false) (hs : Step t u) :
    u.inRound = false := by
  cases hs with
  | invalid | started | refused | undecodable | exhausted | interrupted | strange | closed
  | misplaced | gaveUp | ran | aborted => rfl
  | opened hp hs =>
    have := (asks_iff t).2 ⟨hp, (stream_ok hs).1⟩
    simp [ha] at this
  | text hp | asked hp => simp [inRound, hp] at hr

/-- From each moment of a turn to the next the conversation grows by the calls of a round and a
result for each. -/
theorem moments_chain (n : Nat) (h : t.inRound = false) : List.IsChain Adds (t.moments n) := by
  induction n generalizing t with
  | zero => exact .nil
  | succ n ih =>
    rw [moments]
    cases hd : t.isDone with
    | true => exact .nil
    | false =>
      have hs : Step t.emptied t.emptied.advance := step_advance hd
      cases ha : t.asks with
      | false => exact ih (step_inRound (t := t.emptied) h ha hs)
      | true => exact isChain_since n (since_of_emptied ha hs)

end Chain

end Turn

end Agent

end Parley
