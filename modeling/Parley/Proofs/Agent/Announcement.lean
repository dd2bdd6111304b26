/-
Announcement before execution. A turn goes on only while its caller waits for an item and none is
there to be given, so whatever was decided before an act of the turn has been delivered by then. The
calls of a batch are decided when the request for them is read. So when the batch is run its caller
has got every one of them, and has asked for more behind the last; and no round is asked for while
something of an earlier one is undelivered (`announced_before_run`).

A journal (`Recorded`) has all that a turn does and all that its caller does and gets. Every way to
poll a turn has one, and so has every moment in the middle of a poll.
-/
import Parley.Proofs.Agent.Lifecycle

namespace Parley

open Chat

/-- Whether the model stops for good. -/
def Chat.FinishReason.isClosing : FinishReason → Bool
  | .stop | .length | .error => true
  | .toolCalls => false

namespace Agent.Turn

/-! ## Journals -/

/-- What happens in a turn. -/
inductive Entry where
  /-- The caller asks for an item. -/
  | polled
  /-- The caller gets an item. -/
  | took (item : Except Error Event)
  /-- The caller is told that there is none. -/
  | over
  /-- The model is asked for a round. -/
  | asked (request : Host.Request)
  /-- An item of the round is read. -/
  | read (item : Item)
  /-- The calls of a batch are run. -/
  | ran (calls : List ToolCall) (done : List Tool.Invocation)
  /-- Items are decided, to be delivered in their order. -/
  | decided (items : List (Except Error Event))

namespace Entry

/-- Whether the turn acts on the outside or hears from it. -/
def isAct : Entry → Bool
  | .asked _ | .read _ | .ran _ _ => true
  | .polled | .took _ | .over | .decided _ => false

/-- The item that the caller gets. -/
def item? : Entry → Option (Except Error Event)
  | .took item => some item
  | .polled | .over | .asked _ | .read _ | .ran _ _ | .decided _ => none

/-- The items that are decided. -/
def items : Entry → List (Except Error Event)
  | .decided items => items
  | .polled | .took _ | .over | .asked _ | .read _ | .ran _ _ => []

/-- What the host is asked. -/
def requests : Entry → List Host.Request
  | .asked request => [request]
  | .ran _ done => done.flatMap Tool.Invocation.requests
  | .polled | .took _ | .over | .read _ | .decided _ => []

/-- What tool servers are asked. -/
def sessions : Entry → List (List Mcp.Asked)
  | .ran _ done => done.flatMap Tool.Invocation.sessions
  | .polled | .took _ | .over | .asked _ | .read _ | .decided _ => []

/-- The polls of the caller. -/
def isPoll : Entry → Bool
  | .polled => true
  | .took _ | .over | .asked _ | .read _ | .ran _ _ | .decided _ => false

end Entry

/-- The items that the caller has got. -/
def taken (j : List Entry) : List (Except Error Event) := j.filterMap Entry.item?

/-- The items that were decided. -/
def decided (j : List Entry) : List (Except Error Event) := j.flatMap Entry.items

/-- A call is delivered, and its caller asks for more. -/
def announcement (c : ToolCall) : List Entry :=
  [.took (.ok (.toolCall c true)), .polled]

/-- The calls of a batch are read, and then delivered one by one. -/
def Announces (j : List Entry) (calls : List ToolCall) : Prop :=
  ∃ earlier v, Delta.decode v = .ok ⟨some .toolCalls, .toolCalls calls⟩ ∧
    j = earlier ++ .read (.ok v) :: .decided ((callsShown calls).map .ok) ::
      calls.flatMap announcement

/-- The delta with which the model stops was read. -/
def Closed (j : List Entry) : Prop :=
  ∃ v m, ∃ r : FinishReason, .read (.ok v) ∈ j ∧ Delta.decode v = .ok ⟨some r, m⟩ ∧
    r.isClosing = true

/-- The act of the next step, if it is one. -/
def act? (t : Turn) : Option Entry :=
  match t.phase with
  | .infer => if t.agent.isValid then some (.asked t.request) else none
  | .streaming (item :: _) => some (.read item)
  | .dispatch calls => some (.ran calls (invocations t.agent t.world calls))
  | .start _ | .streaming [] | .done => none

/-- What has happened in a turn, whether its caller waits for an item, and how the turn stands. -/
inductive Recorded (start : Turn) : List Entry → (waiting : Bool) → Turn → Prop
  | start : Recorded start [] false start
  | poll {j : List Entry} {t : Turn} :
    Recorded start j false t → Recorded start (j ++ [.polled]) true t
  | take {j : List Entry} {t : Turn} {item : Except Error Event}
    {items : List (Except Error Event)} :
    Recorded start j true t → t.pending = item :: items →
    Recorded start (j ++ [.took item]) false { t with pending := items }
  | work {j : List Entry} {t : Turn} :
    Recorded start j true t → t.pending = [] → t.isDone = false →
    Recorded start (j ++ t.act?.toList ++ [.decided t.advance.pending]) true t.advance
  | finish {j : List Entry} {t : Turn} :
    Recorded start j true t → t.pending = [] → t.isDone = true →
    Recorded start (j ++ [.over]) false t

/-! ## Polling has a journal -/

section Polling

variable {start t : Turn} {j : List Entry}

theorem taken_append (j k : List Entry) : taken (j ++ k) = taken j ++ taken k :=
  List.filterMap_append

theorem decided_append (j k : List Entry) : decided (j ++ k) = decided j ++ decided k :=
  List.flatMap_append

/-- The acts that there are, and the phases that they belong to. -/
theorem of_act? {e : Entry} (h : t.act? = some e) :
    (t.phase = .infer ∧ e = .asked t.request) ∨
      (∃ item rest, t.phase = .streaming (item :: rest) ∧ e = .read item) ∨
      ∃ calls, t.phase = .dispatch calls ∧ e = .ran calls (invocations t.agent t.world calls) := by
  unfold act? at h
  split at h
  · rename_i hp
    split at h <;> cases h
    exact .inl ⟨hp, rfl⟩
  · rename_i item rest hp
    cases h
    exact .inr (.inl ⟨item, rest, hp, rfl⟩)
  · rename_i calls hp
    cases h
    exact .inr (.inr ⟨calls, hp, rfl⟩)
  · cases h
  · cases h
  · cases h

/-- An act delivers nothing and decides nothing. -/
theorem act?_silent (t : Turn) : taken t.act?.toList = [] ∧ decided t.act?.toList = [] ∧
    t.act?.toList.countP Entry.isPoll = 0 := by
  cases h : t.act? with
  | none => exact ⟨rfl, rfl, rfl⟩
  | some e =>
    rcases of_act? h with ⟨-, rfl⟩ | ⟨_, _, -, rfl⟩ | ⟨_, -, rfl⟩ <;> exact ⟨rfl, rfl, rfl⟩

/-- Settling goes on with the journal, and delivers nothing. -/
theorem recorded_settle (h : Recorded start j true t) (fuel : Nat) :
    ∃ k, Recorded start (j ++ k) true (t.settle fuel) ∧ taken k = [] ∧
      k.countP Entry.isPoll = 0 := by
  refine settle_keeps (P := fun u => ∃ k, Recorded start (j ++ k) true u ∧ taken k = [] ∧
    k.countP Entry.isPoll = 0) ?_ fuel t ⟨[], by rwa [List.append_nil], rfl, rfl⟩
  rintro u hp hd ⟨k, hk, ht, hc⟩
  obtain ⟨hat, -, hac⟩ := act?_silent u
  have hw := hk.work hp hd
  rw [List.append_assoc, List.append_assoc] at hw
  refine ⟨_, hw, ?_, ?_⟩
  · rw [taken_append, taken_append, ht, hat]
    rfl
  · rw [List.countP_append, List.countP_append, hc, hac]
    rfl

/-- Whoever polls a few times has a journal of what happened, with as many polls at most. -/
theorem recorded_takeEvents (n : Nat) (h : Recorded start j false t) :
    ∃ k, Recorded start (j ++ k) false (t.takeEvents n).2 ∧ taken k = (t.takeEvents n).1 ∧
      k.countP Entry.isPoll ≤ n := by
  induction n generalizing j t with
  | zero => exact ⟨[], by rwa [List.append_nil], rfl, Nat.le_refl 0⟩
  | succ n ih =>
    obtain ⟨k, hk, ht, hc⟩ := recorded_settle h.poll t.weight
    unfold takeEvents
    rcases next_eq t with ⟨s, rfl, hp, hd, hn⟩ | ⟨s, e, es, rfl, hp, hn⟩
    · have hf := hk.finish hp hd
      rw [List.append_assoc, List.append_assoc] at hf
      rw [hn]
      refine ⟨_, hf, ?_, ?_⟩
      · rw [taken_append, taken_append, ht]
        rfl
      · rw [List.countP_append, List.countP_append, hc]
        exact Nat.succ_le_succ (Nat.zero_le n)
    · obtain ⟨l, hl, hlt, hlc⟩ := ih (hk.take hp)
      rw [List.append_assoc, List.append_assoc, List.append_assoc] at hl
      rw [hn]
      refine ⟨_, hl, ?_, ?_⟩
      · rw [taken_append, taken_append, taken_append, ht, hlt]
        rfl
      · rw [List.countP_append, List.countP_append, List.countP_append, hc]
        show 1 + (0 + (0 + _)) ≤ _
        omega

end Polling

/-! ## What a step does -/

section Steps

variable {t u : Turn}

theorem stream_sessions (c : Component) (w : World) (method : String) (args : Json) :
    (c.stream w method args).2.sessions = w.sessions := by
  unfold Component.stream World.stream
  cases c.valid with
  | false => rfl
  | true => cases w.rounds <;> rfl

/-- The act of a step is all that the step asks outside. -/
theorem advance_effects (hd : t.isDone = false) :
    t.advance.world.log = t.world.log ++ t.act?.toList.flatMap Entry.requests ∧
      t.advance.world.sessions = t.world.sessions ++ t.act?.toList.flatMap Entry.sessions := by
  have hs := step_advance hd
  generalize t.advance = u at hs ⊢
  cases hs with
  | invalid hp | started hp | exhausted hp | interrupted hp | undecodable hp | text hp | asked hp
  | strange hp | closed hp | misplaced hp | gaveUp hp =>
    unfold act?
    rw [hp]
    exact ⟨(List.append_nil _).symm, (List.append_nil _).symm⟩
  | refused hp hs | opened hp hs =>
    have hlog := stream_log t.agent.component t.world inferMethod (t.agent.inferenceRequest t.options)
    have hses := stream_sessions t.agent.component t.world inferMethod
      (t.agent.inferenceRequest t.options)
    rw [hs] at hlog hses
    unfold act? isValid
    rw [hp]
    refine ⟨hlog.trans ?_, hses.trans ?_⟩ <;> dsimp only <;> cases t.agent.component.valid <;>
      simp [Entry.requests, Entry.sessions, request]
  | @ran calls outcomes w hp hr | @aborted calls outcomes w _ hp hr =>
    rw [dispatch_eq] at hr
    cases hr
    unfold act?
    rw [hp]
    exact ⟨by simp [World.notingBatch, Entry.requests, fail],
      by simp [World.notingBatch, Entry.sessions, fail]⟩

/-- A turn that read the delta with which the model stops is done. -/
theorem done_of_closing {v : Json} {m : Message} {r : FinishReason} {rest : List Item}
    (hs : Step t u) (hp : t.phase = .streaming (.ok v :: rest))
    (hd : Delta.decode v = .ok ⟨some r, m⟩) (hr : r.isClosing = true) : u.phase = .done := by
  cases hs with
  | closed | misplaced | gaveUp | invalid | refused | exhausted | interrupted | undecodable
  | strange | aborted => rfl
  | started hp' | opened hp' | ran hp' => simp [hp] at hp'
  | text hp' hd' =>
    rw [hp] at hp'
    cases hp'
    rw [hd] at hd'
    cases hd'
  | asked hp' hd' =>
    rw [hp] at hp'
    cases hp'
    rw [hd] at hd'
    cases hd'
    cases hr

/-- A turn comes to a batch when it reads the request for it, and shows the calls then. -/
theorem read_of_dispatch {calls : List ToolCall} (hs : Step t u) (hu : u.phase = .dispatch calls) :
    ∃ v, Delta.decode v = .ok ⟨some .toolCalls, .toolCalls calls⟩ ∧
      t.act? = some (.read (.ok v)) ∧ u.pending = t.pending ++ (callsShown calls).map .ok := by
  cases hs with
  | invalid | started | refused | opened | exhausted | interrupted | undecodable | text | strange
  | closed | misplaced | gaveUp | ran | aborted => cases hu
  | @asked v _ rest hp hd =>
    cases hu
    refine ⟨v, hd, ?_, rfl⟩
    unfold act?
    rw [hp]

end Steps

/-! ## The invariant -/

/-- What holds of a journal when an entry is added to it. -/
structure Fits (j : List Entry) (e : Entry) : Prop where
  delivered : e.isAct = true → decided j = taken j
  goesOn : e.isAct = true → ¬ Closed j
  announced : ∀ calls done, e = .ran calls done → Announces j calls

/-- How a journal and a turn go together. -/
structure InStep (j : List Entry) (waiting : Bool) (t : Turn) : Prop where
  queue : decided j = taken j ++ t.pending
  /-- Of a batch that the turn has come to some calls have been delivered, and the others wait. -/
  batch : ∀ calls, t.phase = .dispatch calls → ∃ earlier v given left,
    Delta.decode v = .ok ⟨some .toolCalls, .toolCalls calls⟩ ∧ calls = given ++ left ∧
      t.pending = (callsShown left).map .ok ∧
      (bif waiting then j else j ++ [.polled]) = earlier ++ .read (.ok v) ::
        .decided ((callsShown calls).map .ok) :: given.flatMap announcement
  goesOn : t.phase ≠ .done → ¬ Closed j

section Invariant

variable {start t : Turn} {j : List Entry} {e : Entry} {waiting : Bool}

theorem closed_append (j k : List Entry) : Closed (j ++ k) ↔ Closed j ∨ Closed k := by
  constructor
  · rintro ⟨v, m, r, hm, hd, hr⟩
    rcases List.mem_append.1 hm with hm | hm
    · exact .inl ⟨v, m, r, hm, hd, hr⟩
    · exact .inr ⟨v, m, r, hm, hd, hr⟩
  · rintro (⟨v, m, r, hm, hd, hr⟩ | ⟨v, m, r, hm, hd, hr⟩)
    · exact ⟨v, m, r, List.mem_append_left _ hm, hd, hr⟩
    · exact ⟨v, m, r, List.mem_append_right _ hm, hd, hr⟩

/-- Only reading closes a turn. -/
theorem not_closed_singleton (h : ∀ item, e ≠ .read item) : ¬ Closed [e] := by
  rintro ⟨v, m, r, hm, -, -⟩
  exact h _ (List.mem_singleton.1 hm).symm

theorem closed_concat_iff (h : ∀ item, e ≠ .read item) : Closed (j ++ [e]) ↔ Closed j := by
  rw [closed_append, or_iff_left (not_closed_singleton h)]

theorem inStep_new (a : Agent) (w : World) (o : RunOptions) (message : String) :
    InStep [] false (Turn.new a w o message) where
  queue := rfl
  batch := fun _ h => by cases h
  goesOn := by
    rintro - ⟨v, m, r, hm, -, -⟩
    cases hm

theorem InStep.poll (h : InStep j false t) : InStep (j ++ [.polled]) true t where
  queue := by
    rw [decided_append, taken_append, h.queue]
    simp [decided, taken, Entry.items, Entry.item?]
  batch := h.batch
  goesOn hd := by
    rw [closed_concat_iff (by simp)]
    exact h.goesOn hd

theorem InStep.take {item : Except Error Event} {items : List (Except Error Event)}
    (h : InStep j true t) (hp : t.pending = item :: items) :
    InStep (j ++ [.took item]) false { t with pending := items } where
  queue := by
    rw [decided_append, taken_append, h.queue, hp]
    simp [decided, taken, Entry.items, Entry.item?]
  batch calls hphase := by
    obtain ⟨earlier, v, given, left, hd, rfl, hw, hj⟩ := h.batch calls hphase
    rw [hp] at hw
    -- the next of the calls is delivered
    cases left with
    | nil => cases hw
    | cons c left =>
      obtain ⟨rfl, rfl⟩ := List.cons.inj hw
      refine ⟨earlier, v, given ++ [c], left, hd, by simp, rfl, ?_⟩
      have hj : j = earlier ++ .read (.ok v) ::
        .decided ((callsShown (given ++ c :: left)).map .ok) :: given.flatMap announcement := hj
      rw [hj]
      simp [announcement]
  goesOn hd := by
    rw [closed_concat_iff (by simp)]
    exact h.goesOn hd

theorem InStep.finish (h : InStep j true t) (hd : t.isDone = true) :
    InStep (j ++ [.over]) false t where
  queue := by
    rw [decided_append, taken_append, h.queue]
    simp [decided, taken, Entry.items, Entry.item?]
  batch calls hphase := by
    rw [(isDone_iff t).1 hd] at hphase
    cases hphase
  goesOn hn := absurd ((isDone_iff t).1 hd) hn

/-- What a step does fits the journal of a turn whose caller has got all that was decided. -/
theorem InStep.fits (h : InStep j true t) (hp : t.pending = []) (hd : t.isDone = false)
    (he : t.act? = some e) : Fits j e where
  delivered _ := by rw [h.queue, hp, List.append_nil]
  goesOn _ := h.goesOn (fun hn => by simp [isDone, hn] at hd)
  announced calls done hrun := by
    have hphase : t.phase = .dispatch calls := by
      rcases of_act? (hrun ▸ he) with ⟨-, h⟩ | ⟨_, _, -, h⟩ | ⟨_, hphase, h⟩ <;> cases h
      exact hphase
    obtain ⟨earlier, v, given, left, hd, rfl, hw, hj⟩ := h.batch calls hphase
    -- no call is left to be delivered
    cases left with
    | nil => exact ⟨earlier, v, hd, by simpa using hj⟩
    | cons c left =>
      rw [hp] at hw
      cases hw

theorem InStep.work (h : InStep j true t) (hp : t.pending = []) (hd : t.isDone = false) :
    InStep (j ++ t.act?.toList ++ [.decided t.advance.pending]) true t.advance where
  queue := by
    obtain ⟨htaken, hdecided, -⟩ := act?_silent t
    rw [decided_append, decided_append, taken_append, taken_append, htaken, hdecided, h.queue, hp]
    simp [decided, taken, Entry.items, Entry.item?]
  batch calls hphase := by
    obtain ⟨v, hv, hact, hw⟩ := read_of_dispatch (step_advance hd) hphase
    refine ⟨j, v, [], calls, hv, rfl, ?_, ?_⟩
    · rw [hw, hp, List.nil_append]
    · rw [hact, hw, hp]
      simp
  goesOn hn := by
    have hnot : t.phase ≠ .done := fun hp => by simp [isDone, hp] at hd
    rw [closed_concat_iff (by simp), closed_append, not_or]
    refine ⟨h.goesOn hnot, ?_⟩
    rintro ⟨v, m, r, hm, hv, hr⟩
    -- the delta with which the model stops would have been the last
    have hread : t.act? = some (.read (.ok v)) := by simpa using hm
    obtain ⟨rest, hphase⟩ : ∃ rest, t.phase = .streaming (.ok v :: rest) := by
      rcases of_act? hread with ⟨-, h⟩ | ⟨_, rest, hphase, h⟩ | ⟨_, -, h⟩ <;> cases h
      exact ⟨rest, hphase⟩
    exact hn (done_of_closing (step_advance hd) hphase hv hr)

/-- An entry that is no act fits anywhere. -/
theorem fits_of_not_isAct (he : e.isAct = false) : Fits j e where
  delivered h := by simp [he] at h
  goesOn h := by simp [he] at h
  announced _ _ h := by
    subst h
    cases he

/-- The entries of a journal are fitting if those of the shorter journal are, and the last is. -/
theorem fits_concat (hj : ∀ before x after, j = before ++ x :: after → Fits before x)
    (he : Fits j e) : ∀ before x after, j ++ [e] = before ++ x :: after → Fits before x := by
  intro before x after h
  rcases List.eq_nil_or_concat after with rfl | ⟨after, y, rfl⟩
  · obtain ⟨rfl, hx⟩ := List.append_inj' h rfl
    cases hx
    exact he
  · have h : j ++ [e] = (before ++ x :: after) ++ [y] := by simpa using h
    exact hj before x after (List.append_inj' h rfl).1

/-- The journal and the turn go together at every moment, and every entry fits those before it. -/
theorem Recorded.inStep {a : Agent} {w : World} {o : RunOptions} {message : String}
    (h : Recorded (.new a w o message) j waiting t) : InStep j waiting t ∧
      ∀ before e after, j = before ++ e :: after → Fits before e := by
  induction h with
  | start => exact ⟨inStep_new a w o message, fun b _ _ hb => by cases b <;> cases hb⟩
  | poll _ ih => exact ⟨ih.1.poll, fits_concat ih.2 (fits_of_not_isAct rfl)⟩
  | take _ hp ih => exact ⟨ih.1.take hp, fits_concat ih.2 (fits_of_not_isAct rfl)⟩
  | finish _ _ hd ih => exact ⟨ih.1.finish hd, fits_concat ih.2 (fits_of_not_isAct rfl)⟩
  | @work j t _ hp hd ih =>
    refine ⟨ih.1.work hp hd, fits_concat ?_ (fits_of_not_isAct rfl)⟩
    cases he : t.act? with
    | none =>
      rw [Option.toList_none, List.append_nil]
      exact ih.2
    | some e => exact fits_concat ih.2 (ih.1.fits hp hd he)

/-- All that was asked outside stands in the journal. -/
theorem Recorded.effects (h : Recorded start j waiting t) :
    t.world.log = start.world.log ++ j.flatMap Entry.requests ∧
      t.world.sessions = start.world.sessions ++ j.flatMap Entry.sessions := by
  induction h with
  | start => exact ⟨(List.append_nil _).symm, (List.append_nil _).symm⟩
  | poll _ ih | take _ _ ih | finish _ _ _ ih => simpa [Entry.requests, Entry.sessions] using ih
  | work _ _ hd ih =>
    obtain ⟨hlog, hsessions⟩ := advance_effects hd
    rw [hlog, hsessions, ih.1, ih.2]
    simp [Entry.requests, Entry.sessions]

end Invariant

/-! ## Announcement before execution -/

/-- What the journal of a turn says when the turn stands as it does. -/
structure Announced (w : World) (j : List Entry) (t : Turn) : Prop where
  /-- It has all that was asked outside. -/
  log : t.world.log = w.log ++ j.flatMap Entry.requests
  sessions : t.world.sessions = w.sessions ++ j.flatMap Entry.sessions
  /-- What was decided was delivered, or waits. -/
  queue : decided j = taken j ++ t.pending
  /-- When a batch is run each of its calls was delivered, and its caller asked for more behind
  the last. -/
  ran : ∀ before calls done after, j = before ++ .ran calls done :: after → Announces before calls
  /-- When a round is asked for, an item read or a batch run, nothing is undelivered. -/
  delivered : ∀ before e after, j = before ++ e :: after → e.isAct = true →
    decided before = taken before
  /-- Nothing of that happens behind the delta with which the model stops. -/
  closed : ∀ before v m after, ∀ r : FinishReason, j = before ++ .read (.ok v) :: after →
    Delta.decode v = .ok ⟨some r, m⟩ → r.isClosing = true → ∀ e ∈ after, e.isAct = false

/-- Announcement before execution, at every moment of every turn and however often it is polled. -/
theorem announced_before_run (a : Agent) (w : World) (o : RunOptions) (message : String) :
    (∀ k, ∃ j, Recorded (.new a w o message) j false ((Turn.new a w o message).takeEvents k).2 ∧
      taken j = ((Turn.new a w o message).takeEvents k).1 ∧ j.countP Entry.isPoll ≤ k) ∧
    ∀ j waiting t, Recorded (.new a w o message) j waiting t → Announced w j t := by
  refine ⟨fun k => ?_, fun j waiting t h => ?_⟩
  · exact recorded_takeEvents k .start
  · obtain ⟨hstep, hfits⟩ := h.inStep
    obtain ⟨hlog, hsessions⟩ := h.effects
    refine ⟨hlog, hsessions, hstep.queue, fun before calls done after hj => ?_,
      fun before e after hj => (hfits before e after hj).delivered, ?_⟩
    · exact (hfits before _ after hj).announced calls done rfl
    · rintro before v m after r rfl hd hr e he
      obtain ⟨between, behind, rfl⟩ := List.append_of_mem he
      have hfit := hfits (before ++ .read (.ok v) :: between) e behind (by simp)
      by_contra hact
      exact hfit.goesOn (by simpa using hact) ⟨v, m, r, by simp, hd, hr⟩

/-- A caller that polls three times for a batch of two calls: the batch is run in the third poll,
behind both calls. -/
theorem two_calls_announced :
    let first : ToolCall := .new "1" "clock" []
    let second : ToolCall := .new "2" "clock" []
    let delta := (Delta.mk (some .toolCalls) (.toolCalls [first, second])).toJson
    let start := Turn.new (fresh (.qwen "small" "Qwen") [.constant "clock" (.str "noon")])
      (.scripted [.ok [.ok delta]]) ⟨true, false⟩ "What time is it?"
    ∃ request done after t,
      let before := [.polled, .decided [], .asked request, .decided [], .read (.ok delta),
        .decided [.ok (.toolCall first true), .ok (.toolCall second true)],
        .took (.ok (.toolCall first true)), .polled, .took (.ok (.toolCall second true)), .polled]
      Recorded start (before ++ .ran [first, second] done :: after) true t ∧
        Announces before [first, second] := by
  intro first second delta start
  have hstart : Recorded start [] false start := .start
  have hread := ((hstart.poll.work rfl rfl).work rfl rfl).work rfl rfl
  have hrun := ((hread.take rfl).poll.take rfl).poll.work rfl rfl
  have hannounced := (announced_before_run _ _ _ _).2 _ _ _ hrun
  exact ⟨start.advance.request, _, _, _, hrun, hannounced.ran _ _ _ _ rfl⟩

end Agent.Turn

end Parley
