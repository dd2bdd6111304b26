/-
The life of an agent: turns that are consumed to their end, with the conversation cleared now and
then. What a life asks of the model is well paired as long as no turn that another turn follows
at once is closed by a message that asks for tools or gives a result: nothing else that the model
streams can part a request for tools from its results.

A turn keeps the pairing in all it says but its closing message (`Course.messages_paired_iff`),
and the first request of the next turn shows whether it was kept (`run_asks`).
-/
import Parley.Proofs.Agent.Script
import Parley.Proofs.Chat.Pairing

namespace Parley.Agent

open Chat Turn

/-! ## The messages of a turn -/

/-- Every call of a batch has its result, in the order of the calls. -/
theorem resultsOf_answers (results : List (ToolCall × Outcome)) :
    List.Forall₂ Answers (results.map Prod.fst) (resultsOf results) := by
  unfold resultsOf
  rw [List.forall₂_map_left_iff, List.forall₂_map_right_iff, List.forall₂_same]
  exact fun r _ => ⟨_, rfl⟩

theorem batchSaid_paired (results : List (ToolCall × Outcome)) : Paired (batchSaid results) :=
  paired_batch (resultsOf_answers results)

/-- Every batch is complete, so only the message that closes the turn can spoil it. -/
theorem Course.messages_paired_iff (c : Course) :
    Paired c.messages ↔ ∀ x, c.closing? = some x → x.settles = true := by
  induction c with
  | refused e => exact iff_of_true .nil fun _ h => by cases h
  | aborted read texts results e =>
    exact iff_of_true (batchSaid_paired results) fun _ h => by cases h
  | batch read texts results next ih => exact ((batchSaid_paired results).append_iff _).trans ih
  | ended read texts e =>
    cases e with
    | gaveUp m => exact iff_of_true .nil fun _ h => by cases h
    | broken e => exact iff_of_true .nil fun _ h => by cases h
    | closed m =>
      have hm : Paired (Ending.closed m).messages ↔ m.settles = true := by
        cases m with
        | system c => exact iff_of_true .nil rfl
        | user | assistant | toolCalls | toolResult => exact paired_singleton_iff _
      refine hm.trans ⟨fun h x hx => ?_, fun h => h m rfl⟩
      cases hx
      exact h

/-- All conversations of a turn are paired when the one is that it starts with. -/
theorem Course.conversations_paired (c : Course) {ms : List Message} (h : Paired ms) :
    ∀ x ∈ c.conversations ms, Paired x := by
  induction c generalizing ms with
  | refused | ended | aborted =>
    intro x hx
    rw [List.mem_singleton.1 hx]
    exact h
  | batch read texts results next ih =>
    intro x hx
    rcases List.mem_cons.1 hx with rfl | hx
    · exact h
    · exact ih ((h.append_iff _).2 (batchSaid_paired results)) x hx

theorem Course.mem_conversations (c : Course) (ms : List Message) : ms ∈ c.conversations ms := by
  cases c <;> exact List.mem_cons_self

/-! ## Deeds -/

/-- What is done with an agent as a whole. -/
inductive Deed where
  /-- A turn, consumed to its end. -/
  | turn (message : String) (o : RunOptions)
  | clear

/-- The agent and the world after a deed. -/
def Deed.run (s : Agent × World) : Deed → Agent × World
  | .turn message o =>
    let t := (Turn.new s.1 s.2 o message).exhaust.2
    (t.agent, t.world)
  | .clear => (s.1.clearMessages, s.2)

/-- The agent and the world after some deeds. -/
def live (deeds : List Deed) (s : Agent × World) : Agent × World :=
  deeds.foldl (fun s d => d.run s) s

/-- The model closes a turn with a message. -/
def Closes (s : Agent × World) (message : String) (o : RunOptions) (m : Message) : Prop :=
  s.1.isValid = true ∧ ∃ c : Course, c.ServedBy s.2.rounds ∧
    c.PerformedIn o (s.1.saying [.user message]) s.2 ∧ c.closing? = some m

/-! ## One turn -/

section OneTurn

variable {a : Agent} {w : World} {message : String} {o : RunOptions}

theorem run_eq {es : List (Except Error Event)} {u : Turn}
    (h : Drains (Turn.new a w o message) es u) :
    (Deed.turn message o).run (a, w) = (u.agent, u.world) := by
  show ((Turn.new a w o message).exhaust.2.agent, (Turn.new a w o message).exhaust.2.world) = _
  rw [exhaust_eq h]

/-- A turn of an agent that was deleted does nothing. -/
theorem run_invalid (hv : a.isValid = false) : (Deed.turn message o).run (a, w) = (a, w) := by
  have hs : (Turn.new a w o message).advance =
      (Turn.new a w o message).fail (.componentInvalid a.component.id) := by
    unfold Turn.new advance
    simp only [hv]
    rfl
  exact run_eq (drains_last rfl rfl hs rfl)

theorem run_course (hv : a.isValid = true) {c : Course} (hs : c.ServedBy w.rounds)
    (hp : c.PerformedIn o (a.saying [.user message]) w) :
    (Deed.turn message o).run (a, w) =
      (a.saying (.user message :: c.messages), c.worldAfter o (a.saying [.user message]) w) :=
  run_eq (drains_new c a w o message hv hs hp)

theorem run_isValid (d : Deed) (s : Agent × World) : (d.run s).1.isValid = s.1.isValid := by
  obtain ⟨a, w⟩ := s
  cases d with
  | clear => rfl
  | turn message o =>
    cases hv : a.isValid with
    | false => rw [run_invalid hv]; exact hv
    | true =>
      obtain ⟨c, hs, hp⟩ := course_exists o w.rounds (a.saying [.user message]) w hv rfl
      rw [run_course hv hs hp]
      exact hv

/-- A turn keeps the pairing unless it is closed by a message that cannot stand last. -/
theorem run_paired_iff (h : Paired a.history.messages) :
    Paired ((Deed.turn message o).run (a, w)).1.history.messages ↔
      ∀ x, Closes (a, w) message o x → x.settles = true := by
  cases hv : a.isValid with
  | false =>
    rw [run_invalid hv]
    refine iff_of_true h fun x hx => ?_
    rw [hx.1] at hv
    cases hv
  | true =>
    have hc (c : Course) (hs : c.ServedBy w.rounds)
        (hp : c.PerformedIn o (a.saying [.user message]) w) :
        Paired ((Deed.turn message o).run (a, w)).1.history.messages ↔
          ∀ x, c.closing? = some x → x.settles = true := by
      rw [run_course hv hs hp, saying_messages, h.append_iff, ← c.messages_paired_iff]
      exact (paired_singleton (m := .user message) rfl).append_iff c.messages
    constructor
    · rintro hr x ⟨-, c, hs, hp, hx⟩
      exact (hc c hs hp).1 hr x hx
    · intro hx
      obtain ⟨c, hs, hp⟩ := course_exists o w.rounds (a.saying [.user message]) w hv rfl
      exact (hc c hs hp).2 fun x hcx => hx x ⟨hv, c, hs, hp, hcx⟩

/-- A request shows the model a paired conversation. -/
def ShowsPaired (r : Host.Request) : Prop :=
  ∃ ms, r.conversation? = some ms ∧ Paired ms

instance (r : Host.Request) : Decidable (ShowsPaired r) :=
  decidable_of_iff (∃ ms ∈ r.conversation?, Paired ms) Iff.rfl

theorem asking_showsPaired (a : Agent) (o : RunOptions) (ms : List Message) :
    ShowsPaired (a.asking o ms) ↔ Paired ms := by
  unfold ShowsPaired
  rw [asking_conversation]
  constructor
  · rintro ⟨_, h, hp⟩
    cases h
    exact hp
  · exact fun hp => ⟨ms, rfl, hp⟩

/-- What a turn asks of the model is paired just when the conversation before it is. -/
theorem run_asks (hv : a.isValid = true) (w : World) (message : String) (o : RunOptions) :
    ∃ sent, ((Deed.turn message o).run (a, w)).2.inferences = w.inferences ++ sent ∧
      ((∀ r ∈ sent, ShowsPaired r) ↔ Paired a.history.messages) := by
  obtain ⟨c, hs, hp⟩ := course_exists o w.rounds (a.saying [.user message]) w hv rfl
  rw [run_course hv hs hp]
  refine ⟨_, worldAfter_inferences c _ w hv, ?_⟩
  rw [List.forall_mem_map]
  simp only [asking_showsPaired]
  rw [saying_messages]
  constructor
  · intro h
    exact (paired_user_iff _ message).1 (h _ (c.mem_conversations _))
  · intro h
    exact c.conversations_paired ((paired_user_iff _ message).2 h)

theorem run_asks_paired (h : Paired a.history.messages) (w : World) (message : String)
    (o : RunOptions) :
    ∃ sent, ((Deed.turn message o).run (a, w)).2.inferences = w.inferences ++ sent ∧
      ∀ r ∈ sent, ShowsPaired r := by
  cases hv : a.isValid with
  | false =>
    rw [run_invalid hv]
    exact ⟨[], (List.append_nil _).symm, fun r hr => by cases hr⟩
  | true =>
    obtain ⟨sent, hs, hi⟩ := run_asks hv w message o
    exact ⟨sent, hs, hi.2 h⟩

end OneTurn

/-! ## A whole life -/

/-- No turn that another follows at once is closed by a message that cannot stand last. -/
def Sound (deeds : List Deed) (s : Agent × World) : Prop :=
  ∀ before message o message' o' after m,
    deeds = before ++ .turn message o :: .turn message' o' :: after →
    Closes (live before s) message o m → m.settles = true

theorem sound_nil (s : Agent × World) : Sound [] s := by
  intro before _ _ _ _ _ _ h
  exact absurd h.symm (List.append_ne_nil_of_right_ne_nil _ (List.cons_ne_nil _ _))

theorem sound_cons (d : Deed) (ds : List Deed) (s : Agent × World) :
    Sound (d :: ds) s ↔ Sound ds (d.run s) ∧ ∀ message o message' o' after m,
      d :: ds = .turn message o :: .turn message' o' :: after →
      Closes s message o m → m.settles = true := by
  constructor
  · intro h
    refine ⟨fun before message o message' o' after m hd hc => ?_,
      fun message o message' o' after m hd hc => h [] message o message' o' after m hd hc⟩
    exact h (d :: before) message o message' o' after m (congrArg (d :: ·) hd) hc
  · rintro ⟨ht, hh⟩ before message o message' o' after m hd hc
    cases before with
    | nil => exact hh message o message' o' after m hd hc
    | cons b before =>
      obtain ⟨rfl, hds⟩ := List.cons.inj hd
      exact ht before message o message' o' after m hds hc

theorem run_inferences (d : Deed) (s : Agent × World) :
    ∃ sent, (d.run s).2.inferences = s.2.inferences ++ sent := by
  obtain ⟨a, w⟩ := s
  cases d with
  | clear => exact ⟨[], (List.append_nil _).symm⟩
  | turn message o =>
    cases hv : a.isValid with
    | false => exact ⟨[], by rw [run_invalid hv, List.append_nil]⟩
    | true =>
      obtain ⟨sent, hs, -⟩ := run_asks hv w message o
      exact ⟨sent, hs⟩

theorem live_inferences (deeds : List Deed) (s : Agent × World) :
    ∃ sent, (live deeds s).2.inferences = s.2.inferences ++ sent := by
  induction deeds generalizing s with
  | nil => exact ⟨[], (List.append_nil _).symm⟩
  | cons d ds ih =>
    obtain ⟨first, hf⟩ := run_inferences d s
    obtain ⟨rest, hr⟩ := ih (d.run s)
    exact ⟨first ++ rest, by rw [← List.append_assoc, ← hf]; exact hr⟩

/-- A turn that starts from a conversation that is not paired shows it to the model. -/
theorem live_spoilt {a : Agent} {w : World} (hv : a.isValid = true)
    (hp : ¬ Paired a.history.messages) (message : String) (o : RunOptions) (ds : List Deed) :
    ∃ sent, (live (.turn message o :: ds) (a, w)).2.inferences = w.inferences ++ sent ∧
      ¬ ∀ r ∈ sent, ShowsPaired r := by
  obtain ⟨first, hf, hs⟩ := run_asks hv w message o
  obtain ⟨rest, hr⟩ := live_inferences ds ((Deed.turn message o).run (a, w))
  refine ⟨first ++ rest, by rw [← List.append_assoc, ← hf]; exact hr, fun h => hp (hs.1 ?_)⟩
  exact fun r hr => h r (List.mem_append_left _ hr)

/-- The induction behind the main result: a life may also start from any conversation that is
cleared before the first turn. -/
theorem live_asks (deeds : List Deed) (a : Agent) (w : World)
    (h : Paired a.history.messages ∨ ∀ message o rest, deeds ≠ .turn message o :: rest) :
    ∃ sent, (live deeds (a, w)).2.inferences = w.inferences ++ sent ∧
      ((∀ r ∈ sent, ShowsPaired r) ↔ Sound deeds (a, w)) := by
  -- along the deeds: the history is paired, or it is cleared before a turn can show it
  induction deeds generalizing a w with
  | nil =>
    refine ⟨[], (List.append_nil _).symm, iff_of_true (fun r hr => ?_) (sound_nil _)⟩
    cases hr
  | cons d ds ih =>
    cases d with
    | clear =>
      obtain ⟨sent, hs, hi⟩ := ih a.clearMessages w (.inl (History.reset_paired _))
      refine ⟨sent, hs, hi.trans ?_⟩
      rw [sound_cons]
      refine (and_iff_left fun _ _ _ _ _ _ hd _ => ?_).symm
      cases hd
    | turn message o =>
      have hp : Paired a.history.messages := by
        rcases h with h | h
        · exact h
        · exact absurd rfl (h message o ds)
      obtain ⟨first, hf, hs⟩ := run_asks_paired hp w message o
      rw [sound_cons]
      by_cases hk : Paired ((Deed.turn message o).run (a, w)).1.history.messages ∨
          ∀ message o rest, ds ≠ .turn message o :: rest
      · obtain ⟨rest, hr, hi⟩ := ih _ _ hk
        refine ⟨first ++ rest, by rw [← List.append_assoc, ← hf]; exact hr, ?_⟩
        rw [List.forall_mem_append, and_iff_right hs, hi]
        refine (and_iff_left ?_).symm
        intro _ _ _ _ _ m hd hc
        obtain ⟨hd, hds⟩ := List.cons.inj hd
        cases hd
        rcases hk with hk | hk
        · exact (run_paired_iff hp).1 hk m hc
        · exact absurd hds (hk _ _ _)
      · -- the turn is spoilt and the next one shows it
        rw [not_or] at hk
        obtain ⟨hn, hk⟩ := hk
        have hv : ((Deed.turn message o).run (a, w)).1.isValid = true := by
          rw [run_isValid]
          by_contra hv
          rw [run_invalid (Bool.not_eq_true _ ▸ hv)] at hn
          exact hn hp
        simp only [ne_eq, not_forall, not_not] at hk
        obtain ⟨message', o', rest', rfl⟩ := hk
        obtain ⟨rest, hr, hi⟩ := live_spoilt hv hn message' o' rest'
        refine ⟨first ++ rest, by rw [← List.append_assoc, ← hf]; exact hr, ?_⟩
        refine iff_of_false (fun h => hi fun r hr => h r (List.mem_append_right _ hr)) ?_
        rintro ⟨-, hc⟩
        exact hn ((run_paired_iff hp).2 fun m => hc message o message' o' rest' m rfl)

/-- All that an agent asks of the model along a life is well paired just when the life is sound. -/
theorem requests_paired_iff (deeds : List Deed) (a : Agent) (w : World)
    (h : Paired a.history.messages) :
    ∃ sent, (live deeds (a, w)).2.inferences = w.inferences ++ sent ∧
      ((∀ r ∈ sent, ShowsPaired r) ↔ Sound deeds (a, w)) :=
  live_asks deeds a w (.inl h)

/-- A life of two turns with a batch of calls in the first. -/
theorem two_turns_sound :
    Paired (fresh (.qwen "small" "Qwen") [.constant "clock" (.str "noon")]).history.messages ∧
    Sound [.turn "What time is it?" ⟨true, false⟩, .turn "Thanks." ⟨true, false⟩]
      (fresh (.qwen "small" "Qwen") [.constant "clock" (.str "noon")],
        .scripted [.ok [.ok (Delta.mk (some .toolCalls) (.toolCalls [.new "1" "clock" []])).toJson],
          .ok [.ok (Delta.mk (some .stop) (.assistant "Noon." none)).toJson]]) := by
  refine ⟨by decide, ?_⟩
  obtain ⟨sent, hs, hi⟩ := requests_paired_iff
    [.turn "What time is it?" ⟨true, false⟩, .turn "Thanks." ⟨true, false⟩]
    (fresh (.qwen "small" "Qwen") [.constant "clock" (.str "noon")])
    (.scripted [.ok [.ok (Delta.mk (some .toolCalls) (.toolCalls [.new "1" "clock" []])).toJson],
      .ok [.ok (Delta.mk (some .stop) (.assistant "Noon." none)).toJson]]) (by decide)
  refine hi.1 ?_
  rw [show World.inferences (.scripted _) = [] from rfl, List.nil_append] at hs
  rw [← hs]
  decide +kernel

/-- A turn that the model closes with a request for tools: the next turn asks the model with a
call that has no result. -/
theorem closing_request_unanswered :
    Paired (fresh (.qwen "small" "Qwen") []).history.messages ∧
    ∃ r ∈ (live [.turn "Hello." ⟨true, false⟩, .turn "Go on." ⟨true, false⟩]
      (fresh (.qwen "small" "Qwen") [],
        .scripted [.ok [.ok (Delta.mk (some .stop) (.toolCalls [.new "1" "clock" []])).toJson]])
      ).2.inferences, ¬ ShowsPaired r := by
  decide +kernel

end Parley.Agent
