/-
Turns that are given up. Whoever stops polling a turn leaves the conversation as the last step
made it, and a request for tools stands in it as soon as the first of its calls is shown. So a
turn that is given up behind a call, and before the first result, leaves the calls of the batch
without results, and the next turn shows them so to the model.

The invariant is `Tidy`: the calls that wait in the conversation are those that the turn is about
to run, and an event that waits is a call exactly when there are any.
-/
import Parley.Proofs.Agent.Life

namespace Parley

open Chat

/-! ## Orderly scripts -/

/-- Whether a delta carries calls when it asks for tools, and text of the assistant otherwise. -/
def Chat.Delta.isOrderly (d : Delta) : Bool :=
  match d.finish, d.message with
  | some .toolCalls, .toolCalls _ => true
  | some .toolCalls, _ => false
  | _, .assistant _ _ => true
  | _, _ => false

/-- Whether an item of a stream is orderly, if it is a delta at all. -/
def Item.isOrderly : Item → Bool
  | .ok v =>
    match Delta.decode v with
    | .ok d => d.isOrderly
    | .error _ => true
  | .error _ => true

/-- Whether all deltas of a round are orderly. -/
def Round.isOrderly : Round → Bool
  | .ok items => items.all Item.isOrderly
  | .error _ => true

/-- All deltas of a script are orderly. -/
def Orderly (rounds : List Round) : Prop :=
  ∀ r ∈ rounds, Round.isOrderly r = true

instance (rounds : List Round) : Decidable (Orderly rounds) :=
  inferInstanceAs (Decidable (∀ r ∈ rounds, _))

/-- Whether an item that a turn shows is a call. -/
def Chat.Event.isCall : Except Error Event → Bool
  | .ok (.toolCall _ _) => true
  | .ok (.outputText _ _) | .ok (.reasoning _ _) | .ok (.toolResult _) | .ok (.error _) => false
  | .error _ => false

theorem Chat.Event.text_isCall (m : Message) (b : Bool) : Event.isCall (.ok (.text m b)) = false := by
  unfold Event.text
  dsimp only
  split <;> rfl

namespace Agent

open Turn

/-! ## The invariant -/

/-- The calls that a turn is about to run. -/
def Phase.awaited : Phase → List ToolCall
  | .dispatch calls => calls
  | .start _ | .infer | .streaming _ | .done => []

/-- The calls without results are those that the turn is about to run, and an event that waits is
a call exactly when there are any. -/
structure Tidy (t : Turn) : Prop where
  rounds : Orderly t.world.rounds
  items : ∀ items, t.phase = .streaming items → Round.isOrderly (.ok items) = true
  owing : owed [] t.agent.history.messages = some (Phase.awaited t.phase)
  waiting : ∀ e ∈ t.pending, Event.isCall e = true ↔ Phase.awaited t.phase ≠ []

theorem Tidy.paired_iff {t : Turn} (h : Tidy t) :
    Paired t.agent.history.messages ↔ Phase.awaited t.phase = [] := by
  rw [paired_iff_owed, h.owing, Option.some_inj]

theorem tidy_new {a : Agent} {w : World} (o : RunOptions) (message : String)
    (hp : Paired a.history.messages) (ho : Orderly w.rounds) :
    Tidy (Turn.new a w o message) where
  rounds := ho
  items := fun _ h => by cases h
  owing := (paired_iff_owed _).1 hp
  waiting := fun _ h => by cases h

/-! ## Every step keeps the invariant -/

section Steps

variable {t : Turn}

/-- A batch has an outcome for each of its calls. -/
theorem calls_of_zip {a : Agent} {w w' : World} {calls : List ToolCall}
    {outcomes : List Outcome} (h : a.dispatch w calls = (outcomes, w')) :
    (calls.zip outcomes).map Prod.fst = calls := by
  cases h
  exact List.map_fst_zip (by simp)

/-- The results of a batch leave no call waiting. -/
theorem owed_resultsOf {a : Agent} {w w' : World} {calls : List ToolCall}
    {outcomes : List Outcome} (h : a.dispatch w calls = (outcomes, w')) :
    owed calls (resultsOf (calls.zip outcomes)) = some [] := by
  have ha := resultsOf_answers (calls.zip outcomes)
  rw [calls_of_zip h] at ha
  exact owed_results ha

theorem shownOf_ne_nil {results : List (ToolCall × Outcome)} (h : results ≠ []) :
    shownOf results ≠ [] := by
  cases results with
  | nil => exact absurd rfl h
  | cons r rs => simp [shownOf, eventsOf]

theorem shownOf_isCall {results : List (ToolCall × Outcome)} :
    ∀ e ∈ shownOf results, Event.isCall (.ok e) = false := by
  intro e he
  obtain ⟨⟨c, outcome⟩, -, he⟩ := List.mem_flatMap.1 he
  unfold eventsOf at he
  rcases List.mem_append.1 he with he | he
  · cases outcome with
    | done v => cases he
    | failed e => rw [List.mem_singleton.1 he]; rfl
    | aborted e => cases he
  · rw [List.mem_singleton.1 he]
    rfl

/-- What has to be seen to of a step that says some messages. -/
theorem Tidy.next {u : Turn} {p : Phase} {ms : List Message} (h : Tidy t) (hp : t.phase = p)
    (hr : u.world.rounds <:+ t.world.rounds)
    (hi : ∀ items, u.phase = .streaming items → Round.isOrderly (.ok items) = true)
    (hm : u.agent = t.agent.saying ms)
    (ho : owed (Phase.awaited p) ms = some (Phase.awaited u.phase))
    (hw : ∀ e ∈ u.pending, Event.isCall e = true ↔ Phase.awaited u.phase ≠ []) : Tidy u where
  rounds := fun r hr' => h.rounds r (hr.subset hr')
  items := hi
  owing := by
    rw [hm, saying_messages, owed_append, h.owing, hp]
    exact ho
  waiting := hw

/-- No event that waits is a call when the turn is not about to run any. -/
theorem waiting_none {p : Phase} {es fs : List (Except Error Event)} (hp : Phase.awaited p = [])
    (hes : es = []) (hfs : ∀ e ∈ fs, Event.isCall e = false) :
    ∀ e ∈ es ++ fs, Event.isCall e = true ↔ Phase.awaited p ≠ [] := by
  intro e he
  rw [hes, List.nil_append] at he
  rw [hfs e he, hp]
  simp

theorem isPlain_of_closing {v : Json} {rest : List Item} {r : FinishReason} {m : Message}
    (h : Round.isOrderly (.ok (.ok v :: rest)) = true) (hd : Delta.decode v = .ok ⟨some r, m⟩)
    (hr : r = .stop ∨ r = .length) : m.isPlain = true := by
  have ho : Item.isOrderly (.ok v) = true := (Bool.and_eq_true _ _ ▸ h).1
  unfold Item.isOrderly at ho
  simp only [hd] at ho
  unfold Delta.isOrderly at ho
  rcases hr with rfl | rfl <;> cases m <;> first | rfl | cases ho

theorem failed_isCall {e : Error} : ∀ i ∈ [.error e], Event.isCall i = false :=
  List.forall_mem_singleton.2 rfl

theorem shown_isCall {es : List Event} (h : ∀ e ∈ es, Event.isCall (.ok e) = false) :
    ∀ i ∈ es.map .ok, Event.isCall i = false :=
  List.forall_mem_map.2 h

theorem waiting_failed {p : Phase} {es : List (Except Error Event)} {fs : List Event} {e : Error}
    (hp : Phase.awaited p = []) (hes : es = [])
    (hfs : ∀ e ∈ fs, Event.isCall (.ok e) = false) :
    ∀ i ∈ es ++ fs.map .ok ++ [.error e],
      Event.isCall i = true ↔ Phase.awaited p ≠ [] := by
  rw [List.append_assoc]
  exact waiting_none hp hes (List.forall_mem_append.2 ⟨shown_isCall hfs, failed_isCall⟩)

/-- Every step that follows when no event waits keeps the invariant. -/
theorem tidy_step {u : Turn} (h : Tidy t) (hp : t.pending = []) (hs : Step t u) : Tidy u := by
  have still : t.agent = t.agent.saying [] := (saying_nil _).symm
  have same : t.world.rounds <:+ t.world.rounds := List.suffix_refl _
  -- only a request for tools leaves calls waiting, and only results answer them
  cases hs with
  | invalid hph | exhausted hph | interrupted hph | undecodable hph | strange hph =>
    exact h.next hph same (fun _ hi => by cases hi) still rfl (waiting_none rfl hp failed_isCall)
  | refused hph hs =>
    exact h.next hph (stream_error hs) (fun _ hi => by cases hi) still rfl
      (waiting_none rfl hp failed_isCall)
  | misplaced hph =>
    exact h.next hph same (fun _ hi => by cases hi) still rfl
      (waiting_failed rfl hp (List.forall_mem_singleton.2 (Event.text_isCall _ false)))
  | gaveUp hph =>
    exact h.next hph same (fun _ hi => by cases hi) still rfl
      (waiting_none rfl hp (shown_isCall (List.forall_mem_singleton.2 rfl)))
  | started hph =>
    refine h.next hph same (fun _ hi => by cases hi) rfl rfl ?_
    exact fun e he => by simp [hp] at he
  | @opened items w hph hs =>
    have hr := (stream_ok hs).2.1
    refine h.next hph ?_ (fun is hi => ?_) still rfl (fun e he => by simp [hp] at he)
    · rw [hr]
      exact List.suffix_cons _ _
    · cases hi
      exact h.rounds (.ok items) (by rw [hr]; exact List.mem_cons_self)
  | @text v m rest hph hd =>
    refine h.next hph same (fun is hi => ?_) still rfl (waiting_none rfl hp
      (shown_isCall (List.forall_mem_singleton.2 (Event.text_isCall m false))))
    cases hi
    exact (Bool.and_eq_true _ _ ▸ h.items _ hph).2
  | @asked v calls rest hph hd =>
    refine h.next hph same (fun is hi => by cases hi) rfl rfl (fun e he => ?_)
    have he : ∃ c ∈ calls, .ok (.toolCall c true) = e := by simpa [showing, hp] using he
    obtain ⟨c, hc, rfl⟩ := he
    exact iff_of_true rfl (List.ne_nil_of_mem hc)
  | @closed v r m rest hph hd hr =>
    have hm : owed [] [m] = some [] := by
      rw [owed_cons, owe_plain (isPlain_of_closing (h.items _ hph) hd hr)]
      rfl
    exact h.next hph same (fun is hi => by cases hi) rfl hm (waiting_none rfl hp
      (shown_isCall (List.forall_mem_singleton.2 (Event.text_isCall m false))))
  | @ran calls outcomes w hph hd =>
    refine h.next hph ?_ (fun is hi => by cases hi) rfl (owed_resultsOf hd)
      (waiting_none rfl hp (shown_isCall shownOf_isCall))
    exact dispatch_rounds hd ▸ same
  | @aborted calls outcomes w e hph hd =>
    refine h.next hph ?_ (fun is hi => by cases hi) rfl (owed_resultsOf hd)
      (waiting_failed rfl hp shownOf_isCall)
    exact dispatch_rounds hd ▸ same

end Steps

/-! ## Polling keeps the invariant -/

theorem tidy_settle {t : Turn} (h : Tidy t) (fuel : Nat) : Tidy (t.settle fuel) :=
  settle_keeps (fun _ hp hd h => tidy_step h hp (step_advance hd)) fuel t h

/-- A turn with calls to run shows something in its next step. -/
theorem pending_of_awaited {t u : Turn} (hs : Step t u) (ha : Phase.awaited t.phase ≠ []) :
    u.pending ≠ [] := by
  have shows {calls : List ToolCall} {outcomes : List Outcome} {w : World}
      (hc : calls ≠ []) (hd : t.agent.dispatch t.world calls = (outcomes, w)) :
      (shownOf (calls.zip outcomes)).map (.ok : Event → Except Error Event) ≠ [] := by
    rw [ne_eq, List.map_eq_nil_iff]
    refine shownOf_ne_nil fun hz => hc ?_
    rw [← calls_of_zip hd, hz]
    rfl
  cases hs with
  | invalid hph | started hph | refused hph | opened hph | exhausted hph | interrupted hph
  | undecodable hph | text hph | asked hph | strange hph | closed hph | misplaced hph
  | gaveUp hph =>
    rw [hph] at ha
    exact absurd rfl ha
  | ran hph hd =>
    rw [hph] at ha
    exact List.append_ne_nil_of_right_ne_nil _ (shows ha hd)
  | aborted hph hd => exact List.append_ne_nil_of_right_ne_nil _ (List.cons_ne_nil _ _)

/-- A turn with calls to run is not at its end. -/
theorem next_of_awaited {t : Turn} (ha : Phase.awaited t.phase ≠ []) : ∃ e s, t.next? = (some e, s) := by
  have hk : ∀ fuel, (t.settle fuel).pending ≠ [] ∨ Phase.awaited (t.settle fuel).phase ≠ [] := by
    intro fuel
    refine settle_keeps (P := fun t => t.pending ≠ [] ∨ Phase.awaited t.phase ≠ []) ?_ fuel t (.inr ha)
    intro t hp hd h
    rcases h with h | h
    · exact absurd hp h
    · exact .inl (pending_of_awaited (step_advance hd) h)
  rcases next_eq t with ⟨s, rfl, hp, hd, -⟩ | ⟨s, e, es, rfl, -, hn⟩
  · rcases hk t.weight with h | h
    · exact absurd hp h
    · rw [(isDone_iff _).1 hd] at h
      exact absurd rfl h
  · exact ⟨e, _, hn⟩

/-- Whether the last item that was taken is a call; `before` says so of the items before. -/
def endsInCall (before : Bool) (items : List (Except Error Event)) : Bool :=
  (items.getLast?.map Event.isCall).getD before

theorem endsInCall_cons (before : Bool) (i : Except Error Event)
    (items : List (Except Error Event)) :
    endsInCall before (i :: items) = endsInCall (Event.isCall i) items := by
  unfold endsInCall
  rw [List.getLast?_cons]
  cases items.getLast? <;> rfl

/-- Whoever polls a tidy turn sees a call last exactly when calls are about to run. -/
theorem tidy_takeEvents (n : Nat) (t : Turn) (before : Bool) (h : Tidy t)
    (hb : before = true ↔ Phase.awaited t.phase ≠ []) :
    Tidy (t.takeEvents n).2 ∧ (endsInCall before (t.takeEvents n).1 = true ↔
      Phase.awaited (t.takeEvents n).2.phase ≠ []) := by
  induction n generalizing t before with
  | zero => exact ⟨h, hb⟩
  | succ n ih =>
    have hs := tidy_settle h t.weight
    unfold takeEvents
    rcases next_eq t with ⟨s, rfl, hp, hd, hn⟩ | ⟨s, e, es, rfl, hp, hn⟩
    · rw [hn]
      -- a turn with calls to run has events to come, so it is not at its end
      refine ⟨hs, hb.trans ⟨fun ha => ?_, fun ha => ?_⟩⟩
      · obtain ⟨e, s, he⟩ := next_of_awaited ha
        rw [hn] at he
        cases he
      · rw [(isDone_iff _).1 hd] at ha
        exact absurd rfl ha
    · rw [hn]
      have hw := hs.waiting
      rw [hp] at hw
      have hv : Tidy { t.settle t.weight with pending := es } :=
        ⟨hs.rounds, hs.items, hs.owing, fun i hi => hw i (List.mem_cons_of_mem _ hi)⟩
      obtain ⟨ht, hi⟩ := ih _ (Event.isCall e) hv (hw e List.mem_cons_self)
      refine ⟨ht, ?_⟩
      rw [endsInCall_cons]
      exact hi

/-! ## The next turn -/

section Next

variable {a : Agent} {w : World} {o : RunOptions} {message : String}

theorem step_isValid {t u : Turn} (h : Step t u) : u.agent.isValid = t.agent.isValid := by
  cases h <;> rfl

theorem advance_infer_inferences (hv : a.isValid = true) (p : List (Except Error Event)) :
    (advance ⟨a, w, o, .infer, p⟩).world.inferences =
      w.inferences ++ [a.asking o a.history.messages] := by
  rw [← askingFor_inferences hv]
  unfold advance askingFor
  dsimp only
  rcases a.component.stream w inferMethod (a.inferenceRequest o) with ⟨r, w'⟩
  cases r <;> rfl

/-- The world of a turn has seen a request since the world before the turn. -/
def Asked (w : World) (r : Host.Request) (t : Turn) : Prop :=
  ∃ more, t.world.inferences = w.inferences ++ r :: more

theorem Asked.advance {r : Host.Request} {t : Turn} (h : Asked w r t) (hd : t.isDone = false) :
    Asked w r t.advance := by
  obtain ⟨more, hm⟩ := h
  obtain ⟨more', hm'⟩ := step_inferences (step_advance hd)
  exact ⟨more ++ more', by rw [hm', hm, List.append_assoc]; rfl⟩

/-- A turn of a valid agent asks for its first round before it shows anything. -/
theorem asked_settle (hv : a.isValid = true) (w : World) (o : RunOptions) (message : String) :
    Asked w (a.asking o (a.history.messages ++ [.user message]))
      ((Turn.new a w o message).settle (Turn.new a w o message).weight) := by
  generalize hr : a.asking o (a.history.messages ++ [.user message]) = r
  have hk := settle_keeps (P := fun t => t = Turn.new a w o message ∨
      t = ⟨a.saying [.user message], w, o, .infer, []⟩ ∨ Asked w r t) (by
    rintro t - hd (rfl | rfl | h)
    · exact .inr (.inl (advance_new hv w o message))
    · have hi := advance_infer_inferences (a := a.saying [.user message]) (w := w) (o := o) hv []
      exact .inr (.inr ⟨[], by rw [hi, ← hr]; rfl⟩)
    · exact .inr (.inr (h.advance hd))) (Turn.new a w o message).weight _ (.inl rfl)
  -- a turn that has not asked yet does not rest
  have hn := settle_rests (Turn.new a w o message).weight (Turn.new a w o message) (le_refl _)
  rcases hk with hk | hk | hk
  · rw [hk] at hn
    rcases hn with hn | hn
    · exact absurd rfl hn
    · cases hn
  · rw [hk] at hn
    rcases hn with hn | hn
    · exact absurd rfl hn
    · cases hn
  · exact hk

/-- A turn that is polled at all shows the model the whole conversation in its first request. -/
theorem first_request (hv : a.isValid = true) (n : Nat) :
    Asked w (a.asking o (a.history.messages ++ [.user message]))
      ((Turn.new a w o message).takeEvents (n + 1)).2 := by
  have hs := asked_settle hv w o message
  unfold takeEvents
  rcases next_eq (Turn.new a w o message) with ⟨s, rfl, -, -, hn⟩ | ⟨s, e, es, rfl, -, hn⟩
  · rw [hn]
    exact hs
  · rw [hn]
    exact takeEvents_keeps (P := Asked w _) (fun _ _ hd h => h.advance hd) (fun _ _ h => h) n _ hs

theorem takeEvents_isValid (t : Turn) (n : Nat) :
    (t.takeEvents n).2.agent.isValid = t.agent.isValid :=
  takeEvents_keeps (P := fun u => u.agent.isValid = t.agent.isValid)
    (fun _ _ hd h => (step_isValid (step_advance hd)).trans h) (fun _ _ h => h) n t rfl

/-- A turn is given up after some events, and another is started: what its first request shows
the model is paired unless the last event that was taken is a call. -/
theorem abandoned_paired_iff (a : Agent) (w : World) (o o' : RunOptions)
    (message message' : String) (k n : Nat) (hv : a.isValid = true)
    (hp : Paired a.history.messages) (ho : Orderly w.rounds) :
    ∃ items t, (Turn.new a w o message).takeEvents k = (items, t) ∧
      ∃ r, Asked t.world r ((Turn.new t.agent t.world o' message').takeEvents (n + 1)).2 ∧
        (ShowsPaired r ↔ endsInCall false items = false) := by
  refine ⟨_, _, rfl, _, first_request ((takeEvents_isValid _ k).trans hv) n, ?_⟩
  obtain ⟨ht, hi⟩ := tidy_takeEvents k (Turn.new a w o message) false (tidy_new o message hp ho)
    (iff_of_false Bool.false_ne_true fun h => h rfl)
  rw [asking_showsPaired, paired_user_iff, ht.paired_iff, ← Bool.not_eq_true, hi, not_not]

/-- A turn that is given up behind its first result. -/
theorem abandoned_behind_result :
    ∃ a w, a.isValid = true ∧ Paired a.history.messages ∧ Orderly w.rounds ∧
      ∃ t r, (Turn.new a w ⟨true, false⟩ "What time is it?").takeEvents 2 =
          ([.ok (.toolCall (.new "1" "clock" []) true),
            .ok (.toolResult (.toolResult "clock" "1" "\"noon\""))], t) ∧
        Asked t.world r ((Turn.new t.agent t.world ⟨true, false⟩ "Thanks.").takeEvents 1).2 ∧
        ShowsPaired r := by
  refine ⟨fresh (.qwen "small" "Qwen") [.constant "clock" (.str "noon")],
    .scripted [.ok [.ok (Delta.mk (some .toolCalls) (.toolCalls [.new "1" "clock" []])).toJson]],
    rfl, by decide, by decide, ?_⟩
  obtain ⟨items, t, ht, r, hr, hi⟩ := abandoned_paired_iff
    (fresh (.qwen "small" "Qwen") [.constant "clock" (.str "noon")])
    (.scripted [.ok [.ok (Delta.mk (some .toolCalls) (.toolCalls [.new "1" "clock" []])).toJson]])
    ⟨true, false⟩ ⟨true, false⟩ "What time is it?" "Thanks." 2 0 rfl (by decide) (by decide)
  have hs : items = [.ok (.toolCall (.new "1" "clock" []) true),
      .ok (.toolResult (.toolResult "clock" "1" "\"noon\""))] := (congrArg Prod.fst ht).symm
  subst hs
  exact ⟨t, r, ht, hr, hi.2 rfl⟩

/-- A turn that is given up behind its first call: the next turn shows the model a call that has
no result. -/
theorem abandoned_behind_call :
    ∃ a w, a.isValid = true ∧ Paired a.history.messages ∧ Orderly w.rounds ∧
      ∃ r, Asked ((Turn.new a w ⟨true, false⟩ "What time is it?").takeEvents 1).2.world r
        ((Turn.new ((Turn.new a w ⟨true, false⟩ "What time is it?").takeEvents 1).2.agent
          ((Turn.new a w ⟨true, false⟩ "What time is it?").takeEvents 1).2.world
          ⟨true, false⟩ "Thanks.").takeEvents 1).2 ∧ ¬ ShowsPaired r := by
  refine ⟨fresh (.qwen "small" "Qwen") [.constant "clock" (.str "noon")],
    .scripted [.ok [.ok (Delta.mk (some .toolCalls) (.toolCalls [.new "1" "clock" []])).toJson]],
    rfl, by decide, by decide, _, ⟨[], rfl⟩, ?_⟩
  decide +kernel

end Next

end Agent

end Parley
