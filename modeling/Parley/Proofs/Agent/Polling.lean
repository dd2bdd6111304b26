/-
Consuming a turn. Whoever polls a turn (`takeEvents`) and whoever drains it (`exhaust`) see the
same events and leave the same turn: both follow the relation `Drains`, which knows no fuel. The
fuel of draining lasts because every step lowers `bound`; that of polling lasts because every step
that shows no event and does not end the turn lowers `weight`.
-/
import Parley.Proofs.Agent.Step

namespace Parley.Agent.Turn

open Chat

/-! ## Measures -/

/-- The items that a phase has still to read. -/
def left : Phase → Nat
  | .streaming items => items.length
  | _ => 0

theorem bound_eq {t : Turn} {p : Phase} (hp : t.phase = p) :
    t.bound = cost t.world.rounds + Phase.weight p + left p := by
  subst hp
  rfl

theorem cost_le_of_suffix {rs ss : List Round} (h : rs <:+ ss) : cost rs ≤ cost ss := by
  obtain ⟨pre, rfl⟩ := h
  induction pre with
  | nil => exact le_refl _
  | cons r pre ih =>
    cases r with
    | ok items =>
      show cost rs ≤ items.length + 4 + cost (pre ++ rs)
      omega
    | error e =>
      show cost rs ≤ 4 + cost (pre ++ rs)
      omega

theorem stream_ok {c : Component} {w w' : World} {method : String} {args : Json}
    {items : List Item} (h : c.stream w method args = (.ok items, w')) :
    c.valid = true ∧ w.rounds = .ok items :: w'.rounds ∧
      w' = { w.noting (.stream method c.id args) with rounds := w.rounds.tail } := by
  unfold Component.stream World.stream at h
  split at h
  · rename_i hv
    split at h
    · cases h
    · rename_i r rest hr
      cases h
      exact ⟨hv, by rw [hr], by rw [hr]; rfl⟩
  · cases h

theorem stream_error {c : Component} {w w' : World} {method : String} {args : Json}
    {e : Host.Error} (h : c.stream w method args = (.error e, w')) : w'.rounds <:+ w.rounds := by
  unfold Component.stream World.stream at h
  split at h
  · split at h
    · cases h
      exact List.suffix_refl _
    · rename_i r rest hr
      cases h
      rw [hr]
      exact List.suffix_cons _ _
  · cases h
    exact List.suffix_refl _

theorem dispatch_rounds {a : Agent} {w w' : World} {calls : List ToolCall}
    {outcomes : List Outcome} (h : a.dispatch w calls = (outcomes, w')) : w'.rounds = w.rounds := by
  cases h
  rfl

theorem isDone_iff (t : Turn) : t.isDone = true ↔ t.phase = .done := by
  unfold isDone
  cases t.phase <;> simp

theorem bound_done {t u : Turn} (hu : u.phase = .done) (hw : u.world.rounds <:+ t.world.rounds)
    (ht : t.phase ≠ .done) : u.bound < t.bound := by
  have hc := cost_le_of_suffix hw
  have hpos : 0 < Phase.weight t.phase := by
    cases hp : t.phase with
    | done => exact absurd hp ht
    | start | infer | streaming | dispatch => exact Nat.succ_pos _
  rw [bound_eq hu, bound_eq rfl]
  show cost u.world.rounds + 0 + 0 < _
  omega

/-- Every step lowers the bound on the steps to come. -/
theorem bound_lt_of_step {t u : Turn} (h : Step t u) : u.bound < t.bound := by
  cases h with
  | invalid hp | exhausted hp | interrupted hp | undecodable hp | strange hp | closed hp
  | misplaced hp | gaveUp hp =>
    exact bound_done rfl (List.suffix_refl _) (by rw [hp]; exact fun h => by cases h)
  | refused hp hs => exact bound_done rfl (stream_error hs) (by rw [hp]; exact fun h => by cases h)
  | aborted hp hd =>
    refine bound_done rfl ?_ (by rw [hp]; exact fun h => by cases h)
    show _ <:+ _
    rw [← dispatch_rounds hd]
    exact List.suffix_refl _
  | started hp =>
    rw [bound_eq hp, bound_eq (p := .infer) rfl]
    show cost t.world.rounds + 1 + 0 < cost t.world.rounds + 2 + 0
    omega
  | @opened items w hp hs =>
    -- the items leave the script and are still to be read
    have hr := (stream_ok hs).2.1
    rw [bound_eq hp, bound_eq (p := .streaming items) rfl, hr]
    show cost w.rounds + 3 + items.length < (items.length + 4 + cost w.rounds) + 1 + 0
    omega
  | @text v m rest hp hd =>
    rw [bound_eq hp, bound_eq (p := .streaming rest) rfl]
    show cost t.world.rounds + 3 + rest.length < cost t.world.rounds + 3 + (rest.length + 1)
    omega
  | @asked v calls rest hp hd =>
    rw [bound_eq hp, bound_eq (p := .dispatch calls) rfl]
    show cost t.world.rounds + 2 + 0 < cost t.world.rounds + 3 + (rest.length + 1)
    omega
  | @ran calls outcomes w hp hd =>
    rw [bound_eq hp, bound_eq (p := .infer) rfl]
    show cost w.rounds + 1 + 0 < cost t.world.rounds + 2 + 0
    rw [dispatch_rounds hd]
    omega

/-- Every step that shows nothing and does not end the turn lowers the weight. -/
theorem weight_lt_of_step {t u : Turn} (h : Step t u) (hu : u.pending = [])
    (hn : u.isDone = false) : u.weight < t.weight := by
  cases h with
  | invalid | exhausted | interrupted | undecodable | strange | misplaced | refused | aborted
  | closed | gaveUp => simp [fail, showing, isDone] at hn
  | text hp => simp [showing] at hu
  | started hp => simp [weight, hp, Phase.weight]
  | opened hp hs =>
    have hr := (stream_ok hs).2.1
    simp [weight, hp, Phase.weight, hr]
    omega
  | asked hp => simp [weight, hp, Phase.weight, showing]
  | ran hp hd => simp [weight, hp, Phase.weight, dispatch_rounds hd]

/-! ## Draining without fuel -/

/-- The turn with its events taken. -/
def emptied (t : Turn) : Turn := { t with pending := [] }

theorem emptied_advance_bound {t : Turn} (h : t.isDone = false) :
    t.emptied.advance.bound < t.bound :=
  show _ < t.emptied.bound from bound_lt_of_step (step_advance h)

/-- All events of a turn that is not yet consumed, and the turn behind them. -/
inductive Drains : Turn → List (Except Error Event) → Turn → Prop
  | done {t : Turn} : t.isDone = true → Drains t t.pending t.emptied
  | step {t u : Turn} {es : List (Except Error Event)} :
    t.isDone = false → Drains t.emptied.advance es u → Drains t (t.pending ++ es) u

/-- Events that wait are the first to come. -/
theorem Drains.pend {t u : Turn} {es : List (Except Error Event)} (h : Drains t.emptied es u)
    (pending : List (Except Error Event)) : Drains { t with pending } (pending ++ es) u := by
  generalize hs : t.emptied = s at h
  cases h with
  | done hd =>
    subst hs
    have := Drains.done (t := { t with pending }) hd
    rwa [show t.emptied.pending = [] from rfl, List.append_nil]
  | step hd h =>
    subst hs
    exact Drains.step (t := { t with pending }) hd h

/-- A step of a turn of which every event is taken. -/
theorem Drains.advance {t u : Turn} {es : List (Except Error Event)} (hp : t.pending = [])
    (hd : t.isDone = false) (h : Drains t.advance es u) : Drains t es u := by
  have he : t.emptied = t := by
    unfold emptied
    rw [← hp]
  have := Drains.step hd (by rwa [he])
  rwa [hp] at this

/-- Every turn can be consumed. -/
theorem drains_exists (t : Turn) : ∃ es u, Drains t es u := by
  cases hd : t.isDone with
  | true => exact ⟨_, _, .done hd⟩
  | false =>
    have := emptied_advance_bound hd
    obtain ⟨es, u, h⟩ := drains_exists t.emptied.advance
    exact ⟨_, _, .step hd h⟩
termination_by t.bound

theorem Drains.isDone {t u : Turn} {es : List (Except Error Event)} (h : Drains t es u) :
    u.phase = .done ∧ u.pending = [] := by
  induction h with
  | done hd => exact ⟨(isDone_iff _).1 hd, rfl⟩
  | step _ _ ih => exact ih

/-! ## The fuel of draining -/

theorem drain_eq {t u : Turn} {es : List (Except Error Event)} (h : Drains t es u) :
    ∀ fuel, t.bound ≤ fuel → t.drain fuel = (es, u) := by
  induction h with
  | @done t hd =>
    intro fuel _
    cases fuel with
    | zero => rfl
    | succ fuel =>
      unfold drain
      simp only [hd, if_true]
      rfl
  | @step t u es hd _ ih =>
    intro fuel hf
    have := emptied_advance_bound hd
    obtain ⟨fuel, rfl⟩ : ∃ n, fuel = n + 1 := ⟨fuel - 1, by omega⟩
    have hr : drain fuel ({ t with pending := [] } : Turn).advance = (es, u) :=
      ih fuel (by omega)
    unfold drain
    simp only [hd, hr]
    rfl

/-- The whole of a turn, in one go. -/
theorem exhaust_eq {t u : Turn} {es : List (Except Error Event)} (h : Drains t es u) :
    t.exhaust = (es, u) :=
  drain_eq h _ (le_refl _)

/-! ## The fuel of polling -/

/-- A turn that stands still until it is polled. -/
def Rests (t : Turn) : Prop := t.pending ≠ [] ∨ t.isDone = true

theorem settle_of_rests {t : Turn} (h : t.Rests) (fuel : Nat) : t.settle fuel = t := by
  cases fuel with
  | zero => rfl
  | succ fuel =>
    unfold settle
    rw [if_neg]
    rcases h with h | h
    · simp [h]
    · simp [h]

/-- Settling goes on by steps of a turn without events, so it keeps what these keep. -/
theorem settle_keeps {P : Turn → Prop}
    (h : ∀ t, t.pending = [] → t.isDone = false → P t → P t.advance) :
    ∀ (fuel : Nat) (t : Turn), P t → P (t.settle fuel)
  | 0, _, ht => ht
  | fuel + 1, t, ht => by
    unfold settle
    split
    · rename_i hc
      rw [Bool.and_eq_true, List.isEmpty_iff, Bool.not_eq_true'] at hc
      exact settle_keeps h fuel _ (h t hc.1 hc.2 ht)
    · exact ht

/-- Settling ends at an event or at the end of the turn. -/
theorem settle_rests : ∀ (fuel : Nat) (t : Turn), t.weight ≤ fuel → (t.settle fuel).Rests
  | 0, t, hf => by
    refine .inr ((isDone_iff t).2 ?_)
    cases hp : t.phase with
    | done => rfl
    | start | infer | streaming | dispatch => simp [weight, hp, Phase.weight] at hf
  | fuel + 1, t, hf => by
    by_cases hr : t.Rests
    · rw [settle_of_rests hr]
      exact hr
    · obtain ⟨hp, hd⟩ := not_or.1 hr
      rw [ne_eq, not_not] at hp
      rw [Bool.not_eq_true] at hd
      unfold settle
      rw [if_pos (by simp [hp, hd])]
      -- a step without events lowers the weight, so the fuel lasts for the steps behind it
      by_cases hn : t.advance.Rests
      · rw [settle_of_rests hn]
        exact hn
      · obtain ⟨hu, hud⟩ := not_or.1 hn
        rw [ne_eq, not_not] at hu
        rw [Bool.not_eq_true] at hud
        have := weight_lt_of_step (step_advance hd) hu hud
        exact settle_rests fuel _ (by omega)

/-- Polling takes the first event of a turn that rests, or finds it at its end. -/
theorem next_eq (t : Turn) :
    (∃ s, s = t.settle t.weight ∧ s.pending = [] ∧ s.isDone = true ∧ t.next? = (none, s)) ∨
    ∃ s e es, s = t.settle t.weight ∧ s.pending = e :: es ∧
      t.next? = (some e, { s with pending := es }) := by
  have hr := settle_rests t.weight t (le_refl _)
  unfold next?
  cases hp : (t.settle t.weight).pending with
  | nil =>
    refine .inl ⟨_, rfl, hp, ?_, by simp only [hp]⟩
    rcases hr with hr | hr
    · exact absurd hp hr
    · exact hr
  | cons e es => exact .inr ⟨_, e, es, rfl, hp, by simp only [hp]⟩

theorem settle_drains {t u : Turn} {es : List (Except Error Event)} (h : Drains t es u)
    (fuel : Nat) : Drains (t.settle fuel) es u := by
  refine settle_keeps (P := fun t => Drains t es u) (fun t hp hd h => ?_) fuel t h
  have he : t.emptied = t := by
    unfold emptied
    rw [← hp]
  cases h with
  | done hd' =>
    rw [hd] at hd'
    cases hd'
  | step _ h =>
    rw [hp]
    rwa [he] at h

/-- Polling gives the first of the events that draining gives, if there is one. -/
theorem next_of_drains {t u : Turn} {es : List (Except Error Event)} (h : Drains t es u) :
    (es = [] ∧ t.next? = (none, u)) ∨
    ∃ e rest v, es = e :: rest ∧ t.next? = (some e, v) ∧ Drains v rest u := by
  have hs := settle_drains h t.weight
  rcases next_eq t with ⟨s, rfl, hp, hd, hn⟩ | ⟨s, e, pending, rfl, hp, hn⟩
  · left
    cases hs with
    | done hd' =>
      refine ⟨hp, hn.trans ?_⟩
      unfold emptied
      rw [← hp]
    | step hd' h =>
      rw [hd] at hd'
      cases hd'
  · right
    cases hs with
    | done hd => exact ⟨e, pending, _, hp, hn, .done hd⟩
    | @step _ _ es hd h => exact ⟨e, pending ++ es, _, by rw [hp]; rfl, hn, .step hd h⟩

/-- Polling keeps what the steps and the taking of an event keep. -/
theorem takeEvents_keeps {P : Turn → Prop}
    (h : ∀ t, t.pending = [] → t.isDone = false → P t → P t.advance)
    (ht : ∀ t es, P t → P { t with pending := es }) :
    ∀ (n : Nat) (t : Turn), P t → P (t.takeEvents n).2
  | 0, _, hp => hp
  | n + 1, t, hp => by
    have hs := settle_keeps h t.weight t hp
    unfold takeEvents
    rcases next_eq t with ⟨s, rfl, -, -, hn⟩ | ⟨s, e, es, rfl, -, hn⟩
    · rw [hn]
      exact hs
    · rw [hn]
      exact takeEvents_keeps h ht n _ (ht _ es hs)

/-- Whoever polls a few times sees the first events, and leaves the others for later. -/
theorem takeEvents_take {u : Turn} :
    ∀ (n : Nat) (t : Turn) (es : List (Except Error Event)), Drains t es u →
      (t.takeEvents n).1 = es.take n ∧ Drains (t.takeEvents n).2 (es.drop n) u
  | 0, _, _, h => ⟨rfl, h⟩
  | n + 1, t, es, h => by
    unfold takeEvents
    rcases next_of_drains h with ⟨rfl, he⟩ | ⟨e, rest, v, rfl, he, hv⟩
    · rw [he]
      obtain ⟨hp, hu⟩ := h.isDone
      have := Drains.done ((isDone_iff u).2 hp)
      have hem : u.emptied = u := by
        unfold emptied
        rw [← hu]
      rw [hu, hem] at this
      exact ⟨rfl, this⟩
    · obtain ⟨ht, hd⟩ := takeEvents_take n v rest hv
      rw [he]
      exact ⟨congrArg (e :: ·) ht, hd⟩

/-- Whoever polls often enough sees all events, and nothing behind them. -/
theorem takeEvents_of_drains {u : Turn} :
    ∀ (n : Nat) (t : Turn) (es : List (Except Error Event)), Drains t es u → es.length < n →
      t.takeEvents n = (es, u)
  | 0, _, _, _, hn => absurd hn (Nat.not_lt_zero _)
  | n + 1, t, es, h, hn => by
    unfold takeEvents
    rcases next_of_drains h with ⟨rfl, he⟩ | ⟨e, rest, v, rfl, he, hv⟩
    · rw [he]
    · have hr := takeEvents_of_drains n v rest hv (by simpa using hn)
      rw [he]
      simp only [hr]

end Parley.Agent.Turn
