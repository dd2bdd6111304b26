/-
The use of an agent between its making and its end: turns of which any number of items are taken,
resets, deletions, and whatever is done to the tools. A sequence of uses keeps what each of them
keeps (`serve_keeps`); a turn that is given up somewhere keeps what its steps keep
(`takeEvents_keeps`), and to take more items of a turn is to go on with it (`takeEvents_add`).
-/
import Parley.Proofs.Agent.Moments

namespace Parley.Agent

open Chat Turn

/-! ## Uses -/

/-- Something that is done with an agent. -/
inductive Use where
  /-- A turn that is given up as soon as so many items were taken. -/
  | turn (message : String) (o : RunOptions) (taken : Nat)
  | clear
  | delete
  /-- The tools are changed, in any way that asks nothing outside. -/
  | equip (tools : Tool.Registry)
  /-- The tools of a server are added. -/
  | enlist (server : Mcp.Server) (filter : Option (List String))

/-- What the user gets for it. -/
inductive Reply where
  | items (es : List (Except Error Event))
  | deleted (r : Except Error Unit)
  | listed (r : Except Error (List Mcp.RemoteTool))
  | nothing

namespace Use

def run (u : Use) (a : Agent) (w : World) : Reply × Agent × World :=
  match u with
  | .turn message o taken =>
    let (es, t) := (Turn.new a w o message).takeEvents taken
    (.items es, t.agent, t.world)
  | .clear => (.nothing, a.clearMessages, w)
  | .delete =>
    let (r, a, w) := a.delete w
    (.deleted r, a, w)
  | .equip tools => (.nothing, { a with tools }, w)
  | .enlist server filter =>
    let (r, a, w) := a.addServer w server filter
    (.listed r, a, w)

/-- Whether the agent forgets the conversation. -/
def forgets : Use → Bool
  | .clear | .delete => true
  | .turn _ _ _ | .equip _ | .enlist _ _ => false

/-- Whether the component is released. -/
def deletes : Use → Bool
  | .delete => true
  | .turn _ _ _ | .clear | .equip _ | .enlist _ _ => false

end Use

/-- One use after the other. -/
def serve : List Use → Agent → World → List Reply × Agent × World
  | [], a, w => ([], a, w)
  | u :: us, a, w =>
    let (r, a, w) := u.run a w
    let (rs, a, w) := serve us a w
    (r :: rs, a, w)

section Serve

variable {a : Agent} {w : World}

theorem serve_cons (u : Use) (us : List Use) (a : Agent) (w : World) :
    (serve (u :: us) a w).2 = (serve us (u.run a w).2.1 (u.run a w).2.2).2 := rfl

theorem serve_append (us vs : List Use) (a : Agent) (w : World) :
    (serve (us ++ vs) a w).2 = (serve vs (serve us a w).2.1 (serve us a w).2.2).2 := by
  induction us generalizing a w with
  | nil => rfl
  | cons u us ih =>
    rw [List.cons_append, serve_cons, serve_cons, ih]

theorem serve_concat (us : List Use) (u : Use) (a : Agent) (w : World) :
    (serve (us ++ [u]) a w).2 = (u.run (serve us a w).2.1 (serve us a w).2.2).2 := by
  rw [serve_append]
  rfl

theorem serve_keeps {P : Agent → World → Prop} {us : List Use}
    (h : ∀ u ∈ us, ∀ a w, P a w → P (u.run a w).2.1 (u.run a w).2.2) (hp : P a w) :
    P (serve us a w).2.1 (serve us a w).2.2 := by
  induction us generalizing a w with
  | nil => exact hp
  | cons u us ih =>
    rw [serve_cons]
    apply ih
    · intro v hv
      exact h v (List.mem_cons_of_mem _ hv)
    · exact h u List.mem_cons_self a w hp

end Serve

/-! ## Turns that are given up -/

section Turns

variable {t s : Turn}

theorem takeEvents_of_none (hn : t.next? = (none, s)) (n : Nat) : t.takeEvents (n + 1) = ([], s) := by
  unfold takeEvents
  rw [hn]

theorem takeEvents_of_some {e : Except Error Event} (hn : t.next? = (some e, s)) (n : Nat) :
    t.takeEvents (n + 1) = (e :: (s.takeEvents n).1, (s.takeEvents n).2) := by
  conv => lhs; unfold takeEvents
  rw [hn]

theorem takeEvents_of_finished (hp : t.pending = []) (hd : t.isDone = true) (n : Nat) :
    t.takeEvents n = ([], t) := by
  cases n with
  | zero => rfl
  | succ n =>
    have hr : t.settle t.weight = t := settle_of_rests (.inr hd) _
    apply takeEvents_of_none
    unfold next?
    simp only [hr, hp]

theorem takeEvents_add (k n : Nat) (t : Turn) :
    (t.takeEvents (k + n)).2 = ((t.takeEvents k).2.takeEvents n).2 := by
  induction k generalizing t with
  | zero => rw [Nat.zero_add]; rfl
  | succ k ih =>
    rw [Nat.add_right_comm]
    rcases next_eq t with ⟨s, -, hp, hd, hn⟩ | ⟨s, e, es, -, -, hn⟩
    · rw [takeEvents_of_none hn, takeEvents_of_none hn, takeEvents_of_finished hp hd]
    · rw [takeEvents_of_some hn, takeEvents_of_some hn]
      exact ih _

theorem takeEvents_grows (n : Nat) (t : Turn) :
    t.agent.history.messages <+: (t.takeEvents n).2.agent.history.messages := by
  refine takeEvents_keeps (P := fun u => t.agent.history.messages <+: u.agent.history.messages)
    ?_ ?_ n t List.prefix_rfl
  · intro u _ _ h
    obtain ⟨ms, hm⟩ := advance_agent u
    rw [hm, saying_messages]
    exact h.trans (List.prefix_append _ _)
  · intro u es h
    exact h

/-- The states that a turn comes to when it goes on and items are taken. -/
inductive Leads (t : Turn) : Turn → Prop
  | refl : Leads t t
  | step {u : Turn} : Leads t u → u.isDone = false → Leads t u.advance
  | taken {u : Turn} {es : List (Except Error Event)} : Leads t u → Leads t { u with pending := es }

theorem leads_takeEvents (n : Nat) (t : Turn) : Leads t (t.takeEvents n).2 := by
  refine takeEvents_keeps (P := Leads t) ?_ ?_ n t .refl
  · intro u _ hd h
    exact .step h hd
  · intro u es h
    exact .taken h

/-- A turn that has started and is not over speaks for a valid agent, and has said something. -/
theorem leads_speaking {a : Agent} {w : World} {o : RunOptions} {message : String}
    (h : Leads (Turn.new a w o message) t) (hs : ∀ m, t.phase ≠ .start m) (hd : t.phase ≠ .done) :
    t.agent.isValid = true ∧ t.agent.history.messages ≠ [] := by
  induction h with
  | refl => exact absurd rfl (hs message)
  | taken _ ih => exact ih hs hd
  | @step u _ hn ih =>
    have hm := step_advance hn
    generalize u.advance = v at hm hs hd ⊢
    cases hm with
    | invalid | refused | exhausted | interrupted | undecodable | strange | closed | misplaced
    | gaveUp | aborted => exact absurd rfl hd
    | started _ hv =>
      refine ⟨hv, ?_⟩
      rw [saying_messages]
      exact List.append_ne_nil_of_right_ne_nil _ (List.cons_ne_nil _ _)
    | opened hp | text hp => exact ih (by rw [hp]; exact nofun) (by rw [hp]; exact nofun)
    | asked hp | ran hp =>
      obtain ⟨hv, hh⟩ := ih (by rw [hp]; exact nofun) (by rw [hp]; exact nofun)
      refine ⟨hv, ?_⟩
      rw [saying_messages]
      exact List.append_ne_nil_of_left_ne_nil hh _

/-- A turn of an agent that was deleted shows that, and nothing else. -/
theorem takeEvents_of_invalid {a : Agent} (hv : a.isValid = false) (w : World) (o : RunOptions)
    (message : String) (n : Nat) :
    ((Turn.new a w o message).takeEvents n).1 =
        [Except.error (Error.componentInvalid a.component.id)].take n ∧
      ((Turn.new a w o message).takeEvents n).2.agent = a ∧
      ((Turn.new a w o message).takeEvents n).2.world = w := by
  have refused (t : Turn) (ha : t.agent = a) (hs : t.phase = .start message) :
      t.advance = t.fail (.componentInvalid a.component.id) := by
    subst ha
    unfold advance
    simp only [hs, hv]
    rfl
  constructor
  · have hd := drains_last rfl rfl (refused (Turn.new a w o message) rfl rfl) rfl
    exact (takeEvents_take n _ _ hd).1
  -- however little is taken, the turn is as it was or it is over
  · have hk : ((Turn.new a w o message).takeEvents n).2.agent = a ∧
        ((Turn.new a w o message).takeEvents n).2.world = w ∧
        (((Turn.new a w o message).takeEvents n).2.phase = .start message ∨
          ((Turn.new a w o message).takeEvents n).2.isDone = true) := by
      refine takeEvents_keeps (P := fun t => t.agent = a ∧ t.world = w ∧
        (t.phase = .start message ∨ t.isDone = true)) ?_ ?_ n _ ⟨rfl, rfl, .inl rfl⟩
      · rintro t - hd ⟨ha, hw, hs | hs⟩
        · rw [refused t ha hs]
          exact ⟨ha, hw, .inr rfl⟩
        · rw [hd] at hs
          cases hs
      · intro t es h
        exact h
    exact ⟨hk.1, hk.2.1⟩

end Turns

/-! ## Making an agent -/

theorem define_ok {w₀ w : World} {o : Options} {a : Agent} (h : define w₀ o = (.ok a, w)) :
    ∃ attrs, o.resolve = .ok (a.model, attrs) ∧
      w₀.host.define w₀.serial a.model.componentType (w₀.freshId w₀.defined) attrs = .ok () ∧
      a = ⟨a.model, ⟨w₀.freshId w₀.defined, a.model.componentType, true⟩,
        .new (o.systemMessage.or a.model.systemMessage), .empty⟩ ∧
      w = { w₀.noting (.define a.model.componentType (w₀.freshId w₀.defined) attrs) with
        defined := w₀.defined + 1 } := by
  unfold define at h
  cases hr : o.resolve with
  | error e =>
    rw [hr] at h
    cases h
  | ok r =>
    obtain ⟨model, attrs⟩ := r
    rw [hr] at h
    unfold Component.define World.define at h
    cases hd : w₀.host.define w₀.serial model.componentType (w₀.freshId w₀.defined) attrs with
    | error e =>
      simp only [hd, Except.map] at h
      cases h
    | ok u =>
      simp only [hd, Except.map] at h
      cases h
      exact ⟨attrs, rfl, hd, rfl, rfl⟩

/-! ## Adding the tools of a server -/

theorem addRemotes_agent (server : Mcp.Server) (ts : List Mcp.RemoteTool) (a : Agent) :
    ∃ tools, (a.addRemotes server ts).2 = { a with tools } := by
  induction ts generalizing a with
  | nil => exact ⟨a.tools, rfl⟩
  | cons t ts ih =>
    unfold addRemotes addRemote
    cases t.tool server with
    | error e => exact ⟨a.tools, rfl⟩
    | ok t =>
      obtain ⟨tools, h⟩ := ih (a.addTool t).2
      exact ⟨tools, h⟩

theorem addServer_agent (a : Agent) (w : World) (server : Mcp.Server)
    (filter : Option (List String)) :
    ∃ tools, (a.addServer w server filter).2.1 = { a with tools } := by
  unfold addServer
  rcases w.listTools server with ⟨e | ts, w'⟩
  · exact ⟨a.tools, rfl⟩
  · obtain ⟨tools, h⟩ := addRemotes_agent server (ts.filter (passes filter)) a
    dsimp only
    split <;> rename_i hr <;> rw [hr] at h <;> exact ⟨tools, h⟩

end Parley.Agent
