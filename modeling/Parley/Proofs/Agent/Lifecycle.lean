/-
The component of an agent, from its making to its release, as the host sees it: one definition, then
rounds of inference, then one deletion, and nothing behind that. It makes no difference in which
order the agent is used and deleted, whether the host can delete the component, and whether the
agent is deleted again or only given up (`agent_lives`).

`Lives` is the invariant of a use. It ties what the host was asked to the flag of the handle, which
every operation reads.
-/
import Parley.Agent.Setup
import Parley.Proofs.Agent.Errand
import Parley.Proofs.Agent.SystemMessage

namespace Parley

/-! ## Requests about a component -/

/-- Whether a request is about the component of an id. -/
def Host.Request.concerns (id : String) : Host.Request → Bool
  | .define _ i _ | .delete i | .callMethod _ i _ | .stream _ i _ => i == id
  | .call _ _ => false

/-- What the host was asked about a component since an earlier world. -/
def World.AskedSince (w₀ w : World) (id : String) (rs : List Host.Request) : Prop :=
  ∃ more, w.log = w₀.log ++ more ∧ more.filter (Host.Request.concerns id) = rs

namespace World

variable {w w' w'' : World} {id : String} {rs ss : List Host.Request}

theorem askedSince_of_log (h : w'.log = w.log) (id : String) : w.AskedSince w' id [] :=
  ⟨[], by rw [h, List.append_nil], rfl⟩

theorem askedSince_one {r : Host.Request} (h : w'.log = w.log ++ [r])
    (hr : r.concerns id = true) : w.AskedSince w' id [r] := by
  refine ⟨[r], h, ?_⟩
  rw [List.filter_cons_of_pos hr, List.filter_nil]

theorem AskedSince.trans (h : w.AskedSince w' id rs) (h' : w'.AskedSince w'' id ss) :
    w.AskedSince w'' id (rs ++ ss) := by
  obtain ⟨more, hl, hr⟩ := h
  obtain ⟨more', hl', hs⟩ := h'
  refine ⟨more ++ more', ?_, ?_⟩
  · rw [hl', hl, List.append_assoc]
  · rw [List.filter_append, hr, hs]

end World

namespace Agent

open Chat Turn

/-- The life of a component as the host sees it: it is defined, it streams rounds, and in the end
it may be deleted. -/
def span (c : Component) (attrs : Json) (rounds : List Json) (deleted : Bool) :
    List Host.Request :=
  .define c.type c.id attrs ::
    (rounds.map (.stream inferMethod c.id) ++ if deleted then [.delete c.id] else [])

/-! ## Turns -/

section Turns

variable {t u : Turn}

theorem stream_log (c : Component) (w : World) (method : String) (args : Json) :
    (c.stream w method args).2.log =
      w.log ++ if c.valid then [.stream method c.id args] else [] := by
  unfold Component.stream World.stream
  cases c.valid with
  | false => exact (List.append_nil _).symm
  | true =>
    cases w.rounds with
    | nil => rfl
    | cons r rounds => rfl

theorem stream_asks (c : Component) (w : World) (args : Json) :
    ∃ rounds : List Json, w.AskedSince (c.stream w inferMethod args).2 c.id
      (rounds.map (.stream inferMethod c.id)) := by
  have hl := stream_log c w inferMethod args
  cases hv : c.valid with
  | false =>
    rw [hv, if_neg Bool.false_ne_true, List.append_nil] at hl
    exact ⟨[], World.askedSince_of_log hl c.id⟩
  | true =>
    rw [hv, if_pos rfl] at hl
    exact ⟨[args], World.askedSince_one hl (beq_self_eq_true c.id)⟩

/-- Whatever tools are called, no component is asked for anything. -/
theorem dispatch_asks (a : Agent) (w : World) (calls : List ToolCall) (id : String) :
    w.AskedSince (a.dispatch w calls).2 id [] := by
  obtain ⟨more, hl, hm⟩ := dispatch_log a w calls
  refine ⟨more, hl, ?_⟩
  rw [List.filter_eq_nil_iff]
  intro r hr
  obtain ⟨capability, args, rfl⟩ := hm r hr
  exact Bool.false_ne_true

/-- A step asks the component for a round at most. -/
theorem step_asks (hs : Step t u) :
    ∃ rounds : List Json, t.world.AskedSince u.world t.agent.component.id
      (rounds.map (.stream inferMethod t.agent.component.id)) := by
  have streams {r : Round} {w : World}
      (h : t.agent.component.stream t.world inferMethod (t.agent.inferenceRequest t.options) =
        (r, w)) : ∃ rounds : List Json, t.world.AskedSince w t.agent.component.id
          (rounds.map (.stream inferMethod t.agent.component.id)) := by
    have ha := stream_asks t.agent.component t.world (t.agent.inferenceRequest t.options)
    rwa [h] at ha
  cases hs with
  | invalid | started | exhausted | interrupted | undecodable | text | asked | strange | closed
  | misplaced | gaveUp => exact ⟨[], World.askedSince_of_log rfl _⟩
  | refused hp hs | opened hp hs => exact streams hs
  | @ran calls _ _ _ hd | @aborted calls _ _ _ _ hd =>
    have ha := dispatch_asks t.agent t.world calls t.agent.component.id
    rw [hd] at ha
    exact ⟨[], ha⟩

theorem leads_asks (hl : Leads t u) :
    u.agent.component = t.agent.component ∧
      ∃ rounds : List Json, t.world.AskedSince u.world t.agent.component.id
        (rounds.map (.stream inferMethod t.agent.component.id)) := by
  induction hl with
  | refl => exact ⟨rfl, [], World.askedSince_of_log rfl _⟩
  | @step u _ hd ih =>
    obtain ⟨hc, rounds, hr⟩ := ih
    obtain ⟨ms, hm⟩ := advance_agent u
    obtain ⟨more, hs⟩ := step_asks (step_advance hd)
    rw [hc] at hs
    refine ⟨?_, rounds ++ more, ?_⟩
    · rw [hm]
      exact hc
    · rw [List.map_append]
      exact hr.trans hs
  | taken _ ih => exact ih

end Turns

/-! ## Uses -/

section Uses

variable {w₀ w : World} {c : Component} {attrs : Json} {deleted : Bool} {a : Agent}

/-- What the host was asked about the component, as far as the agent has lived: it may be used
until it was deleted. -/
structure Lives (w₀ : World) (c : Component) (attrs : Json) (deleted : Bool) (a : Agent)
    (w : World) : Prop where
  handle : a.component = { c with valid := !deleted }
  asked : ∃ rounds, w₀.AskedSince w c.id (span c attrs rounds deleted)

theorem Lives.isValid (h : Lives w₀ c attrs deleted a w) : a.isValid = !deleted :=
  congrArg Component.valid h.handle

theorem Lives.id_eq (h : Lives w₀ c attrs deleted a w) : a.component.id = c.id := by
  rw [h.handle]

/-- Rounds of inference prolong the life of a component that was not deleted. -/
theorem Lives.goesOn (h : Lives w₀ c attrs false a w) {b : Agent} {w' : World} {more : List Json}
    (hb : b.component = a.component)
    (hw : w.AskedSince w' c.id (more.map (.stream inferMethod c.id))) :
    Lives w₀ c attrs false b w' := by
  obtain ⟨rounds, hr⟩ := h.asked
  refine ⟨hb.trans h.handle, rounds ++ more, ?_⟩
  have hs := hr.trans hw
  unfold span at hs ⊢
  rwa [if_neg Bool.false_ne_true, List.append_nil, List.cons_append, ← List.map_append,
    ← List.append_nil ((rounds ++ more).map _)] at hs

/-- What asks the host nothing and leaves the handle alone keeps the life as it is. -/
theorem Lives.rests (h : Lives w₀ c attrs deleted a w) {b : Agent} {w' : World}
    (hb : b.component = a.component) (hw : w'.log = w.log) : Lives w₀ c attrs deleted b w' := by
  obtain ⟨rounds, hr⟩ := h.asked
  refine ⟨hb.trans h.handle, rounds, ?_⟩
  have hs := hr.trans (World.askedSince_of_log hw c.id)
  rwa [List.append_nil] at hs

theorem Lives.ends (h : Lives w₀ c attrs false a w) {w' : World}
    (hw : w'.log = w.log ++ [.delete c.id]) :
    ∃ rounds, w₀.AskedSince w' c.id (span c attrs rounds true) := by
  obtain ⟨rounds, hr⟩ := h.asked
  refine ⟨rounds, ?_⟩
  have hs := hr.trans (World.askedSince_one hw (beq_self_eq_true c.id))
  unfold span at hs ⊢
  rwa [if_neg Bool.false_ne_true, List.append_nil, List.cons_append] at hs

theorem lives_turn (h : Lives w₀ c attrs deleted a w) (message : String) (o : RunOptions)
    (taken : Nat) :
    Lives w₀ c attrs deleted ((Turn.new a w o message).takeEvents taken).2.agent
      ((Turn.new a w o message).takeEvents taken).2.world := by
  cases deleted with
  | true =>
    obtain ⟨-, ha, hw⟩ := takeEvents_of_invalid h.isValid w o message taken
    rw [ha, hw]
    exact h
  | false =>
    obtain ⟨hc, rounds, hr⟩ := leads_asks (leads_takeEvents taken (Turn.new a w o message))
    have hid : (Turn.new a w o message).agent.component.id = c.id := h.id_eq
    rw [hid] at hr
    exact h.goesOn hc hr

theorem lives_delete (h : Lives w₀ c attrs deleted a w) :
    Lives w₀ c attrs true (a.delete w).2.1 (a.delete w).2.2 := by
  have hv := h.isValid
  unfold delete
  cases deleted with
  | true =>
    rw [hv, if_neg (by simp)]
    exact h
  | false =>
    unfold isValid at hv
    unfold isValid Component.delete
    simp only [hv, Bool.not_false, if_true]
    refine ⟨?_, ?_⟩
    · show ({ a.component with valid := false } : Component) = _
      rw [h.handle]
      rfl
    · apply h.ends
      show w.log ++ [.delete a.component.id] = _
      rw [h.id_eq]

theorem lives_drop (h : Lives w₀ c attrs deleted a w) :
    ∃ rounds, w₀.AskedSince (a.drop w) c.id (span c attrs rounds true) := by
  have hv : a.component.valid = !deleted := h.isValid
  unfold drop Component.drop
  cases deleted with
  | true =>
    rw [hv, if_neg (by simp)]
    exact h.asked
  | false =>
    rw [hv, Bool.not_false, if_pos rfl]
    apply h.ends
    show w.log ++ [.delete a.component.id] = _
    rw [h.id_eq]

theorem enlist_component (a : Agent) (w : World) (server : Mcp.Server)
    (filter : Option (List String)) :
    (a.addServer w server filter).2.1.component = a.component ∧
      (a.addServer w server filter).2.2.log = w.log := by
  obtain ⟨tools, ht⟩ := addServer_agent a w server filter
  constructor
  · rw [ht]
  · rw [addServer_world, listTools_world]
    rfl

theorem lives_run (h : Lives w₀ c attrs deleted a w) (u : Use) :
    Lives w₀ c attrs (deleted || u.deletes) (u.run a w).2.1 (u.run a w).2.2 := by
  cases u with
  | turn message o taken =>
    show Lives w₀ c attrs (deleted || false) _ _
    rw [Bool.or_false]
    exact lives_turn h message o taken
  | clear | equip tools =>
    show Lives w₀ c attrs (deleted || false) _ _
    rw [Bool.or_false]
    exact h.rests rfl rfl
  | delete =>
    show Lives w₀ c attrs (deleted || true) _ _
    rw [Bool.or_true]
    exact lives_delete h
  | enlist server filter =>
    obtain ⟨hc, hl⟩ := enlist_component a w server filter
    show Lives w₀ c attrs (deleted || false) _ _
    rw [Bool.or_false]
    exact h.rests hc hl

theorem lives_serve (us : List Use) (h : Lives w₀ c attrs deleted a w) :
    Lives w₀ c attrs (deleted || us.any Use.deletes) (serve us a w).2.1 (serve us a w).2.2 := by
  induction us generalizing deleted a w with
  | nil =>
    rw [List.any_nil, Bool.or_false]
    exact h
  | cons u us ih =>
    rw [List.any_cons, ← Bool.or_assoc]
    exact ih (lives_run h u)

/-- The host hears nothing of an agent that was deleted. -/
theorem serve_silent (hv : a.isValid = false) (us : List Use) (w : World) :
    (serve us a w).2.1.component = a.component ∧ (serve us a w).2.2.log = w.log := by
  refine serve_keeps (P := fun b w' => b.component = a.component ∧ w'.log = w.log) ?_ ⟨rfl, rfl⟩
  rintro u - b w' ⟨hb, hw⟩
  have hvb : b.isValid = false := (congrArg Component.valid hb).trans hv
  cases u with
  | turn message o taken =>
    obtain ⟨-, ha, hw'⟩ := takeEvents_of_invalid hvb w' o message taken
    exact ⟨(congrArg Agent.component ha).trans hb, (congrArg World.log hw').trans hw⟩
  | clear | equip tools => exact ⟨hb, hw⟩
  | delete =>
    have hd : b.delete w' = (.ok (), b, w') := by
      unfold delete
      rw [hvb, if_neg Bool.false_ne_true]
    show (b.delete w').2.1.component = _ ∧ (b.delete w').2.2.log = _
    rw [hd]
    exact ⟨hb, hw⟩
  | enlist server filter =>
    obtain ⟨hc, hl⟩ := enlist_component b w' server filter
    exact ⟨hc.trans hb, hl.trans hw⟩

theorem lives_define {o : Options} (h : define w₀ o = (.ok a, w)) :
    ∃ attrs, o.resolve = .ok (a.model, attrs) ∧
      w₀.host.define w₀.serial a.component.type a.component.id attrs = .ok () ∧
      Lives w₀ a.component attrs false a w := by
  obtain ⟨attrs, hr, hd, ha, hw⟩ := define_ok h
  have hc := congrArg Agent.component ha
  refine ⟨attrs, hr, ?_, ?_, [], ?_⟩
  · rw [hc]
    exact hd
  · rw [hc]
    rfl
  · refine World.askedSince_one ?_ (beq_self_eq_true a.component.id)
    rw [hw, hc]
    rfl

end Uses

/-! ## Agents of configurations -/

section Configured

variable {g : Config}

theorem addPresets_agent (g : Config) (fs : Files) (ps : List String) (a : Agent) :
    ∃ tools, (addPresets g fs ps a).2 = { a with tools } := by
  induction ps generalizing a with
  | nil => exact ⟨a.tools, rfl⟩
  | cons p ps ih =>
    unfold addPresets addPreset
    cases (Preset.load fs g.presetDir p).bind (buildAll (g.authenticator p)) with
    | error e => exact ⟨a.tools, rfl⟩
    | ok ts =>
      obtain ⟨tools, h⟩ := ih { a with tools := (a.tools.registerAll ts).2 }
      exact ⟨tools, h⟩

theorem addServers_serves (es : List Config.Entry) (a : Agent) (w : World) :
    ∃ us, us.any Use.deletes = false ∧ (addServers es a w).2 = (serve us a w).2 := by
  induction es generalizing a w with
  | nil => exact ⟨[], rfl, rfl⟩
  | cons e es ih =>
    rcases hr : a.addServer w e.server e.tools with ⟨r, b, w'⟩
    have hu : ((Use.enlist e.server e.tools).run a w).2 = (b, w') := congrArg Prod.snd hr
    unfold addServers
    rw [hr]
    cases r with
    | error e' => exact ⟨[.enlist e.server e.tools], rfl, hu.symm⟩
    | ok r =>
      obtain ⟨us, hd, hs⟩ := ih b w'
      refine ⟨.enlist e.server e.tools :: us, hd, ?_⟩
      rw [serve_cons, hu]
      exact hs

/-- To give an agent the tools of a configuration is a use of it. -/
theorem addConfigured_serves (a : Agent) (w : World) (fs : Files) (g : Config) :
    ∃ us, us.any Use.deletes = false ∧ (a.addConfigured w fs g).2 = (serve us a w).2 := by
  obtain ⟨tools, ht⟩ := addPresets_agent g fs g.presets a
  unfold addConfigured
  dsimp only
  rcases hp : addPresets g fs g.presets a with ⟨e | u, b⟩
  · rw [hp] at ht
    cases ht
    exact ⟨[.equip tools], rfl, rfl⟩
  · rw [hp] at ht
    cases ht
    obtain ⟨us, hd, hs⟩ := addServers_serves g.servers { a with tools } w
    refine ⟨.equip tools :: us, hd, ?_⟩
    rw [serve_cons]
    refine Eq.trans ?_ hs
    rcases hr : addServers g.servers { a with tools } w with ⟨e | u, b, w'⟩
    · simp only [hr]
    · simp only [hr]

/-- The agent of a configuration was defined and then used; when a tool could not be used, it was
deleted behind that and given up. -/
theorem ofConfig_serves (fs : Files) {w₀ w : World} {a : Agent} (h : define w₀ g.options = (.ok a, w)) :
    ∃ us, us.any Use.deletes = false ∧
      (ofConfig w₀ fs g = (.ok (serve us a w).2.1, (serve us a w).2.2) ∨
        ∃ e, ofConfig w₀ fs g = (.error e,
          (serve (us ++ [.delete]) a w).2.1.drop (serve (us ++ [.delete]) a w).2.2)) := by
  obtain ⟨us, hd, hs⟩ := addConfigured_serves a w fs g
  refine ⟨us, hd, ?_⟩
  unfold ofConfig
  rw [h]
  rcases hc : a.addConfigured w fs g with ⟨e | n, b, w'⟩
  · right
    rw [hc] at hs
    refine ⟨e, ?_⟩
    rw [serve_concat, ← hs]
    simp only [hc]
    rfl
  · left
    rw [hc] at hs
    simp only [hc, ← hs]

/-- A component is released, too, when its agent could not be given its tools. -/
theorem ofConfig_releases {fs : Files} {w₀ w w' : World} {a : Agent} {e : Error}
    (h : define w₀ g.options = (.ok a, w)) (he : ofConfig w₀ fs g = (.error e, w')) :
    ∃ attrs rounds, w₀.AskedSince w' a.component.id (span a.component attrs rounds true) := by
  obtain ⟨attrs, -, -, hl⟩ := lives_define h
  obtain ⟨us, -, hs | ⟨e', hs⟩⟩ := ofConfig_serves fs h
  · rw [he] at hs
    cases hs
  · rw [he] at hs
    cases hs
    obtain ⟨rounds, hr⟩ := lives_drop (lives_serve (us ++ [.delete]) hl)
    exact ⟨attrs, rounds, hr⟩

end Configured

/-! ## The life of a component -/

/-- The life of the component of an agent that was just made, whatever becomes of the agent. -/
structure Lifecycle (w₀ : World) (attrs : Json) (system : Option String) (a : Agent) (w : World) :
    Prop where
  /-- The host agreed to define the component. -/
  made : w₀.host.define w₀.serial a.component.type a.component.id attrs = .ok ()
  /-- The agent may be used until its deletion, -/
  valid : ∀ us, (serve us a w).2.1.isValid = !us.any Use.deletes
  /-- which comes behind all rounds, and once however often it is asked for. -/
  asked : ∀ us, ∃ rounds, w₀.AskedSince (serve us a w).2.2 a.component.id
    (span a.component attrs rounds (us.any Use.deletes))
  /-- An agent that is given up has had its component deleted, too. -/
  dropped : ∀ us, ∃ rounds,
    w₀.AskedSince ((serve us a w).2.1.drop (serve us a w).2.2) a.component.id
      (span a.component attrs rounds true)
  /-- Whatever the host says to the deletion, only what the system said is left behind it. -/
  deleted : ∀ us, (serve (us ++ [.delete]) a w).2.1.isValid = false ∧
    (serve (us ++ [.delete]) a w).2.1.history.messages = system.toList.map .system
  /-- From then on the host is asked nothing at all, -/
  silent : ∀ us vs, us.any Use.deletes = true →
    (serve (us ++ vs) a w).2.2.log = (serve us a w).2.2.log ∧
    ((serve (us ++ vs) a w).2.1.drop (serve (us ++ vs) a w).2.2).log = (serve us a w).2.2.log
  /-- and a turn shows its failure and changes nothing, however much of it is taken. -/
  refused : ∀ us o message, us.any Use.deletes = true →
    let t := Turn.new (serve us a w).2.1 (serve us a w).2.2 o message
    t.exhaust = ([.error (.componentInvalid a.component.id)], { t with phase := .done }) ∧
    ∀ n, (t.takeEvents n).1 = [Except.error (Error.componentInvalid a.component.id)].take n ∧
      (t.takeEvents n).2.agent = t.agent ∧ (t.takeEvents n).2.world = t.world

theorem exhaust_of_invalid {a : Agent} (hv : a.isValid = false) (w : World) (o : RunOptions)
    (message : String) :
    (Turn.new a w o message).exhaust =
      ([.error (.componentInvalid a.component.id)], { Turn.new a w o message with phase := .done }) := by
  have ha : (Turn.new a w o message).advance =
      (Turn.new a w o message).fail (.componentInvalid a.component.id) := by
    unfold Turn.new advance
    simp only [hv]
    rfl
  exact exhaust_eq (drains_last rfl rfl ha rfl)

/-- Whatever is done with an agent and however the host answers, its component is defined once,
asked for rounds while the agent is valid, deleted once, and left alone from then on. -/
theorem agent_lives (w₀ w : World) (o : Options) (a : Agent) (h : define w₀ o = (.ok a, w)) :
    ∃ attrs, o.resolve = .ok (a.model, attrs) ∧
      Lifecycle w₀ attrs (o.systemMessage.or a.model.systemMessage) a w := by
  obtain ⟨attrs, hr, hm, hl⟩ := lives_define h
  -- one invariant after every sequence of uses, from which the fields are read
  have lives (us : List Use) :
      Lives w₀ a.component attrs (us.any Use.deletes) (serve us a w).2.1 (serve us a w).2.2 :=
    lives_serve us hl
  have invalid {us : List Use} (hd : us.any Use.deletes = true) :
      (serve us a w).2.1.isValid = false := by
    rw [(lives us).isValid, hd]
    rfl
  refine ⟨attrs, hr, ?_⟩
  constructor
  case made => exact hm
  case valid => exact fun us => (lives us).isValid
  case asked => exact fun us => (lives us).asked
  case dropped => exact fun us => lives_drop (lives us)
  case deleted =>
    intro us
    refine ⟨invalid (by simp [Use.deletes]), ?_⟩
    rw [serve_concat, run_forgets rfl (settled_serve (settled_define h) us w)]
    rfl
  case silent =>
    intro us vs hd
    have hv := invalid hd
    obtain ⟨hc, hw⟩ := serve_silent hv vs (serve us a w).2.2
    rw [serve_append]
    refine ⟨hw, ?_⟩
    unfold drop Component.drop
    rw [hc, if_neg (by simpa [isValid] using hv)]
    exact hw
  case refused =>
    intro us o' message hd
    have hv := invalid hd
    rw [← (lives us).id_eq]
    refine ⟨exhaust_of_invalid hv _ o' message, fun n => ?_⟩
    exact takeEvents_of_invalid hv _ o' message n

/-- A world whose host greets once and cannot delete. -/
def busyWorld : World :=
  let w := World.scripted [.ok [.ok (Delta.mk (some .stop) (.assistant "Hi." none)).toJson]]
  { w with host := { w.host with delete := fun _ id => .error (.delete id "busy") } }

/-- A host that cannot delete is asked to once, and a turn behind that is refused. -/
theorem released_although_busy :
    ∃ a w attrs, define busyWorld ⟨"qwen3-0.6b", .none, some "Be brief."⟩ = (.ok a, w) ∧
      Lifecycle busyWorld attrs (some "Be brief.") a w ∧
      (serve [.turn "Hello." ⟨true, false⟩ 9, .delete, .clear, .delete,
          .turn "Are you there?" ⟨true, false⟩ 9] a w).1 =
        [.items [.ok (.outputText "Hi." false)],
          .deleted (.error (.host (.delete "component" "busy"))), .nothing, .deleted (.ok ()),
          .items [.error (.componentInvalid "component")]] := by
  obtain ⟨attrs, -, h⟩ := agent_lives busyWorld _ ⟨"qwen3-0.6b", .none, some "Be brief."⟩ _ rfl
  exact ⟨_, _, attrs, rfl, h, rfl⟩

end Agent

end Parley
