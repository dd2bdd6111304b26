/-
Two agents side by side that differ in secrets only: their tools make the same requests but for the
credentials of some presets, and what either asks of the host differs in these, in the key of the
model and in the name of the component (`Seen`). On a host that does not mind, the two do the same:
a call of a tool, a step of a turn and the events of a turn are taken one after the other, and each
is shown to keep `Twins`.
-/
import Parley.Agent.Setup
import Parley.Proofs.Agent.Schedule
import Parley.Proofs.Agent.Use
import Parley.Proofs.Http.Headers
import Mathlib.Data.List.Forall2

namespace Parley

/-! ## What is not compared -/

/-- The failure with the name of the component left blank. -/
def Host.Error.anonymous : Host.Error → Host.Error
  | .define type _ reason => .define type "" reason
  | .delete _ reason => .delete "" reason
  | .componentInvalid _ => .componentInvalid ""
  | .call capability reason => .call capability reason
  | .stream reason => .stream reason

def Error.anonymous : Error → Error
  | .host e => .host e.anonymous
  | .componentInvalid _ => .componentInvalid ""
  | e => e

theorem Error.anonymous_host (e : Host.Error) : (Error.host e).anonymous = .host e.anonymous := rfl

/-- Of answers that are alike but for names, both are failures or neither is. -/
theorem Host.answers_alike {α : Type} {r₁ r₂ : Except Host.Error α}
    (h : r₁.mapError Host.Error.anonymous = r₂.mapError Host.Error.anonymous) :
    (∃ e₁ e₂, r₁ = .error e₁ ∧ r₂ = .error e₂ ∧ e₂.anonymous = e₁.anonymous) ∨
      ∃ v, r₁ = .ok v ∧ r₂ = .ok v := by
  cases r₁ with
  | error e₁ =>
    cases r₂ with
    | error e₂ => exact .inl ⟨e₁, e₂, rfl, rfl, (Except.error.inj h).symm⟩
    | ok v => cases h
  | ok v =>
    cases r₂ with
    | error e₂ => cases h
    | ok u => exact .inr ⟨v, rfl, congrArg Except.ok (Except.ok.inj h).symm⟩

/-- Two objects that differ in the members of one name at most. -/
def Json.AgreeExcept (name : String) : Json → Json → Prop
  | .obj ms, .obj ns => ms.filter (·.1 ≠ name) = ns.filter (·.1 ≠ name)
  | v, u => v = u

theorem Json.AgreeExcept.refl {name : String} (v : Json) : Json.AgreeExcept name v v := by
  cases v <;> rfl

/-- A host whose answers depend neither on credentials nor on the key of a model, nor on which of
two names a component has. -/
structure Host.Indifferent (h : Host) (id₁ id₂ : String) : Prop where
  define : ∀ serial type attrs₁ attrs₂,
    Json.AgreeExcept Model.Attribute.apiKey.name attrs₁ attrs₂ →
    (h.define serial type id₁ attrs₁).mapError Host.Error.anonymous =
      (h.define serial type id₂ attrs₂).mapError Host.Error.anonymous
  delete : ∀ serial, (h.delete serial id₁).mapError Host.Error.anonymous =
    (h.delete serial id₂).mapError Host.Error.anonymous
  fetch : ∀ serial (r₁ r₂ : Http.Request), r₁.Resembles r₂ →
    h.call serial Host.httpRequest r₁.toJson = h.call serial Host.httpRequest r₂.toJson

namespace Agent

open Chat Turn

/-- Two configurations with the files and the host of either, and the names of two components. -/
structure Pair where
  files : Files
  host : Host
  left : Config
  right : Config
  leftId : String
  rightId : String

namespace Pair

variable {p : Pair}

/-! ## Tools and requests -/

/-- A tool that makes requests, defined in a preset for which the tokens differ. -/
structure Marked (p : Pair) (preset : String) (d : Tool.Description) (b : Definition.Rest) :
    Prop where
  listed : preset ∈ p.left.presets
  defined : ∃ ds, Preset.load p.files p.left.presetDir preset = .ok ds ∧ .restApi d b ∈ ds
  differs : (p.left.auth.get? preset).map Config.Credentials.token ≠
    (p.right.auth.get? preset).map Config.Credentials.token
  /-- Whatever it is called with, its requests differ in the header with the credentials. -/
  resembles : ∀ args, (b.request (p.left.authenticator preset) args).Resembles
    (b.request (p.right.authenticator preset) args)

/-- Two tools that are the same, but for the credentials of a preset whose tokens differ. -/
inductive Twins (p : Pair) : Tool → Tool → Prop
  | same (t : Tool) : Twins p t t
  | marked {preset : String} {d : Tool.Description} {b : Definition.Rest}
    {path : Option OutputPath} : p.Marked preset d b →
    Twins p (.rest d b path (p.left.authenticator preset))
      (.rest d b path (p.right.authenticator preset))

/-- Two requests that are the same, but for the name of the component, the key of a model that has
to have one, and the credentials of a preset whose tokens differ. -/
inductive Seen (p : Pair) : Host.Request → Host.Request → Prop
  | same (r : Host.Request) : Seen p r r
  | defined (type : String) (attrs : Json) :
    Seen p (.define type p.leftId attrs) (.define type p.rightId attrs)
  | deleted : Seen p (.delete p.leftId) (.delete p.rightId)
  | streamed (method : String) (args : Json) :
    Seen p (.stream method p.leftId args) (.stream method p.rightId args)
  | keyed {m : Model} {attrs₁ attrs₂ : Json} :
    Model.find p.left.model = .ok m → .apiKey ∈ m.required →
    Json.AgreeExcept Model.Attribute.apiKey.name attrs₁ attrs₂ →
    Seen p (.define m.componentType p.leftId attrs₁) (.define m.componentType p.rightId attrs₂)
  | sent {preset : String} {d : Tool.Description} {b : Definition.Rest} (args : Arguments) :
    p.Marked preset d b →
    Seen p (.call Host.httpRequest (b.request (p.left.authenticator preset) args).toJson)
      (.call Host.httpRequest (b.request (p.right.authenticator preset) args).toJson)

theorem seen_refl (rs : List Host.Request) : List.Forall₂ p.Seen rs rs :=
  List.forall₂_same.2 fun r _ => .same r

theorem Twins.description_eq {t₁ t₂ : Tool} (h : p.Twins t₁ t₂) :
    t₂.description = t₁.description := by
  cases h <;> rfl

theorem Twins.name_eq {t₁ t₂ : Tool} (h : p.Twins t₁ t₂) : t₂.name = t₁.name :=
  congrArg Tool.Description.name h.description_eq

/-! ## Registries -/

/-- Registries of twins. -/
structure SameTools (p : Pair) (r₁ r₂ : Tool.Registry) : Prop where
  index : r₂.index = r₁.index
  tools : List.Forall₂ p.Twins r₁.tools r₂.tools

section Registries

variable {r₁ r₂ : Tool.Registry}

theorem sameTools_refl (r : Tool.Registry) : p.SameTools r r :=
  ⟨rfl, List.forall₂_same.2 fun t _ => .same t⟩

theorem SameTools.descriptions_eq (h : p.SameTools r₁ r₂) :
    r₂.descriptions = r₁.descriptions := by
  have hd : ∀ ts₁ ts₂ : List Tool, List.Forall₂ p.Twins ts₁ ts₂ →
      ts₂.map Tool.description = ts₁.map Tool.description := by
    intro ts₁ ts₂ hts
    induction hts with
    | nil => rfl
    | cons ht _ ih => rw [List.map_cons, List.map_cons, ht.description_eq, ih]
  exact hd _ _ h.tools

theorem SameTools.find (h : p.SameTools r₁ r₂) (name : String) :
    (∃ e, r₁.find name = .error e ∧ r₂.find name = .error e) ∨
      ∃ t₁ t₂, r₁.find name = .ok t₁ ∧ r₂.find name = .ok t₂ ∧ p.Twins t₁ t₂ := by
  have hget : ∀ (ts₁ ts₂ : List Tool), List.Forall₂ p.Twins ts₁ ts₂ → ∀ i : Nat,
      (ts₁[i]? = none ∧ ts₂[i]? = none) ∨
        ∃ t₁ t₂, ts₁[i]? = some t₁ ∧ ts₂[i]? = some t₂ ∧ p.Twins t₁ t₂ := by
    intro ts₁ ts₂ hts
    induction hts with
    | nil => exact fun i => .inl ⟨rfl, rfl⟩
    | cons ht _ ih =>
      intro i
      cases i with
      | zero => exact .inr ⟨_, _, rfl, rfl, ht⟩
      | succ i => exact ih i
  unfold Tool.Registry.find Tool.Registry.get?
  rw [h.index]
  cases r₁.index.lookup name with
  | none => exact .inl ⟨_, rfl, rfl⟩
  | some i =>
    simp only [Option.bind_some]
    rcases hget _ _ h.tools i with ⟨h₁, h₂⟩ | ⟨t₁, t₂, h₁, h₂, ht⟩
    · exact .inl ⟨_, by rw [h₁], by rw [h₂]⟩
    · exact .inr ⟨t₁, t₂, by rw [h₁], by rw [h₂], ht⟩

theorem SameTools.register (h : p.SameTools r₁ r₂) {t₁ t₂ : Tool} (ht : p.Twins t₁ t₂) :
    (r₂.register t₂).1 = (r₁.register t₁).1 ∧
      p.SameTools (r₁.register t₁).2 (r₂.register t₂).2 := by
  unfold Tool.Registry.register
  rw [h.index, ht.name_eq]
  cases r₁.index.lookup t₁.name with
  | some i => exact ⟨rfl, h⟩
  | none =>
    refine ⟨rfl, ?_, List.rel_append h.tools (.cons ht .nil)⟩
    rw [h.tools.length_eq]

theorem SameTools.registerAll {ts₁ ts₂ : List Tool} (hts : List.Forall₂ p.Twins ts₁ ts₂)
    (h : p.SameTools r₁ r₂) :
    (r₂.registerAll ts₂).1 = (r₁.registerAll ts₁).1 ∧
      p.SameTools (r₁.registerAll ts₁).2 (r₂.registerAll ts₂).2 := by
  induction hts generalizing r₁ r₂ with
  | nil => exact ⟨rfl, h⟩
  | @cons t₁ t₂ ts₁ ts₂ ht _ ih =>
    obtain ⟨hr, hs⟩ := h.register ht
    unfold Tool.Registry.registerAll
    rcases h₁ : r₁.register t₁ with ⟨reg, s₁⟩
    rcases h₂ : r₂.register t₂ with ⟨reg₂, s₂⟩
    rw [h₁, h₂] at hr hs
    cases hr
    cases reg with
    | added => exact ⟨congrArg (· + 1) (ih hs).1, (ih hs).2⟩
    | alreadyRegistered => exact ih hs

end Registries

/-! ## Worlds and agents -/

/-- Worlds that have seen the same. -/
structure SameWorld (p : Pair) (w₁ w₂ : World) : Prop where
  hosts : w₁.host = p.host ∧ w₂.host = p.host
  connector : w₂.connector = w₁.connector
  rounds : w₂.rounds = w₁.rounds
  serial : w₂.serial = w₁.serial
  log : List.Forall₂ p.Seen w₁.log w₂.log
  sessions : w₂.sessions = w₁.sessions

/-- Agents that cannot be told apart but by the names of their components and by their
credentials. -/
structure SameAgent (p : Pair) (a₁ a₂ : Agent) : Prop where
  model : a₂.model = a₁.model
  ids : a₁.component.id = p.leftId ∧ a₂.component.id = p.rightId
  valid : a₂.isValid = a₁.isValid
  history : a₂.history = a₁.history
  tools : p.SameTools a₁.tools a₂.tools

section Worlds

variable {w₁ w₂ : World} {a₁ a₂ : Agent}

theorem SameWorld.noting (h : p.SameWorld w₁ w₂) {r₁ r₂ : Host.Request} (hr : p.Seen r₁ r₂) :
    p.SameWorld (w₁.noting r₁) (w₂.noting r₂) where
  hosts := h.hosts
  connector := h.connector
  rounds := h.rounds
  serial := congrArg (· + 1) h.serial
  log := List.rel_append h.log (.cons hr .nil)
  sessions := h.sessions

theorem SameWorld.context_eq (h : p.SameWorld w₁ w₂) (i : Nat) (callId : String) :
    w₂.context i callId = w₁.context i callId := by
  unfold World.context
  rw [h.hosts.1, h.hosts.2, h.connector, h.serial]

theorem SameAgent.saying (h : p.SameAgent a₁ a₂) (ms : List Message) :
    p.SameAgent (a₁.saying ms) (a₂.saying ms) :=
  ⟨h.model, h.ids, h.valid, by unfold Agent.saying; rw [h.history], h.tools⟩

theorem SameAgent.inferenceRequest_eq (h : p.SameAgent a₁ a₂) (o : RunOptions) :
    a₂.inferenceRequest o = a₁.inferenceRequest o := by
  unfold inferenceRequest
  rw [h.history, h.tools.descriptions_eq]

/-- A round is refused on both sides or streamed on both sides. -/
theorem SameAgent.stream (ha : p.SameAgent a₁ a₂) (hw : p.SameWorld w₁ w₂) (method : String)
    (args : Json) :
    ∃ v₁ v₂, p.SameWorld v₁ v₂ ∧
      ((∃ e₁ e₂, a₁.component.stream w₁ method args = (.error e₁, v₁) ∧
          a₂.component.stream w₂ method args = (.error e₂, v₂) ∧ e₂.anonymous = e₁.anonymous) ∨
        ∃ items, a₁.component.stream w₁ method args = (.ok items, v₁) ∧
          a₂.component.stream w₂ method args = (.ok items, v₂)) := by
  have hr : p.Seen (.stream method a₁.component.id args) (.stream method a₂.component.id args) := by
    rw [ha.ids.1, ha.ids.2]
    exact .streamed method args
  have hn := hw.noting hr
  have hv : a₂.component.valid = a₁.component.valid := ha.valid
  unfold Component.stream World.stream
  rw [hv, hw.rounds]
  cases a₁.component.valid with
  | false => exact ⟨w₁, w₂, hw, .inl ⟨_, _, rfl, rfl, rfl⟩⟩
  | true =>
    cases w₁.rounds with
    | nil => exact ⟨_, _, hn, .inl ⟨_, _, rfl, rfl, rfl⟩⟩
    | cons r rounds =>
      refine ⟨{ w₁.noting (.stream method a₁.component.id args) with rounds },
        { w₂.noting (.stream method a₂.component.id args) with rounds },
        ⟨hn.hosts, hn.connector, rfl, hn.serial, hn.log, hn.sessions⟩, ?_⟩
      cases r with
      | error e => exact .inl ⟨_, _, rfl, rfl, rfl⟩
      | ok items => exact .inr ⟨items, rfl, rfl⟩

end Worlds

/-! ## Calls of tools -/

/-- What came of a call and what was asked for it, compared with another. -/
structure SameInvocation (p : Pair) (i₁ i₂ : Tool.Invocation) : Prop where
  completion : i₂.completion = i₁.completion
  requests : List.Forall₂ p.Seen i₁.requests i₂.requests
  sessions : i₂.sessions = i₁.sessions
  runs : i₂.runs = i₁.runs

section Calls

variable {a₁ a₂ : Agent} {w₁ w₂ : World}

theorem sameInvocation_refl (i : Tool.Invocation) : p.SameInvocation i i :=
  ⟨rfl, seen_refl i.requests, rfl, rfl⟩

/-- Requests that differ in credentials are answered the same. -/
theorem Marked.callRest (hh : p.host.Indifferent p.leftId p.rightId) {preset : String}
    {d : Tool.Description} {b : Definition.Rest} (h : p.Marked preset d b)
    (path : Option OutputPath) {c : Tool.Context} (hc : c.host = p.host) (args : Arguments) :
    p.SameInvocation (Tool.callRest d path c (b.request (p.left.authenticator preset) args))
      (Tool.callRest d path c (b.request (p.right.authenticator preset) args)) := by
  have hf := hh.fetch c.serial _ _ (h.resembles args)
  refine ⟨?_, .cons (.sent args h) .nil, rfl, rfl⟩
  unfold Tool.callRest Host.fetch
  rw [hc, hf]

theorem sameInvocation_perform (hh : p.host.Indifferent p.leftId p.rightId)
    (ha : p.SameAgent a₁ a₂) (hw : p.SameWorld w₁ w₂) (i : Nat) (c : ToolCall) :
    p.SameInvocation (a₁.perform w₁ i c) (a₂.perform w₂ i c) := by
  unfold perform
  rw [hw.context_eq]
  rcases ha.tools.find c.name with ⟨e, h₁, h₂⟩ | ⟨t₁, t₂, h₁, h₂, ht⟩
  · rw [h₁, h₂]
    exact sameInvocation_refl _
  · rw [h₁, h₂]
    cases ht with
    | same => exact sameInvocation_refl _
    | marked hm => exact hm.callRest hh _ hw.hosts.1 c.arguments

/-- A call is the very same, unless its tool is of a preset whose tokens differ. -/
theorem perform_eq_or_marked (ha : p.SameAgent a₁ a₂) (hw : p.SameWorld w₁ w₂) (i : Nat)
    (c : ToolCall) :
    a₂.perform w₂ i c = a₁.perform w₁ i c ∨ ∃ preset d b path, p.Marked preset d b ∧
      a₁.tools.find c.name = .ok (.rest d b path (p.left.authenticator preset)) ∧
      a₂.tools.find c.name = .ok (.rest d b path (p.right.authenticator preset)) := by
  unfold perform
  rw [hw.context_eq]
  rcases ha.tools.find c.name with ⟨e, h₁, h₂⟩ | ⟨t₁, t₂, h₁, h₂, ht⟩
  · rw [h₁, h₂]
    exact .inl rfl
  · cases ht with
    | same =>
      rw [h₁, h₂]
      exact .inl rfl
    | marked hm => exact .inr ⟨_, _, _, _, hm, h₁, h₂⟩

/-- A batch has the same outcomes on both sides. -/
theorem sameWorld_dispatch (hh : p.host.Indifferent p.leftId p.rightId)
    (ha : p.SameAgent a₁ a₂) (hw : p.SameWorld w₁ w₂) (calls : List ToolCall) :
    (a₂.dispatch w₂ calls).1 = (a₁.dispatch w₁ calls).1 ∧
      p.SameWorld (a₁.dispatch w₁ calls).2 (a₂.dispatch w₂ calls).2 := by
  -- the calls of a batch start from one world, so they are compared one by one
  have hi (i : Nat) (c : ToolCall) := sameInvocation_perform hh ha hw i c
  have hinv : List.Forall₂ p.SameInvocation (invocations a₁ w₁ calls) (invocations a₂ w₂ calls) := by
    unfold invocations
    rw [List.forall₂_map_left_iff, List.forall₂_map_right_iff]
    exact List.forall₂_same.2 fun c _ => hi c.2 c.1
  have hs : (invocations a₂ w₂ calls).flatMap Tool.Invocation.sessions =
      (invocations a₁ w₁ calls).flatMap Tool.Invocation.sessions := by
    unfold invocations
    rw [List.flatMap_map, List.flatMap_map]
    exact List.flatMap_congr fun c _ => (hi c.2 c.1).sessions
  rw [dispatch_eq, dispatch_eq]
  constructor
  · exact List.map_congr_left fun c _ => by rw [(hi c.2 c.1).completion]
  · refine ⟨hw.hosts, hw.connector, hw.rounds, ?_, ?_, ?_⟩
    · show w₂.serial + _ = w₁.serial + _
      rw [hw.serial, hinv.length_eq]
    · exact List.rel_append hw.log (List.rel_flatMap hinv fun _ _ h => h.requests)
    · show w₂.sessions ++ _ = w₁.sessions ++ _
      rw [hw.sessions, hs]

end Calls

/-! ## Turns -/

/-- Turns that stand at the same place, with the same events waiting. -/
structure SameTurn (p : Pair) (t₁ t₂ : Turn) : Prop where
  agent : p.SameAgent t₁.agent t₂.agent
  world : p.SameWorld t₁.world t₂.world
  options : t₂.options = t₁.options
  phase : t₂.phase = t₁.phase
  pending : t₂.pending.map (Except.mapError Error.anonymous) =
    t₁.pending.map (Except.mapError Error.anonymous)

section Turns

variable {t₁ t₂ : Turn}

theorem SameTurn.isDone_eq (h : p.SameTurn t₁ t₂) : t₂.isDone = t₁.isDone := by
  unfold isDone
  rw [h.phase]

theorem SameTurn.weight_eq (h : p.SameTurn t₁ t₂) : t₂.weight = t₁.weight := by
  unfold weight
  rw [h.phase, h.world.rounds]

theorem SameTurn.turning (h : p.SameTurn t₁ t₂) (next : Phase) :
    p.SameTurn { t₁ with phase := next } { t₂ with phase := next } :=
  ⟨h.agent, h.world, h.options, rfl, h.pending⟩

theorem SameTurn.fail (h : p.SameTurn t₁ t₂) {e₁ e₂ : Error} (he : e₂.anonymous = e₁.anonymous) :
    p.SameTurn (t₁.fail e₁) (t₂.fail e₂) := by
  refine ⟨h.agent, h.world, h.options, rfl, ?_⟩
  unfold Turn.fail
  rw [List.map_append, List.map_append, h.pending]
  simp only [List.map_cons, List.map_nil, Except.mapError, he]

theorem SameTurn.showing (h : p.SameTurn t₁ t₂) (es : List Event) :
    p.SameTurn (t₁.showing es) (t₂.showing es) := by
  refine ⟨h.agent, h.world, h.options, h.phase, ?_⟩
  unfold Turn.showing
  rw [List.map_append, List.map_append, h.pending]

theorem SameTurn.append (h : p.SameTurn t₁ t₂) (m : Message) (next : Phase) :
    p.SameTurn (t₁.append m next) (t₂.append m next) := by
  have hh := h.agent.history
  unfold Turn.append
  rw [hh]
  cases t₁.agent.history.push m with
  | error e => exact h.fail rfl
  | ok history =>
    exact ⟨⟨h.agent.model, h.agent.ids, h.agent.valid, rfl, h.agent.tools⟩, h.world, h.options, rfl,
      h.pending⟩

theorem SameTurn.receive (h : p.SameTurn t₁ t₂) (d : Delta) (rest : List Item) :
    p.SameTurn (t₁.receive d rest) (t₂.receive d rest) := by
  obtain ⟨finish, m⟩ := d
  cases finish with
  | none => exact (h.showing _).turning _
  | some r =>
    cases r with
    | stop | length => exact (h.showing _).append m .done
    | error => exact (h.showing _).turning .done
    | toolCalls =>
      cases m with
      | toolCalls calls => exact (h.append _ _).showing _
      | system | user | assistant | toolResult => exact h.fail rfl

theorem SameTurn.record (h : p.SameTurn t₁ t₂) (results : List (ToolCall × Outcome)) :
    p.SameTurn (t₁.record results) (t₂.record results) := by
  have hs : p.SameTurn
      { t₁.showing (results.flatMap fun r => eventsOf r.1 r.2) with
        agent := t₁.agent.saying (results.map fun r => resultOf r.1 r.2) }
      { t₂.showing (results.flatMap fun r => eventsOf r.1 r.2) with
        agent := t₂.agent.saying (results.map fun r => resultOf r.1 r.2) } :=
    have hsh := h.showing (results.flatMap fun r => eventsOf r.1 r.2)
    ⟨h.agent.saying _, hsh.world, hsh.options, hsh.phase, hsh.pending⟩
  unfold Turn.record
  dsimp only
  cases results.findSome? fun r => r.2.fatal? with
  | some e => exact hs.fail rfl
  | none => exact hs.turning .infer

/-- A step takes turns that stand at the same place to the same place. -/
theorem SameTurn.advance (hh : p.host.Indifferent p.leftId p.rightId) (h : p.SameTurn t₁ t₂) :
    p.SameTurn t₁.advance t₂.advance := by
  have hp := h.phase
  unfold Turn.advance
  -- the phases are the same, so both turns take the same way through the step
  cases h₁ : t₁.phase with
  | done =>
    rw [h₁] at hp
    simp only [hp]
    exact h
  | start message =>
    rw [h₁] at hp
    simp only [hp, h.agent.valid]
    split
    · exact h.append _ _
    · exact h.fail rfl
  | infer =>
    rw [h₁] at hp
    have hreq : t₂.agent.inferenceRequest t₂.options = t₁.agent.inferenceRequest t₁.options := by
      rw [h.options, h.agent.inferenceRequest_eq]
    simp only [hp, hreq]
    obtain ⟨v₁, v₂, hw, hs⟩ :=
      h.agent.stream h.world inferMethod (t₁.agent.inferenceRequest t₁.options)
    have hasked : p.SameTurn { t₁ with world := v₁ } { t₂ with world := v₂ } :=
      ⟨h.agent, hw, h.options, h.phase, h.pending⟩
    rcases hs with ⟨e₁, e₂, hs₁, hs₂, he⟩ | ⟨items, hs₁, hs₂⟩
    · simp only [hs₁, hs₂]
      refine hasked.fail ?_
      rw [Error.anonymous_host, Error.anonymous_host, he]
    · simp only [hs₁, hs₂]
      exact hasked.turning (.streaming items)
  | streaming items =>
    rw [h₁] at hp
    cases items with
    | nil =>
      simp only [hp]
      exact h.fail rfl
    | cons item rest =>
      cases item with
      | error e =>
        simp only [hp]
        exact h.fail rfl
      | ok v =>
        simp only [hp]
        cases Delta.decode v with
        | error e => exact h.fail rfl
        | ok d => exact h.receive d rest
  | dispatch calls =>
    rw [h₁] at hp
    obtain ⟨ho, hw⟩ := sameWorld_dispatch hh h.agent h.world calls
    have hs : p.SameTurn { t₁ with world := (t₁.agent.dispatch t₁.world calls).2 }
        { t₂ with world := (t₂.agent.dispatch t₂.world calls).2 } :=
      ⟨h.agent, hw, h.options, h.phase, h.pending⟩
    simp only [hp, ho]
    exact hs.record _

/-! ## Events -/

theorem SameTurn.isEmpty_eq (h : p.SameTurn t₁ t₂) :
    t₂.pending.isEmpty = t₁.pending.isEmpty := by
  have he := congrArg List.isEmpty h.pending
  rwa [List.isEmpty_map, List.isEmpty_map] at he

theorem SameTurn.settle (hh : p.host.Indifferent p.leftId p.rightId) (fuel : Nat)
    (h : p.SameTurn t₁ t₂) : p.SameTurn (t₁.settle fuel) (t₂.settle fuel) := by
  induction fuel generalizing t₁ t₂ with
  | zero => exact h
  | succ fuel ih =>
    unfold Turn.settle
    rw [h.isEmpty_eq, h.isDone_eq]
    split
    · exact ih (h.advance hh)
    · exact h

theorem SameTurn.next (hh : p.host.Indifferent p.leftId p.rightId) (h : p.SameTurn t₁ t₂) :
    ∃ u₁ u₂, p.SameTurn u₁ u₂ ∧
      ((t₁.next? = (none, u₁) ∧ t₂.next? = (none, u₂)) ∨
        ∃ e₁ e₂, t₁.next? = (some e₁, u₁) ∧ t₂.next? = (some e₂, u₂) ∧
          e₂.mapError Error.anonymous = e₁.mapError Error.anonymous) := by
  have hs := h.settle hh t₁.weight
  have hp := hs.pending
  unfold Turn.next?
  rw [h.weight_eq]
  cases h₁ : (t₁.settle t₁.weight).pending with
  | nil =>
    rw [h₁, List.map_nil, List.map_eq_nil_iff] at hp
    simp only [h₁, hp]
    exact ⟨_, _, hs, .inl ⟨rfl, rfl⟩⟩
  | cons e₁ es₁ =>
    rw [h₁, List.map_cons, List.map_eq_cons_iff] at hp
    obtain ⟨e₂, es₂, h₂, he, hes⟩ := hp
    simp only [h₁, h₂]
    exact ⟨{ t₁.settle t₁.weight with pending := es₁ }, { t₂.settle t₁.weight with pending := es₂ },
      ⟨hs.agent, hs.world, hs.options, hs.phase, hes⟩, .inr ⟨e₁, e₂, rfl, rfl, he⟩⟩

/-- Whoever takes events of turns that stand at the same place gets the same. -/
theorem SameTurn.takeEvents (hh : p.host.Indifferent p.leftId p.rightId) (n : Nat)
    (h : p.SameTurn t₁ t₂) :
    (t₂.takeEvents n).1.map (Except.mapError Error.anonymous) =
        (t₁.takeEvents n).1.map (Except.mapError Error.anonymous) ∧
      p.SameTurn (t₁.takeEvents n).2 (t₂.takeEvents n).2 := by
  induction n generalizing t₁ t₂ with
  | zero => exact ⟨rfl, h⟩
  | succ n ih =>
    obtain ⟨u₁, u₂, hu, ⟨h₁, h₂⟩ | ⟨e₁, e₂, h₁, h₂, he⟩⟩ := h.next hh
    · rw [takeEvents_of_none h₁, takeEvents_of_none h₂]
      exact ⟨rfl, hu⟩
    · obtain ⟨hes, ht⟩ := ih hu
      rw [takeEvents_of_some h₁, takeEvents_of_some h₂]
      refine ⟨?_, ht⟩
      rw [List.map_cons, List.map_cons, he, hes]

end Turns

end Pair

end Agent

end Parley
