/-
Where the secrets of a configuration go. Two configurations that differ in secrets only make agents
that do the same (`credentials_confined`): whatever is done with the agents, they show the same,
remember the same and ask the same, but for the credentials in requests of tools from the presets
whose tokens differ, and for the key of a model that has to have one. So no other tool, no
conversation, no model and no tool server learns a token, and no model a key that it does not need.

Nothing is asked of the configurations but that they print the same with their secrets hidden, and
of the host that its answers do not depend on what may differ.
-/
import Parley.Proofs.Agent.Script
import Parley.Proofs.Agent.Twin

namespace Parley

/-! ## Configurations -/

namespace Config

variable {g₁ g₂ : Config}

/-- Configurations that differ in secrets have credentials for the same presets, under the same
schemes. -/
theorem get?_auth_of_redacted (h : g₁.redacted = g₂.redacted) (preset : String) :
    (g₁.auth.get? preset = none ∧ g₂.auth.get? preset = none) ∨
      ∃ token₁ token₂ format, g₁.auth.get? preset = some ⟨token₁, format⟩ ∧
        g₂.auth.get? preset = some ⟨token₂, format⟩ := by
  have hidden (g : Config) : g.redacted.auth.get? preset =
      (g.auth.get? preset).map fun a => { a with token := Config.hidden } :=
    Dictionary.get?_map g.auth (fun a => Credentials.mk Config.hidden a.format) preset
  have hget := hidden g₁
  rw [h, hidden g₂] at hget
  cases h₁ : g₁.auth.get? preset with
  | none =>
    rw [h₁, Option.map_none, Option.map_eq_none_iff] at hget
    exact .inl ⟨rfl, hget⟩
  | some a₁ =>
    rw [h₁, Option.map_some, Option.map_eq_some_iff] at hget
    obtain ⟨a₂, h₂, ha⟩ := hget
    have hformat : a₂.format = a₁.format := (Credentials.mk.inj ha).2
    exact .inr ⟨a₁.token, a₂.token, a₁.format, rfl, by rw [h₂, ← hformat]⟩

theorem apiKey_of_redacted (h : g₁.redacted = g₂.redacted) :
    g₂.apiKey.isNone = g₁.apiKey.isNone := by
  have hkey : g₁.apiKey.map (fun _ => Config.hidden) = g₂.apiKey.map fun _ => Config.hidden :=
    congrArg Config.apiKey h
  rw [← Option.isNone_map (f := fun _ => Config.hidden), ← hkey, Option.isNone_map]

/-- Credentials are all that they can put into a request differently. -/
theorem request_resembles (h : g₁.redacted = g₂.redacted) (preset : String) (b : Definition.Rest)
    (args : Arguments) :
    (b.request (g₁.authenticator preset) args).Resembles
      (b.request (g₂.authenticator preset) args) := by
  unfold authenticator
  rcases get?_auth_of_redacted h preset with ⟨h₁, h₂⟩ | ⟨token₁, token₂, format, h₁, h₂⟩
  · rw [h₁, h₂]
    exact .refl _
  · rw [h₁, h₂]
    refine ⟨rfl, rfl, ?_, rfl⟩
    exact (Dictionary.filter_insert _ _ _).trans (Dictionary.filter_insert _ _ _).symm

theorem authenticator_eq (h : g₁.redacted = g₂.redacted) {preset : String}
    (ht : (g₁.auth.get? preset).map Credentials.token =
      (g₂.auth.get? preset).map Credentials.token) :
    g₂.authenticator preset = g₁.authenticator preset := by
  unfold authenticator
  rcases get?_auth_of_redacted h preset with ⟨h₁, h₂⟩ | ⟨token₁, token₂, format, h₁, h₂⟩
  · rw [h₁, h₂]
  · rw [h₁, h₂] at ht
    rw [h₁, h₂, show token₁ = token₂ from Option.some.inj ht]

end Config

/-! ## Attributes of models -/

namespace Model

/-- Attributes that differ in the value of the key. -/
theorem componentAttrs_agree (m : Model) (as₁ as₂ : Attributes) (hd : as₂.device = as₁.device)
    (hq : as₂.quantization = as₁.quantization) (hm : as₂.mode = as₁.mode)
    (hk : as₂.apiKey.isNone = as₁.apiKey.isNone) :
    (∃ e, m.componentAttrs as₁ = .error e ∧ m.componentAttrs as₂ = .error e) ∨
      ∃ v₁ v₂, m.componentAttrs as₁ = .ok v₁ ∧ m.componentAttrs as₂ = .ok v₂ ∧
        Json.AgreeExcept Attribute.apiKey.name v₁ v₂ := by
  -- whether an attribute is missing does not depend on the value of the key
  have hmissing : (fun a => (as₂.get? a).isNone) = fun a => (as₁.get? a).isNone := by
    funext a
    cases a with
    | device => simp only [Attributes.get?, hd]
    | quantization => simp only [Attributes.get?, hq]
    | mode => simp only [Attributes.get?, hm]
    | apiKey => simpa only [Attributes.get?, Option.isNone_map] using hk
  unfold componentAttrs
  rw [hmissing]
  cases m.required.find? fun a => (as₁.get? a).isNone with
  | some a => exact .inl ⟨_, rfl, rfl⟩
  | none =>
    refine .inr ⟨_, _, rfl, rfl, ?_⟩
    simp only [Json.AgreeExcept, Attribute.all, List.filterMap_cons, List.filterMap_nil,
      Attributes.get?, hd, hq, hm]
    cases as₁.device <;> cases as₁.quantization <;> cases as₁.mode <;> cases as₁.apiKey <;>
      cases as₂.apiKey <;> simp [Attribute.name]

end Model

namespace Agent

open Chat Turn

/-- What the user gets, with the names of components left blank. -/
def Reply.anonymous : Reply → Reply
  | .items es => .items (es.map (Except.mapError Error.anonymous))
  | .deleted r => .deleted (r.mapError Error.anonymous)
  | .listed r => .listed (r.mapError Error.anonymous)
  | .nothing => .nothing

namespace Pair

variable {p : Pair}

/-! ## Uses -/

section Uses

variable {a₁ a₂ : Agent} {w₁ w₂ : World}

theorem SameAgent.clearMessages (ha : p.SameAgent a₁ a₂) :
    p.SameAgent a₁.clearMessages a₂.clearMessages :=
  ⟨ha.model, ha.ids, ha.valid, by unfold Agent.clearMessages; rw [ha.history], ha.tools⟩

theorem SameAgent.equip (ha : p.SameAgent a₁ a₂) {r₁ r₂ : Tool.Registry}
    (hr : p.SameTools r₁ r₂) :
    p.SameAgent { a₁ with tools := r₁ } { a₂ with tools := r₂ } :=
  ⟨ha.model, ha.ids, ha.valid, ha.history, hr⟩

theorem SameWorld.deleting (ha : p.SameAgent a₁ a₂) (hw : p.SameWorld w₁ w₂) :
    p.SameWorld (w₁.noting (.delete a₁.component.id)) (w₂.noting (.delete a₂.component.id)) := by
  rw [ha.ids.1, ha.ids.2]
  exact hw.noting .deleted

theorem SameAgent.delete (hh : p.host.Indifferent p.leftId p.rightId) (ha : p.SameAgent a₁ a₂)
    (hw : p.SameWorld w₁ w₂) :
    (a₂.delete w₂).1.mapError Error.anonymous = (a₁.delete w₁).1.mapError Error.anonymous ∧
      p.SameAgent (a₁.delete w₁).2.1 (a₂.delete w₂).2.1 ∧
      p.SameWorld (a₁.delete w₁).2.2 (a₂.delete w₂).2.2 := by
  have hn := hw.deleting ha
  have hanswer : ((w₂.host.delete w₂.serial a₂.component.id).mapError Error.host).mapError
      Error.anonymous = ((w₁.host.delete w₁.serial a₁.component.id).mapError Error.host).mapError
      Error.anonymous := by
    rw [hw.hosts.1, hw.hosts.2, hw.serial, ha.ids.1, ha.ids.2]
    rcases Host.answers_alike (hh.delete w₁.serial) with ⟨e₁, e₂, h₁, h₂, he⟩ | ⟨u, h₁, h₂⟩
    · rw [h₁, h₂]
      exact congrArg (fun e => Except.error (Error.host e)) he
    · rw [h₁, h₂]
  unfold Agent.delete
  rw [ha.valid]
  cases hv : a₁.isValid with
  | false => exact ⟨rfl, ha, hw⟩
  | true =>
    have hv₂ : a₂.component.valid = true := ha.valid.trans hv
    have hv₁ : a₁.component.valid = true := hv
    unfold Component.delete
    simp only [hv₁, hv₂, if_true]
    refine ⟨hanswer, ?_, hn⟩
    exact ⟨ha.model, ha.ids, rfl, ha.clearMessages.history, ha.tools⟩

theorem SameAgent.drop (ha : p.SameAgent a₁ a₂) (hw : p.SameWorld w₁ w₂) :
    p.SameWorld (a₁.drop w₁) (a₂.drop w₂) := by
  have hv : a₂.component.valid = a₁.component.valid := ha.valid
  unfold Agent.drop Component.drop
  rw [hv]
  split
  · exact hw.deleting ha
  · exact hw

theorem SameAgent.addRemotes (ha : p.SameAgent a₁ a₂) (server : Mcp.Server)
    (ts : List Mcp.RemoteTool) :
    ∃ r b₁ b₂, a₁.addRemotes server ts = (r, b₁) ∧ a₂.addRemotes server ts = (r, b₂) ∧
      p.SameAgent b₁ b₂ := by
  induction ts generalizing a₁ a₂ with
  | nil => exact ⟨_, _, _, rfl, rfl, ha⟩
  | cons t ts ih =>
    unfold Agent.addRemotes addRemote
    cases t.tool server with
    | error e => exact ⟨_, _, _, rfl, rfl, ha⟩
    | ok t => exact ih (ha.equip (ha.tools.register (.same t)).2)

theorem SameWorld.listTools (hw : p.SameWorld w₁ w₂) (server : Mcp.Server) :
    ∃ r v₁ v₂, w₁.listTools server = (r, v₁) ∧ w₂.listTools server = (r, v₂) ∧
      p.SameWorld v₁ v₂ := by
  unfold World.listTools World.notingSession
  rw [hw.connector, hw.serial, hw.sessions]
  exact ⟨_, _, _, rfl, rfl, hw.hosts, rfl, hw.rounds, rfl, hw.log, rfl⟩

theorem SameAgent.addServer (ha : p.SameAgent a₁ a₂) (hw : p.SameWorld w₁ w₂)
    (server : Mcp.Server) (filter : Option (List String)) :
    ∃ r b₁ b₂ v₁ v₂, a₁.addServer w₁ server filter = (r, b₁, v₁) ∧
      a₂.addServer w₂ server filter = (r, b₂, v₂) ∧ p.SameAgent b₁ b₂ ∧ p.SameWorld v₁ v₂ := by
  obtain ⟨r, v₁, v₂, h₁, h₂, hv⟩ := hw.listTools server
  unfold Agent.addServer
  rw [h₁, h₂]
  cases r with
  | error e => exact ⟨_, _, _, _, _, rfl, rfl, ha, hv⟩
  | ok listed =>
    obtain ⟨r, b₁, b₂, h₁, h₂, hb⟩ := ha.addRemotes server (listed.filter (passes filter))
    dsimp only
    rw [h₁, h₂]
    cases r with
    | error e => exact ⟨_, _, _, _, _, rfl, rfl, hb, hv⟩
    | ok u => exact ⟨_, _, _, _, _, rfl, rfl, hb, hv⟩

/-- A use of twins gives the same, and leaves twins. -/
theorem SameAgent.run (hh : p.host.Indifferent p.leftId p.rightId) (ha : p.SameAgent a₁ a₂)
    (hw : p.SameWorld w₁ w₂) (u : Use) :
    (u.run a₂ w₂).1.anonymous = (u.run a₁ w₁).1.anonymous ∧
      p.SameAgent (u.run a₁ w₁).2.1 (u.run a₂ w₂).2.1 ∧
      p.SameWorld (u.run a₁ w₁).2.2 (u.run a₂ w₂).2.2 := by
  cases u with
  | turn message o taken =>
    have ht : p.SameTurn (.new a₁ w₁ o message) (.new a₂ w₂ o message) := ⟨ha, hw, rfl, rfl, rfl⟩
    obtain ⟨hes, ht⟩ := ht.takeEvents hh taken
    exact ⟨congrArg Reply.items hes, ht.agent, ht.world⟩
  | clear => exact ⟨rfl, ha.clearMessages, hw⟩
  | delete =>
    obtain ⟨hr, hb, hv⟩ := ha.delete hh hw
    exact ⟨congrArg Reply.deleted hr, hb, hv⟩
  | equip tools => exact ⟨rfl, ha.equip (sameTools_refl tools), hw⟩
  | enlist server filter =>
    obtain ⟨r, b₁, b₂, v₁, v₂, h₁, h₂, hb, hv⟩ := ha.addServer hw server filter
    dsimp only [Use.run]
    rw [h₁, h₂]
    exact ⟨rfl, hb, hv⟩

theorem SameAgent.serve (hh : p.host.Indifferent p.leftId p.rightId) (us : List Use)
    (ha : p.SameAgent a₁ a₂) (hw : p.SameWorld w₁ w₂) :
    (serve us a₂ w₂).1.map Reply.anonymous = (serve us a₁ w₁).1.map Reply.anonymous ∧
      p.SameAgent (serve us a₁ w₁).2.1 (serve us a₂ w₂).2.1 ∧
      p.SameWorld (serve us a₁ w₁).2.2 (serve us a₂ w₂).2.2 := by
  induction us generalizing a₁ a₂ w₁ w₂ with
  | nil => exact ⟨rfl, ha, hw⟩
  | cons u us ih =>
    obtain ⟨hr, hb, hv⟩ := ha.run hh hw u
    obtain ⟨hrs, hs⟩ := ih hb hv
    exact ⟨congrArg₂ List.cons hr hrs, hs⟩

end Uses

/-! ## Tools of presets -/

section Presets

variable {a₁ a₂ : Agent} {preset : String} {ds : List Definition}

theorem twins_build (hg : p.left.redacted = p.right.redacted) (hp : preset ∈ p.left.presets)
    (hl : Preset.load p.files p.left.presetDir preset = .ok ds) {d : Definition} (hd : d ∈ ds) :
    (∃ e, d.build (p.left.authenticator preset) = .error e ∧
        d.build (p.right.authenticator preset) = .error e) ∨
      ∃ t₁ t₂, d.build (p.left.authenticator preset) = .ok t₁ ∧
        d.build (p.right.authenticator preset) = .ok t₂ ∧ p.Twins t₁ t₂ := by
  have hsame {r : Except Definition.Error Tool} : (∃ e, r = .error e ∧ r = .error e) ∨
      ∃ t₁ t₂, r = .ok t₁ ∧ r = .ok t₂ ∧ p.Twins t₁ t₂ := by
    cases r with
    | error e => exact .inl ⟨e, rfl, rfl⟩
    | ok t => exact .inr ⟨t, t, rfl, rfl, .same t⟩
  -- with equal tokens the tools are equal; otherwise a request may show the token
  by_cases ht : (p.left.auth.get? preset).map Config.Credentials.token =
      (p.right.auth.get? preset).map Config.Credentials.token
  · rw [Config.authenticator_eq hg ht]
    exact hsame
  · unfold Definition.build
    cases d.validate with
    | error e => exact .inl ⟨e, rfl, rfl⟩
    | ok u =>
      cases d with
      | universal desc b => exact hsame
      | restApi desc b =>
        have hm : p.Marked preset desc b :=
          ⟨hp, ⟨ds, hl, hd⟩, ht, fun args => Config.request_resembles hg preset b args⟩
        simp only [Definition.restTool, Definition.restApi?]
        cases Definition.compilePath b.outputPath with
        | error e => exact .inl ⟨e, rfl, rfl⟩
        | ok path => exact .inr ⟨_, _, rfl, rfl, .marked hm⟩

theorem twins_buildAll (hg : p.left.redacted = p.right.redacted) (hp : preset ∈ p.left.presets)
    (hl : Preset.load p.files p.left.presetDir preset = .ok ds) (es : List Definition)
    (hes : ∀ d ∈ es, d ∈ ds) :
    (∃ e, buildAll (p.left.authenticator preset) es = .error e ∧
        buildAll (p.right.authenticator preset) es = .error e) ∨
      ∃ ts₁ ts₂, buildAll (p.left.authenticator preset) es = .ok ts₁ ∧
        buildAll (p.right.authenticator preset) es = .ok ts₂ ∧ List.Forall₂ p.Twins ts₁ ts₂ := by
  induction es with
  | nil => exact .inr ⟨[], [], rfl, rfl, .nil⟩
  | cons d es ih =>
    unfold buildAll
    rcases twins_build hg hp hl (hes d List.mem_cons_self) with
      ⟨e, h₁, h₂⟩ | ⟨t₁, t₂, h₁, h₂, ht⟩
    · rw [h₁, h₂]
      exact .inl ⟨e, rfl, rfl⟩
    · rw [h₁, h₂]
      rcases ih fun d hd => hes d (List.mem_cons_of_mem _ hd) with
        ⟨e, h₁, h₂⟩ | ⟨ts₁, ts₂, h₁, h₂, hts⟩
      · rw [h₁, h₂]
        exact .inl ⟨e, rfl, rfl⟩
      · rw [h₁, h₂]
        exact .inr ⟨_, _, rfl, rfl, .cons ht hts⟩

theorem SameAgent.addPreset (hg : p.left.redacted = p.right.redacted)
    (hp : preset ∈ p.left.presets) (ha : p.SameAgent a₁ a₂) :
    ∃ r b₁ b₂,
      a₁.addPreset p.files p.left.presetDir preset (p.left.authenticator preset) = (r, b₁) ∧
      a₂.addPreset p.files p.right.presetDir preset (p.right.authenticator preset) = (r, b₂) ∧
      p.SameAgent b₁ b₂ := by
  have hdir : p.right.presetDir = p.left.presetDir :=
    (congrArg Config.presetDir hg).symm
  unfold Agent.addPreset
  rw [hdir]
  cases hl : Preset.load p.files p.left.presetDir preset with
  | error e => exact ⟨_, _, _, rfl, rfl, ha⟩
  | ok ds =>
    simp only [Except.bind]
    rcases twins_buildAll hg hp hl ds fun _ hd => hd with ⟨e, h₁, h₂⟩ | ⟨ts₁, ts₂, h₁, h₂, hts⟩
    · rw [h₁, h₂]
      exact ⟨_, _, _, rfl, rfl, ha⟩
    · rw [h₁, h₂]
      obtain ⟨hn, hr⟩ := ha.tools.registerAll hts
      exact ⟨_, _, _, rfl, by rw [← hn], ha.equip hr⟩

theorem SameAgent.addPresets (hg : p.left.redacted = p.right.redacted) (ps : List String)
    (hps : ∀ q ∈ ps, q ∈ p.left.presets) (ha : p.SameAgent a₁ a₂) :
    ∃ r b₁ b₂, Agent.addPresets p.left p.files ps a₁ = (r, b₁) ∧
      Agent.addPresets p.right p.files ps a₂ = (r, b₂) ∧ p.SameAgent b₁ b₂ := by
  induction ps generalizing a₁ a₂ with
  | nil => exact ⟨_, _, _, rfl, rfl, ha⟩
  | cons q ps ih =>
    obtain ⟨r, b₁, b₂, h₁, h₂, hb⟩ := ha.addPreset hg (hps q List.mem_cons_self)
    unfold Agent.addPresets
    rw [h₁, h₂]
    cases r with
    | error e => exact ⟨_, _, _, rfl, rfl, hb⟩
    | ok n => exact ih (fun q hq => hps q (List.mem_cons_of_mem _ hq)) hb

theorem SameAgent.addServers (es : List Config.Entry) (ha : p.SameAgent a₁ a₂) {w₁ w₂ : World}
    (hw : p.SameWorld w₁ w₂) :
    ∃ r b₁ b₂ v₁ v₂, Agent.addServers es a₁ w₁ = (r, b₁, v₁) ∧
      Agent.addServers es a₂ w₂ = (r, b₂, v₂) ∧ p.SameAgent b₁ b₂ ∧ p.SameWorld v₁ v₂ := by
  induction es generalizing a₁ a₂ w₁ w₂ with
  | nil => exact ⟨_, _, _, _, _, rfl, rfl, ha, hw⟩
  | cons e es ih =>
    obtain ⟨r, b₁, b₂, v₁, v₂, h₁, h₂, hb, hv⟩ := ha.addServer hw e.server e.tools
    unfold Agent.addServers
    rw [h₁, h₂]
    cases r with
    | error e => exact ⟨_, _, _, _, _, rfl, rfl, hb, hv⟩
    | ok listed => exact ih hb hv

end Presets

/-! ## The making of agents -/

/-- Two configurations in one world, where a component may get another name. -/
def of (w : World) (freshId : Nat → String) (files : Files) (left right : Config) : Pair where
  files := files
  host := w.host
  left := left
  right := right
  leftId := w.freshId w.defined
  rightId := freshId w.defined

section Making

variable {w : World} {freshId : Nat → String} {g₁ g₂ : Config}

/-- The key of a model that needs none is not passed on, and no other secret is. -/
theorem resolve_of_redacted (hg : g₁.redacted = g₂.redacted) :
    (∃ e, g₁.options.resolve = .error e ∧ g₂.options.resolve = .error e) ∨
      ∃ m attrs₁ attrs₂, g₁.options.resolve = .ok (m, attrs₁) ∧
        g₂.options.resolve = .ok (m, attrs₂) ∧
        Json.AgreeExcept Model.Attribute.apiKey.name attrs₁ attrs₂ ∧
        (attrs₁ = attrs₂ ∨ (Model.find g₁.model = .ok m ∧ .apiKey ∈ m.required)) := by
  have hmodel : g₂.model = g₁.model := (congrArg Config.model hg).symm
  have hdevice : g₂.device = g₁.device := (congrArg Config.device hg).symm
  unfold Options.resolve Config.options Config.wantsKey
  rw [hmodel, hdevice]
  dsimp only
  cases hm : Model.find g₁.model with
  | error e => exact .inl ⟨e, rfl, rfl⟩
  | ok m =>
    dsimp only
    -- a key that is not required is not passed on, so nothing differs then
    by_cases hk : m.required.contains .apiKey = true
    · simp only [hk, if_true]
      rcases m.componentAttrs_agree ⟨g₁.device, none, none, g₁.apiKey⟩
        ⟨g₁.device, none, none, g₂.apiKey⟩ rfl rfl rfl (Config.apiKey_of_redacted hg) with
        ⟨e, h₁, h₂⟩ | ⟨v₁, v₂, h₁, h₂, hv⟩
      · rw [h₁, h₂]
        exact .inl ⟨e, rfl, rfl⟩
      · rw [h₁, h₂]
        exact .inr ⟨m, v₁, v₂, rfl, rfl, hv, .inr ⟨rfl, List.contains_iff_mem.1 hk⟩⟩
    · simp only [hk, Bool.false_eq_true, if_false]
      cases m.componentAttrs ⟨g₁.device, none, none, none⟩ with
      | error e => exact .inl ⟨e, rfl, rfl⟩
      | ok v => exact .inr ⟨m, v, v, rfl, rfl, .refl v, .inl rfl⟩

/-- An agent is made on both sides or on neither. -/
theorem sameAgent_define (files : Files) (hg : g₁.redacted = g₂.redacted)
    (hh : w.host.Indifferent (w.freshId w.defined) (freshId w.defined)) :
    ∃ v₁ v₂, (Pair.of w freshId files g₁ g₂).SameWorld v₁ v₂ ∧
      ((∃ e₁ e₂, define w g₁.options = (.error e₁, v₁) ∧
          define { w with freshId } g₂.options = (.error e₂, v₂) ∧ e₂.anonymous = e₁.anonymous) ∨
        ∃ a₁ a₂, define w g₁.options = (.ok a₁, v₁) ∧
          define { w with freshId } g₂.options = (.ok a₂, v₂) ∧
          (Pair.of w freshId files g₁ g₂).SameAgent a₁ a₂) := by
  have hw : (Pair.of w freshId files g₁ g₂).SameWorld w { w with freshId } :=
    ⟨⟨rfl, rfl⟩, rfl, rfl, rfl, seen_refl w.log, rfl⟩
  unfold Agent.define
  rcases resolve_of_redacted hg with ⟨e, h₁, h₂⟩ | ⟨m, attrs₁, attrs₂, h₁, h₂, hagree, hattrs⟩
  · rw [h₁, h₂]
    exact ⟨_, _, hw, .inl ⟨_, _, rfl, rfl, rfl⟩⟩
  -- the attributes are equal, or they hold the key of a model that requires one
  · have hseen : (Pair.of w freshId files g₁ g₂).Seen
        (.define m.componentType (w.freshId w.defined) attrs₁)
        (.define m.componentType (freshId w.defined) attrs₂) := by
      rcases hattrs with rfl | ⟨hm, hk⟩
      · exact .defined m.componentType attrs₁
      · exact .keyed hm hk hagree
    have hn := hw.noting hseen
    have hd := hh.define w.serial m.componentType attrs₁ attrs₂ hagree
    rw [h₁, h₂]
    unfold Component.define World.define
    dsimp only
    refine ⟨{ w.noting (.define m.componentType (w.freshId w.defined) attrs₁) with
        defined := w.defined + 1 },
      { (({ w with freshId } : World).noting
          (.define m.componentType (freshId w.defined) attrs₂)) with defined := w.defined + 1 },
      ⟨hn.hosts, hn.connector, hn.rounds, hn.serial, hn.log, hn.sessions⟩, ?_⟩
    rcases Host.answers_alike hd with ⟨e₁, e₂, hd₁, hd₂, he⟩ | ⟨u, hd₁, hd₂⟩
    · rw [hd₁, hd₂]
      refine .inl ⟨.host e₁, .host e₂, rfl, rfl, ?_⟩
      rw [Error.anonymous_host, Error.anonymous_host, he]
    · rw [hd₁, hd₂]
      refine .inr ⟨_, _, rfl, rfl, rfl, ⟨rfl, rfl⟩, rfl, ?_, sameTools_refl _⟩
      show Chat.History.new _ = Chat.History.new _
      rw [show g₂.options.systemMessage = g₁.options.systemMessage from
        (congrArg Config.systemMessage hg).symm]

theorem SameAgent.addConfigured {p : Pair} {a₁ a₂ : Agent} {w₁ w₂ : World}
    (hg : p.left.redacted = p.right.redacted) (ha : p.SameAgent a₁ a₂) (hw : p.SameWorld w₁ w₂) :
    ∃ b₁ b₂ v₁ v₂, p.SameAgent b₁ b₂ ∧ p.SameWorld v₁ v₂ ∧
      ((∃ e, a₁.addConfigured w₁ p.files p.left = (.error e, b₁, v₁) ∧
          a₂.addConfigured w₂ p.files p.right = (.error e, b₂, v₂)) ∨
        ∃ n₁ n₂, a₁.addConfigured w₁ p.files p.left = (.ok n₁, b₁, v₁) ∧
          a₂.addConfigured w₂ p.files p.right = (.ok n₂, b₂, v₂)) := by
  have hpresets : p.right.presets = p.left.presets :=
    (congrArg Config.presets hg).symm
  have hservers : p.right.servers = p.left.servers :=
    (congrArg Config.servers hg).symm
  obtain ⟨r, b₁, b₂, h₁, h₂, hb⟩ := ha.addPresets hg p.left.presets fun _ hq => hq
  unfold Agent.addConfigured
  dsimp only
  rw [hpresets, hservers, h₁, h₂]
  cases r with
  | error e => exact ⟨b₁, b₂, w₁, w₂, hb, hw, .inl ⟨e, rfl, rfl⟩⟩
  | ok u =>
    obtain ⟨r, c₁, c₂, v₁, v₂, h₁, h₂, hc, hv⟩ := hb.addServers p.left.servers hw
    dsimp only
    rw [h₁, h₂]
    cases r with
    | error e => exact ⟨c₁, c₂, v₁, v₂, hc, hv, .inl ⟨e, rfl, rfl⟩⟩
    | ok u => exact ⟨c₁, c₂, v₁, v₂, hc, hv, .inr ⟨_, _, rfl, rfl⟩⟩

end Making

/-! ## Confinement -/

/-- Two agents that do the same, whatever is done with them, and show no secret but where it
belongs. -/
structure Confined (p : Pair) (a₁ a₂ : Agent) (w₁ w₂ : World) : Prop where
  /-- The user is shown the same. -/
  replies : ∀ us, (serve us a₂ w₂).1.map Reply.anonymous = (serve us a₁ w₁).1.map Reply.anonymous
  /-- The agents remember the same and have the same tools, but for credentials. -/
  agents : ∀ us, p.SameAgent (serve us a₁ w₁).2.1 (serve us a₂ w₂).2.1
  /-- The host and the tool servers are asked the same, but for what `Seen` lets differ, -/
  worlds : ∀ us, p.SameWorld (serve us a₁ w₁).2.2 (serve us a₂ w₂).2.2
  /-- and so they are when the agents are given up. -/
  dropped : ∀ us, p.SameWorld ((serve us a₁ w₁).2.1.drop (serve us a₁ w₁).2.2)
    ((serve us a₂ w₂).2.1.drop (serve us a₂ w₂).2.2)
  /-- A call is the very same, unless its tool makes requests and is of a preset whose tokens
  differ; and then, too, it ends the same. -/
  calls : ∀ us i c,
    let i₁ := (serve us a₁ w₁).2.1.perform (serve us a₁ w₁).2.2 i c
    let i₂ := (serve us a₂ w₂).2.1.perform (serve us a₂ w₂).2.2 i c
    p.SameInvocation i₁ i₂ ∧ (i₂ = i₁ ∨ ∃ preset d b path, p.Marked preset d b ∧
      (serve us a₁ w₁).2.1.tools.find c.name = .ok (.rest d b path (p.left.authenticator preset)) ∧
      (serve us a₂ w₂).2.1.tools.find c.name = .ok (.rest d b path (p.right.authenticator preset)))

/-- What comes of making agents: two that do the same, or the same failure. -/
inductive Confines (p : Pair) : Except Error Agent × World → Except Error Agent × World → Prop
  | failed {e₁ e₂ : Error} {w₁ w₂ : World} :
    e₂.anonymous = e₁.anonymous → p.SameWorld w₁ w₂ → Confines p (.error e₁, w₁) (.error e₂, w₂)
  | made {a₁ a₂ : Agent} {w₁ w₂ : World} :
    p.Confined a₁ a₂ w₁ w₂ → Confines p (.ok a₁, w₁) (.ok a₂, w₂)

theorem SameAgent.confined {p : Pair} {a₁ a₂ : Agent} {w₁ w₂ : World}
    (hh : p.host.Indifferent p.leftId p.rightId) (ha : p.SameAgent a₁ a₂)
    (hw : p.SameWorld w₁ w₂) : p.Confined a₁ a₂ w₁ w₂ := by
  have hs (us : List Use) := ha.serve hh us hw
  constructor
  case replies => exact fun us => (hs us).1
  case agents => exact fun us => (hs us).2.1
  case worlds => exact fun us => (hs us).2.2
  case dropped => exact fun us => (hs us).2.1.drop (hs us).2.2
  case calls =>
    intro us i c
    exact ⟨sameInvocation_perform hh (hs us).2.1 (hs us).2.2 i c,
      perform_eq_or_marked (hs us).2.1 (hs us).2.2 i c⟩

end Pair

/-- Two configurations that differ in secrets only make agents that do the same, whatever is done
with them, but for credentials that go where they belong. -/
theorem credentials_confined (w : World) (freshId : Nat → String) (files : Files)
    (g₁ g₂ : Config) (hg : g₁.redacted = g₂.redacted)
    (hh : w.host.Indifferent (w.freshId w.defined) (freshId w.defined)) :
    (Pair.of w freshId files g₁ g₂).Confines (ofConfig w files g₁)
      (ofConfig { w with freshId } files g₂) := by
  obtain ⟨w₁, w₂, hw, hd⟩ := Pair.sameAgent_define files hg hh
  unfold ofConfig
  rcases hd with ⟨e₁, e₂, h₁, h₂, he⟩ | ⟨a₁, a₂, h₁, h₂, ha⟩
  · rw [h₁, h₂]
    exact .failed he hw
  · rw [h₁, h₂]
    dsimp only
    obtain ⟨b₁, b₂, v₁, v₂, hb, hv, ⟨e, hc₁, hc₂⟩ | ⟨n₁, n₂, hc₁, hc₂⟩⟩ :=
      ha.addConfigured (p := Pair.of w freshId files g₁ g₂) hg hw
    · -- agents that could not be given their tools are deleted and given up
      have hc₁' : a₁.addConfigured w₁ files g₁ = (.error e, b₁, v₁) := hc₁
      have hc₂' : a₂.addConfigured w₂ files g₂ = (.error e, b₂, v₂) := hc₂
      obtain ⟨-, hb', hv'⟩ := hb.delete hh hv
      rw [hc₁', hc₂']
      exact .failed rfl (hb'.drop hv')
    · have hc₁' : a₁.addConfigured w₁ files g₁ = (.ok n₁, b₁, v₁) := hc₁
      have hc₂' : a₂.addConfigured w₂ files g₂ = (.ok n₂, b₂, v₂) := hc₂
      rw [hc₁', hc₂']
      exact .made (hb.confined hh hv)

/-- A world with a model that looks a film up, and with a host that knows it. -/
def filmWorld : World :=
  let w := World.scripted
    [.ok [.ok (Delta.mk (some .toolCalls)
        (.toolCalls [.new "1" "find" [("title", .str "Ran")]])).toJson],
      .ok [.ok (Delta.mk (some .stop) (.assistant "It is of 1985." none)).toJson]]
  { w with host := { w.host with call := fun _ _ _ => .ok (.obj [("body", .str "1985")]) } }

/-- The preset with the tool for that. -/
def filmFiles : Files where
  entries := [(["presets", "films.json"],
    (Json.obj [("find", .obj [("type", .str "restapi"),
      ("description", .obj [("name", .str "find")]),
      ("behavior", .obj [("baseURL", .str "https://h"), ("method", .str "GET")])])]).text)]
  directories := []

def filmConfig (token key : String) : Config :=
  { Config.default (fun _ => none) with
    model := "gpt-4o"
    apiKey := some key
    presetDir := "/presets"
    presets := ["films"]
    auth := [("films", ⟨token, "Bearer"⟩)] }

/-- What the host is asked in a turn about the film. -/
def filmLog (token key : String) : List Host.Request :=
  match ofConfig filmWorld filmFiles (filmConfig token key) with
  | (.ok a, w) => (serve [.turn "Of when is Ran?" ⟨false, false⟩ 9] a w).2.2.log
  | (.error _, w) => w.log

theorem film_secrets_confined :
    (filmConfig "one" "k1").redacted = (filmConfig "two" "k2").redacted ∧
    filmWorld.host.Indifferent "component" "other" ∧
    (Pair.of filmWorld (fun _ => "other") filmFiles (filmConfig "one" "k1")
        (filmConfig "two" "k2")).Confines
      (ofConfig filmWorld filmFiles (filmConfig "one" "k1"))
      (ofConfig { filmWorld with freshId := fun _ => "other" } filmFiles (filmConfig "two" "k2")) ∧
    (filmLog "one" "k1").length = 4 ∧
    (filmLog "one" "k1")[2]? = some (.call "http_request" (Http.Request.toJson
      ⟨"https://h?title=Ran", "GET", [("Authorization", "Bearer one")], none⟩)) := by
  have hg : (filmConfig "one" "k1").redacted = (filmConfig "two" "k2").redacted := by
    decide +kernel
  have hh : filmWorld.host.Indifferent "component" "other" :=
    ⟨fun _ _ _ _ _ => rfl, fun _ => rfl, fun _ _ _ _ => rfl⟩
  exact ⟨hg, hh, credentials_confined filmWorld (fun _ => "other") filmFiles _ _ hg hh,
    by decide +kernel, by decide +kernel⟩

end Agent

end Parley
