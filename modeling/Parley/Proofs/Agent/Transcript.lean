/-
The transcript of an agent: all that is done with it, and each request for inference that is made
meanwhile, with the turn as it stands then. The host gets the requests of the transcript and no
others, each of them carries the whole conversation and every tool, and as long as nothing is
forgotten the conversation of one is where the conversation of the next starts.

The order of the entries carries the proof: `Precedes` compares an entry with the next, a transcript
is a chain of it (`transcript_chain`), and what lies between two requests is a part of the chain.
-/
import Parley.Proofs.Agent.Moments
import Parley.Proofs.Tool.Registry
import Mathlib.Data.List.Chain

namespace Parley

open Chat

/-- The name of the tool that an entry of a request is about. -/
def Tool.specName? (spec : Json) : Option String :=
  (spec.get? "function").bind fun f => (f.get? "name").bind Json.str?

namespace Agent

open Turn

/-! ## Acts -/

/-- What is done with an agent, its tools and its component included. -/
inductive Act where
  /-- A turn, consumed to its end. -/
  | turn (message : String) (o : RunOptions)
  | clear
  | delete
  | addTool (t : Tool)
  | clearTools

namespace Act

/-- The agent and the world after an act. -/
def run (s : Agent × World) : Act → Agent × World
  | .turn message o => (Deed.turn message o).run s
  | .clear => Deed.clear.run s
  | .delete => (s.1.delete s.2).2
  | .addTool t => ((s.1.addTool t).2, s.2)
  | .clearTools => (s.1.clearTools, s.2)

/-- The tools that were added since the tools were cleared last. -/
def added (ts : List Tool) : Act → List Tool
  | .addTool t => ts ++ [t]
  | .clearTools => []
  | .turn _ _ | .clear | .delete => ts

/-- Whether an act has the agent forget the conversation. -/
def forgets : Act → Bool
  | .clear | .delete => true
  | .turn _ _ | .addTool _ | .clearTools => false

/-- The moments of an act: those of the turn, if it is one. -/
def moments (s : Agent × World) : Act → List Turn
  | .turn message o =>
    let t := Turn.new s.1 s.2 o message
    t.moments t.bound
  | .clear | .delete | .addTool _ | .clearTools => []

end Act

/-- The agent and the world after some acts. -/
def lead (acts : List Act) (s : Agent × World) : Agent × World :=
  acts.foldl (fun s act => act.run s) s

/-! ## Transcripts -/

/-- An entry of a transcript. -/
inductive Entry where
  /-- Something is done with the agent that is given. -/
  | did (act : Act) (a : Agent)
  /-- A turn asks the model, after some tools were added. -/
  | asked (ts : List Tool) (t : Turn)

namespace Entry

/-- The conversation at an entry. -/
def messages : Entry → List Message
  | .did _ a => a.history.messages
  | .asked _ t => t.agent.history.messages

/-- The request that is made at an entry. -/
def request? : Entry → Option Host.Request
  | .did _ _ => none
  | .asked _ t => some t.request

/-- Whether the agent forgets the conversation at an entry. -/
def forgets : Entry → Bool
  | .did act _ => act.forgets
  | .asked _ _ => false

end Entry

/-- The entries of one act. -/
def entries (ts : List Tool) (act : Act) (s : Agent × World) : List Entry :=
  .did act s.1 :: (act.moments s).map (.asked ts)

/-- The transcript of some acts, with an agent that got the given tools. -/
def transcript : List Tool → List Act → Agent × World → List Entry
  | _, [], _ => []
  | ts, act :: acts, s => entries ts act s ++ transcript (act.added ts) acts (act.run s)

/-! ## One act -/

section OneAct

variable {s : Agent × World} {ts : List Tool} {act : Act}

theorem delete_tools (a : Agent) (w : World) : (a.delete w).2.1.tools = a.tools := by
  unfold delete
  split <;> rfl

theorem delete_inferences (a : Agent) (w : World) :
    (a.delete w).2.2.inferences = w.inferences := by
  unfold delete Component.delete isValid
  cases a.component.valid with
  | false => rfl
  | true =>
    show (w.log ++ [Host.Request.delete a.component.id]).filter Host.Request.isInference = _
    rw [List.filter_append]
    exact List.append_nil _

/-- An act makes the requests of its moments. -/
theorem run_requests (s : Agent × World) (act : Act) :
    (act.run s).2.inferences = s.2.inferences ++ (act.moments s).map Turn.request := by
  cases act with
  | turn message o =>
    exact drain_inferences (Turn.new s.1 s.2 o message).bound (Turn.new s.1 s.2 o message)
  | delete => exact (delete_inferences _ _).trans (List.append_nil _).symm
  | clear | addTool | clearTools => exact (List.append_nil _).symm

/-- A turn only adds to the conversation, before each of its moments and after. -/
theorem moments_said {m : Turn} (hm : m ∈ act.moments s) :
    ∃ ms ns, m.agent = s.1.saying ms ∧ (act.run s).1 = m.agent.saying ns := by
  cases act with
  | turn message o => exact moments_agent _ (Turn.new s.1 s.2 o message) m hm
  | clear | delete | addTool | clearTools => cases hm

theorem moments_adds (s : Agent × World) (act : Act) : List.IsChain Adds (act.moments s) := by
  cases act with
  | turn message o => exact moments_chain _ (t := Turn.new s.1 s.2 o message) rfl
  | clear | delete | addTool | clearTools => exact .nil

theorem saying_grows {a b : Agent} {ms : List Message} (h : b = a.saying ms) :
    a.history.messages <+: b.history.messages :=
  ⟨ms, by rw [h, saying_messages]⟩

theorem run_messages (s : Agent × World) (hf : act.forgets = false) :
    s.1.history.messages <+: (act.run s).1.history.messages := by
  cases act with
  | turn message o =>
    obtain ⟨ms, hm⟩ := exhaust_agent (Turn.new s.1 s.2 o message)
    exact saying_grows hm
  | addTool | clearTools => exact List.prefix_rfl
  | clear | delete => cases hf

/-- An agent has the tools that were added. -/
theorem run_tools (h : s.1.tools = .ofTools ts) (act : Act) :
    (act.run s).1.tools = .ofTools (act.added ts) := by
  cases act with
  | turn message o =>
    obtain ⟨ms, hm⟩ := exhaust_agent (Turn.new s.1 s.2 o message)
    exact (congrArg Agent.tools hm).trans h
  | clear => exact h
  | delete => exact (delete_tools _ _).trans h
  | addTool t =>
    rw [Act.added, ← Tool.Registry.register_ofTools, ← h]
    rfl
  | clearTools => rfl

theorem moments_tools (h : s.1.tools = .ofTools ts) {m : Turn} (hm : m ∈ act.moments s) :
    m.agent.tools = .ofTools ts := by
  obtain ⟨ms, -, hs, -⟩ := moments_said hm
  exact (congrArg Agent.tools hs).trans h

end OneAct

/-! ## The chain of entries -/

/-- What an entry has to be for the next. -/
structure Precedes (e e' : Entry) : Prop where
  grows : e.forgets = false → e.messages <+: e'.messages
  /-- Two requests next to each other are of one turn. -/
  round : ∀ ts t ts' t', e = .asked ts t → e' = .asked ts' t' → Adds t t'

section Chain

variable {s : Agent × World} {ts : List Tool} {act : Act}

theorem Turn.Adds.grows {t u : Turn} (h : Adds t u) :
    t.agent.history.messages <+: u.agent.history.messages := by
  obtain ⟨_, _, _, _, calls, results, -, -, -, hm⟩ := h
  exact ⟨.toolCalls calls :: results, hm.symm⟩

theorem entries_chain (ts : List Tool) (act : Act) (s : Agent × World) :
    List.IsChain Precedes (entries ts act s) := by
  refine List.isChain_cons.2
    ⟨fun e he => ?_, List.isChain_map_of_isChain _ (fun m n h => ?_) (moments_adds s act)⟩
  · -- the first moment of a turn has said more than the agent before the turn
    obtain ⟨m, hm, rfl⟩ := List.mem_map.1 (List.mem_of_mem_head? he)
    obtain ⟨ms, -, hs, -⟩ := moments_said hm
    exact ⟨fun _ => saying_grows hs, fun _ _ _ _ h => by cases h⟩
  · refine ⟨fun _ => h.grows, ?_⟩
    rintro _ _ _ _ ⟨⟩ ⟨⟩
    exact h

/-- Whatever stands last among the entries of an act, the next act starts from it. -/
theorem entries_precede (act' : Act) {e : Entry} (he : e ∈ entries ts act s) :
    Precedes e (.did act' (act.run s).1) := by
  refine ⟨fun hf => ?_, fun _ _ _ _ _ h => by cases h⟩
  rcases List.mem_cons.1 he with rfl | he
  · exact run_messages s hf
  · obtain ⟨m, hm, rfl⟩ := List.mem_map.1 he
    obtain ⟨-, ns, -, hs⟩ := moments_said hm
    exact saying_grows hs

theorem transcript_chain (ts : List Tool) (acts : List Act) (s : Agent × World) :
    List.IsChain Precedes (transcript ts acts s) := by
  induction acts generalizing ts s with
  | nil => exact .nil
  | cons act acts ih =>
    refine List.isChain_append.2 ⟨entries_chain ts act s, ih _ _, fun e he e' he' => ?_⟩
    cases acts with
    | nil => cases he'
    | cons act' acts =>
      cases he'
      exact entries_precede act' (List.mem_of_mem_getLast? he)

/-- As long as nothing is forgotten, the conversation only grows along a chain. -/
theorem growth_of_chain {e e' : Entry} {mid : List Entry} (he : e.forgets = false)
    (hmid : ∀ x ∈ mid, x.forgets = false) (h : List.IsChain Precedes (e :: mid ++ [e'])) :
    e.messages <+: e'.messages := by
  induction mid generalizing e with
  | nil => exact ((List.isChain_cons.1 h).1 e' rfl).grows he
  | cons x mid ih =>
    obtain ⟨hx, hmid⟩ := List.forall_mem_cons.1 hmid
    obtain ⟨hex, hc⟩ := List.isChain_cons_cons.1 h
    exact (hex.grows he).trans (ih hx hmid hc)

theorem lead_requests (ts : List Tool) (acts : List Act) (s : Agent × World) :
    (lead acts s).2.inferences =
      s.2.inferences ++ (transcript ts acts s).filterMap Entry.request? := by
  induction acts generalizing ts s with
  | nil => exact (List.append_nil _).symm
  | cons act acts ih =>
    have he : (entries ts act s).filterMap Entry.request? = (act.moments s).map Turn.request := by
      unfold entries
      rw [List.filterMap_cons_none rfl, List.filterMap_map, ← List.filterMap_eq_map]
      rfl
    rw [transcript, List.filterMap_append, he, ← List.append_assoc, ← run_requests]
    exact ih _ _

theorem transcript_tools {acts : List Act} (h : s.1.tools = .ofTools ts) {ts' : List Tool} {t : Turn}
    (ht : .asked ts' t ∈ transcript ts acts s) : t.agent.tools = .ofTools ts' := by
  induction acts generalizing ts s with
  | nil => cases ht
  | cons act acts ih =>
    rcases List.mem_append.1 ht with ht | ht
    · rcases List.mem_cons.1 ht with ht | ht
      · cases ht
      · obtain ⟨m, hm, hmt⟩ := List.mem_map.1 ht
        cases hmt
        exact moments_tools h hm
    · exact ih (run_tools h act) ht

end Chain

/-! ## What the requests carry -/

/-- The entries of a request for the tools that were added: those of one name count once. -/
def specs (ts : List Tool) : List Json :=
  (Tool.firsts ts).map fun t => t.description.functionSpec

theorem specs_names (ts : List Tool) :
    (specs ts).map Tool.specName? = ((Tool.firsts ts).map Tool.name).map some := by
  unfold specs
  rw [List.map_map, List.map_map]
  rfl

theorem items_of_growth {t u : Turn} (h : t.agent.history.messages <+: u.agent.history.messages) :
    ∃ xs more, t.request.items? "messages" = some xs ∧
      u.request.items? "messages" = some (xs ++ more) := by
  obtain ⟨ms, hm⟩ := h
  refine ⟨_, ms.map Message.toJson, request_messages t, ?_⟩
  rw [request_messages u, ← hm, List.map_append]

/-- The requests for inference that are made while an agent is led through some acts. -/
structure Conveys (ts : List Tool) (acts : List Act) (s : Agent × World) : Prop where
  /-- The host gets the requests of the transcript. -/
  sent : (lead acts s).2.inferences =
    s.2.inferences ++ (transcript ts acts s).filterMap Entry.request?
  /-- A request carries the whole conversation, -/
  whole : ∀ ts' t, .asked ts' t ∈ transcript ts acts s →
    t.request.conversation? = some t.agent.history.messages
  /-- and every tool once, in the order in which the tools were added. -/
  tools : ∀ ts' t, .asked ts' t ∈ transcript ts acts s →
    t.request.items? "tools" = some (specs ts') ∧ ((specs ts').map Tool.specName?).Nodup
  /-- The messages of a request start with those of an earlier one, if nothing is forgotten. -/
  grows : ∀ before mid after ts₁ t ts₂ u,
    transcript ts acts s = before ++ .asked ts₁ t :: mid ++ .asked ts₂ u :: after →
    (∀ e ∈ mid, e.forgets = false) →
    ∃ xs more, t.request.items? "messages" = some xs ∧
      u.request.items? "messages" = some (xs ++ more)
  /-- From one request of a turn to the next come the calls of the round and a result for each. -/
  round : ∀ before after ts₁ t ts₂ u,
    transcript ts acts s = before ++ .asked ts₁ t :: .asked ts₂ u :: after → Adds t u

/-- Whatever is done with an agent, its requests carry the whole conversation and all tools. -/
theorem transcript_conveys (ts : List Tool) (acts : List Act) (s : Agent × World)
    (h : s.1.tools = .ofTools ts) : Conveys ts acts s where
  sent := lead_requests ts acts s
  whole _ t _ := request_conversation t
  tools ts' t ht := by
    constructor
    · rw [request_tools, transcript_tools h ht]
      unfold Tool.Registry.descriptions specs
      rw [Tool.Registry.ofTools_tools, List.map_map]
      rfl
    · rw [specs_names]
      exact (Tool.firsts_nodup ts').map fun _ _ => Option.some.inj
  grows before mid after ts₁ t ts₂ u htr hmid := by
    have hc := transcript_chain ts acts s
    rw [htr] at hc
    have hi : .asked ts₁ t :: mid ++ [.asked ts₂ u] <:+:
        before ++ .asked ts₁ t :: mid ++ .asked ts₂ u :: after := ⟨before, after, by simp⟩
    have hm := List.IsChain.infix hc hi
    exact items_of_growth (growth_of_chain rfl hmid hm)
  round before after ts₁ t ts₂ u htr := by
    have hc := transcript_chain ts acts s
    rw [htr] at hc
    exact (List.isChain_append_cons_cons.1 hc).2.1.round _ _ _ _ rfl rfl

/-- An agent that runs a tool, gets another of the same name and goes on. -/
theorem two_turns_conveyed :
    ∃ a ts, a.tools = .ofTools ts ∧ ∃ w acts, Conveys ts acts (a, w) ∧
      ((transcript ts acts (a, w)).filterMap Entry.request?).length = 3 :=
  ⟨fresh (.qwen "small" "Qwen") [.constant "clock" (.str "noon")],
    [.constant "clock" (.str "noon")], rfl,
    .scripted [.ok [.ok (Delta.mk (some .toolCalls) (.toolCalls [.new "1" "clock" []])).toJson],
      .ok [.ok (Delta.mk (some .stop) (.assistant "Noon." none)).toJson]],
    [.turn "What time is it?" ⟨true, false⟩, .addTool (.constant "clock" .null),
      .turn "Thanks." ⟨true, false⟩],
    transcript_conveys _ _ _ rfl, by decide +kernel⟩

end Agent

end Parley
