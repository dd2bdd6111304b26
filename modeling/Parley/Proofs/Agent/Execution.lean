/-
What the calls of a batch do. A call is executed once, by the first tool that was registered under
its name and with the very arguments of the call, or not at all: when no tool has the name, or when
a function or a capability is not given a parameter that it needs (`Tool.Handles`).

What a call does depends on nothing but the tools, the call and the server that its place in the
batch gets to talk to (`Tool.Handles.unique`). The outcomes of the other calls do not come in, so
no call of a batch can keep another from being executed, have it executed twice or change it.
-/
import Parley.Proofs.Agent.Schedule
import Parley.Proofs.Tool.Registry

namespace Parley

namespace Tool

/-! ## Executions -/

/-- What is done when a tool is executed. -/
inductive Execution where
  | run (r : Run)
  | request (r : Host.Request)
  | session (asked : List Mcp.Asked)
  deriving DecidableEq

namespace Execution

/-- The request to the host. -/
def request? : Execution → Option Host.Request
  | .request r => some r
  | .run _ | .session _ => none

/-- The session with a tool server. -/
def session? : Execution → Option (List Mcp.Asked)
  | .session s => some s
  | .run _ | .request _ => none

end Execution

/-- All that was done for a call. -/
def Invocation.executions (i : Invocation) : List Execution :=
  i.runs.map .run ++ (i.requests.map .request ++ i.sessions.map .session)

theorem Invocation.executions_requests (i : Invocation) :
    i.executions.filterMap Execution.request? = i.requests := by
  simp [executions, List.filterMap_map, Function.comp_def, Execution.request?]

theorem Invocation.executions_sessions (i : Invocation) :
    i.executions.filterMap Execution.session? = i.sessions := by
  simp [executions, List.filterMap_map, Function.comp_def, Execution.session?]

/-! ## One tool -/

/-- The arguments of a call give every parameter that the tool needs. -/
def Supplied (d : Description) (args : Arguments) : Prop :=
  ∀ p ∈ d.parameters.required, p ∈ args.map Prod.fst

instance (d : Description) (args : Arguments) : Decidable (Supplied d args) :=
  inferInstanceAs (Decidable (∀ p ∈ d.parameters.required, _))

theorem missing?_eq_none_iff (d : Description) (args : Arguments) :
    missing? d args = none ↔ Supplied d args := by
  unfold missing? Supplied
  rw [List.find?_eq_none]
  simp

/-- What executing a tool does. Of a server it matters only whether it can be connected to and
takes up the session. -/
inductive Executes (connection : Mcp.Server → Except Mcp.Error Mcp.Session) (args : Arguments) :
    Tool → List Execution → Prop
  | function {d : Description} {run : Nat → Arguments → Completion} :
    Supplied d args → Executes connection args (.function d run) [.run ⟨d.name, args⟩]
  | functionLacks {d : Description} {run : Nat → Arguments → Completion} :
    ¬ Supplied d args → Executes connection args (.function d run) []
  | universal {d : Description} {path : Option OutputPath} :
    Supplied d args →
    Executes connection args (.universal d path) [.request (.call d.name (.obj args))]
  | universalLacks {d : Description} {path : Option OutputPath} :
    ¬ Supplied d args → Executes connection args (.universal d path) []
  | rest {d : Description} {b : Definition.Rest} {path : Option OutputPath}
    {auth : Option Http.Authenticator} :
    Executes connection args (.rest d b path auth)
      [.request (.call "http_request" (b.request auth args).toJson)]
  | refused {d : Description} {server : Mcp.Server} {e : Mcp.Error} :
    connection server = .error e →
    Executes connection args (.remote d server) [.session [.connect server, .refused]]
  | unready {d : Description} {server : Mcp.Server} {s : Mcp.Session} {e : Mcp.Error} :
    connection server = .ok s → s.handshake = .error e →
    Executes connection args (.remote d server) [.session [.connect server, .handshake, .close]]
  | session {d : Description} {server : Mcp.Server} {s : Mcp.Session} :
    connection server = .ok s → s.handshake = .ok () →
    Executes connection args (.remote d server)
      [.session [.connect server, .handshake, .call d.name args, .close]]

section OneTool

variable {connection : Mcp.Server → Except Mcp.Error Mcp.Session} {args : Arguments} {t : Tool}
  {es es' : List Execution}

theorem invoke_function {d : Description} (run : Nat → Arguments → Completion) (c : Context)
    (h : Supplied d args) : (function d run).invoke c args = callFunction d run c args := by
  simp only [invoke, (missing?_eq_none_iff d args).2 h]

theorem invoke_universal {d : Description} (path : Option OutputPath) (c : Context)
    (h : Supplied d args) : (universal d path).invoke c args = callHost d path c args := by
  simp only [invoke, (missing?_eq_none_iff d args).2 h]

theorem missing?_of_not_supplied {d : Description} (h : ¬ Supplied d args) :
    ∃ p, missing? d args = some p := by
  rw [← missing?_eq_none_iff] at h
  exact Option.ne_none_iff_exists'.1 h

/-- Calling a tool executes it. -/
theorem executes_invoke (t : Tool) (c : Context) (args : Arguments) :
    Executes (c.connector c.serial) args t (t.invoke c args).executions := by
  cases t with
  | function d run =>
    by_cases hs : Supplied d args
    · rw [invoke_function run c hs]
      exact .function hs
    · obtain ⟨p, hp⟩ := missing?_of_not_supplied hs
      simp only [invoke, hp]
      exact .functionLacks hs
  | universal d path =>
    by_cases hs : Supplied d args
    · rw [invoke_universal path c hs]
      exact .universal hs
    · obtain ⟨p, hp⟩ := missing?_of_not_supplied hs
      simp only [invoke, hp]
      exact .universalLacks hs
  | rest d b path auth => exact .rest
  | remote d server =>
    simp only [invoke, callRemote, Mcp.callTool, Mcp.inSession]
    cases hc : c.connector c.serial server with
    | error e => exact .refused hc
    | ok s =>
      cases hh : s.handshake with
      | error e =>
        simp only [hh]
        exact .unready hc hh
      | ok u =>
        simp only [hh]
        exact .session hc hh

/-- A tool does one thing at most, and nothing else decides which. -/
theorem Executes.unique (h : Executes connection args t es) (h' : Executes connection args t es') :
    es = es' := by
  -- two ways of one tool differ in what is supplied or in what the server answers
  cases h with
  | function hs => cases h' with
    | function => rfl
    | functionLacks hs' => exact absurd hs hs'
  | functionLacks hs => cases h' with
    | function hs' => exact absurd hs' hs
    | functionLacks => rfl
  | universal hs => cases h' with
    | universal => rfl
    | universalLacks hs' => exact absurd hs hs'
  | universalLacks hs => cases h' with
    | universal hs' => exact absurd hs' hs
    | universalLacks => rfl
  | rest => cases h' with
    | rest => rfl
  | refused hc =>
    cases h' with
    | refused => rfl
    | unready hc' | session hc' => simp [hc] at hc'
  | unready hc hh =>
    cases h' with
    | refused hc' => simp [hc] at hc'
    | unready => rfl
    | session hc' hh' =>
      rw [hc] at hc'
      cases hc'
      simp [hh] at hh'
  | session hc hh =>
    cases h' with
    | refused hc' => simp [hc] at hc'
    | session => rfl
    | unready hc' hh' =>
      rw [hc] at hc'
      cases hc'
      simp [hh] at hh'

/-- Whether a tool is executed when it is given some arguments. -/
def isReady (args : Arguments) : Tool → Bool
  | .function d _ | .universal d _ => decide (Supplied d args)
  | .rest _ _ _ _ | .remote _ _ => true

theorem Executes.length_eq (h : Executes connection args t es) :
    es.length = if t.isReady args then 1 else 0 := by
  cases h with
  | function hs | functionLacks hs | universal hs | universalLacks hs => simp [isReady, hs]
  | rest | refused | unready | session => rfl

/-- The tool with another behaviour, if it is a function of the program. -/
def behaving (f : String → Nat → Arguments → Completion) : Tool → Tool
  | .function d _ => .function d (f d.name)
  | .universal d path => .universal d path
  | .rest d b path auth => .rest d b path auth
  | .remote d server => .remote d server

theorem behaving_name (f : String → Nat → Arguments → Completion) (t : Tool) :
    (t.behaving f).name = t.name := by
  cases t <;> rfl

/-- How the functions of the program behave does not decide what is executed. -/
theorem Executes.behaving (f : String → Nat → Arguments → Completion)
    (h : Executes connection args t es) : Executes connection args (t.behaving f) es := by
  cases h with
  | function hs => exact .function hs
  | functionLacks hs => exact .functionLacks hs
  | universal hs => exact .universal hs
  | universalLacks hs => exact .universalLacks hs
  | rest => exact .rest
  | refused hc => exact .refused hc
  | unready hc hh => exact .unready hc hh
  | session hc hh => exact .session hc hh

end OneTool

/-! ## One call -/

/-- What is done for a call by the first of some tools that has its name. -/
inductive Handles (ts : List Tool) (connection : Mcp.Server → Except Mcp.Error Mcp.Session)
    (c : ToolCall) : List Execution → Prop
  | unknown : (∀ t ∈ ts, t.name ≠ c.name) → Handles ts connection c []
  | first {before after : List Tool} {t : Tool} {es : List Execution} :
    ts = before ++ t :: after → (∀ u ∈ before, u.name ≠ c.name) → t.name = c.name →
    Executes connection c.arguments t es → Handles ts connection c es

section OneCall

variable {connection : Mcp.Server → Except Mcp.Error Mcp.Session} {ts : List Tool} {c : ToolCall}
  {es es' : List Execution}

theorem find?_name_eq_some_iff {name : String} {t : Tool} :
    (ts.find? fun t => t.name == name) = some t ↔ ∃ before after, ts = before ++ t :: after ∧
      (∀ u ∈ before, u.name ≠ name) ∧ t.name = name := by
  rw [List.find?_eq_some_iff_append]
  constructor
  · rintro ⟨ht, before, after, hts, hb⟩
    exact ⟨before, after, hts, by simpa using hb, by simpa using ht⟩
  · rintro ⟨before, after, hts, hb, ht⟩
    exact ⟨by simpa using ht, before, after, hts, by simpa using hb⟩

theorem find?_name_eq_none_iff {name : String} :
    (ts.find? fun t => t.name == name) = none ↔ ∀ t ∈ ts, t.name ≠ name := by
  rw [List.find?_eq_none]
  simp

theorem handles_of_find? {t : Tool} (h : (ts.find? fun t => t.name == c.name) = some t)
    (he : Executes connection c.arguments t es) : Handles ts connection c es := by
  obtain ⟨before, after, hts, hb, ht⟩ := find?_name_eq_some_iff.1 h
  exact .first hts hb ht he

/-- What is done for a call is settled by the tools, the call and the server. -/
theorem Handles.unique (h : Handles ts connection c es) (h' : Handles ts connection c es') :
    es = es' := by
  cases h with
  | unknown hn =>
    cases h' with
    | unknown => rfl
    | first hts _ ht => exact absurd ht (hn _ (by simp [hts]))
  | first hts hb ht he =>
    have hf := find?_name_eq_some_iff.2 ⟨_, _, hts, hb, ht⟩
    cases h' with
    | unknown hn => exact absurd ht (hn _ (by simp [hts]))
    | first hts' hb' ht' he' =>
      rw [find?_name_eq_some_iff.2 ⟨_, _, hts', hb', ht'⟩] at hf
      cases hf
      exact he.unique he'

/-- Whether a call is executed: some tool has its name, and the first of them is ready for it. -/
def executable (ts : List Tool) (c : ToolCall) : Bool :=
  match ts.find? fun t => t.name == c.name with
  | some t => t.isReady c.arguments
  | none => false

theorem Handles.length_eq (h : Handles ts connection c es) :
    es.length = if executable ts c then 1 else 0 := by
  unfold executable
  cases h with
  | unknown hn =>
    rw [find?_name_eq_none_iff.2 hn]
    rfl
  | first hts hb ht he =>
    rw [find?_name_eq_some_iff.2 ⟨_, _, hts, hb, ht⟩]
    exact he.length_eq

theorem Handles.behaving (f : String → Nat → Arguments → Completion)
    (h : Handles ts connection c es) : Handles (ts.map (Tool.behaving f)) connection c es := by
  cases h with
  | unknown hn =>
    refine .unknown fun t ht => ?_
    obtain ⟨u, hu, rfl⟩ := List.mem_map.1 ht
    rw [behaving_name]
    exact hn u hu
  | @first before after t _ hts hb ht he =>
    have hm : ts.map (Tool.behaving f) =
        before.map (Tool.behaving f) ++ t.behaving f :: after.map (Tool.behaving f) := by simp [hts]
    refine .first hm (fun u hu => ?_) ((behaving_name f t).trans ht) (he.behaving f)
    obtain ⟨v, hv, rfl⟩ := List.mem_map.1 hu
    rw [behaving_name]
    exact hb v hv

end OneCall

end Tool

/-! ## Batches -/

namespace Agent

open Tool

/-- What is done for each call of a batch, in the order of the calls. -/
def executed (a : Agent) (w : World) (calls : List ToolCall) : List (List Execution) :=
  (invocations a w calls).map Invocation.executions

section Batches

variable {a : Agent} {ts : List Tool}

theorem perform_of_find? (h : a.tools = .ofTools ts) (w : World) (i : Nat) {c : ToolCall} {t : Tool}
    (ht : (ts.find? fun t => t.name == c.name) = some t) :
    a.perform w i c = t.invoke (w.context i c.id) c.arguments := by
  unfold perform Registry.find
  rw [h, Registry.get?_ofTools, ht]

theorem perform_unknown (h : a.tools = .ofTools ts) (w : World) (i : Nat) {c : ToolCall}
    (ht : (ts.find? fun t => t.name == c.name) = none) :
    a.perform w i c = .failed (.notFound c.name) := by
  unfold perform Registry.find
  rw [h, Registry.get?_ofTools, ht]

/-- A call in its place of a batch. -/
theorem handles_perform (h : a.tools = .ofTools ts) (w : World) (i : Nat) (c : ToolCall) :
    Handles ts (w.connector (w.serial + i)) c (a.perform w i c).executions := by
  cases ht : ts.find? fun t => t.name == c.name with
  | none =>
    rw [perform_unknown h w i ht]
    exact .unknown (find?_name_eq_none_iff.1 ht)
  | some t =>
    rw [perform_of_find? h w i ht]
    exact handles_of_find? ht (executes_invoke t (w.context i c.id) c.arguments)

theorem executed_eq (a : Agent) (w : World) (calls : List ToolCall) :
    executed a w calls = calls.zipIdx.map fun c => (a.perform w c.2 c.1).executions := by
  unfold executed invocations
  rw [List.map_map]
  rfl

theorem executed_at (a : Agent) (w : World) (calls : List ToolCall) (i : Nat) :
    (executed a w calls)[i]? = calls[i]?.map fun c => (a.perform w i c).executions := by
  rw [executed_eq, List.getElem?_map, List.getElem?_zipIdx, Nat.zero_add, Option.map_map]
  rfl

/-- What is read off the executions of a batch is read off its calls. -/
theorem executed_filterMap {β : Type} {f : Execution → Option β} {g : Invocation → List β}
    (h : ∀ i : Invocation, i.executions.filterMap f = g i) (a : Agent) (w : World)
    (calls : List ToolCall) :
    (executed a w calls).flatten.filterMap f = (invocations a w calls).flatMap g := by
  unfold executed
  rw [List.filterMap_flatten, List.map_map, List.flatMap_def]
  exact congrArg List.flatten (List.map_congr_left fun i _ => h i)

/-- The effects of a batch are those of its calls: each is executed once, or not at all. -/
structure ExecutedOnce (a : Agent) (w : World) (ts : List Tool) (calls : List ToolCall) : Prop where
  /-- For each call is done what its tool does, with the arguments of the call. -/
  handled : List.Forall₂ (fun c es => Handles ts (w.connector (w.serial + c.2)) c.1 es)
    calls.zipIdx (executed a w calls)
  /-- One thing is done for a call that can be executed, and nothing for any other. -/
  once : (executed a w calls).map List.length = calls.map fun c => if executable ts c then 1 else 0
  /-- A function that is run ends the call in the way the run ends. -/
  ran : ∀ i c d run, calls[i]? = some c →
    (ts.find? fun t => t.name == c.name) = some (.function d run) → Supplied d c.arguments →
    (a.perform w i c).completion = run (w.serial + i) c.arguments
  /-- The batch gives the ends of its calls, and asks the outside for nothing beside. -/
  outcomes : (a.dispatch w calls).1 =
    List.zipWith Outcome.of calls ((invocations a w calls).map Invocation.completion)
  log : (a.dispatch w calls).2.log =
    w.log ++ (executed a w calls).flatten.filterMap Execution.request?
  sessions : (a.dispatch w calls).2.sessions =
    w.sessions ++ (executed a w calls).flatten.filterMap Execution.session?
  /-- What is done for a call is done for it in any other batch, whatever the host answers, the
  functions of the program give and the servers of the other calls do. -/
  apart : ∀ i f w' calls', calls'[i]? = calls[i]? → w'.serial = w.serial →
    w'.connector (w.serial + i) = w.connector (w.serial + i) →
    (executed { a with tools := .ofTools (ts.map (Tool.behaving f)) } w' calls')[i]? =
      (executed a w calls)[i]?

/-- A batch executes each of its calls exactly once when the call can be executed, and does nothing
for the others. -/
theorem batch_executedOnce (a : Agent) (w : World) (ts : List Tool) (calls : List ToolCall)
    (h : a.tools = .ofTools ts) : ExecutedOnce a w ts calls where
  handled := by
    rw [executed_eq, List.forall₂_map_right_iff, List.forall₂_same]
    exact fun c _ => handles_perform h w c.2 c.1
  once := by
    conv_rhs => rw [← List.zipIdx_map_fst 0 calls]
    rw [executed_eq, List.map_map, List.map_map]
    exact List.map_congr_left fun c _ => (handles_perform h w c.2 c.1).length_eq
  ran i c d run _ ht hs := by
    rw [perform_of_find? h w i ht, invoke_function run _ hs]
    rfl
  outcomes := dispatch_outcomes a w calls
  log := by
    rw [executed_filterMap Invocation.executions_requests, dispatch_eq]
    rfl
  sessions := by
    rw [executed_filterMap Invocation.executions_sessions, dispatch_eq]
    rfl
  apart i f w' calls' hc hs hk := by
    rw [executed_at, executed_at, hc]
    cases calls[i]? with
    | none => rfl
    | some c =>
      -- both batches do for the call what the same rule says
      have hl := handles_perform (a := { a with tools := .ofTools (ts.map (Tool.behaving f)) })
        rfl w' i c
      rw [hs, hk] at hl
      exact congrArg some (hl.unique ((handles_perform h w i c).behaving f))

/-- A batch in which a call is made twice, one names no tool, one lacks a parameter and one has a
server that refuses. -/
theorem repeated_call_executedOnce :
    ∃ a ts, a.tools = .ofTools ts ∧
      ExecutedOnce a (.scripted []) ts [.new "1" "clock" [], .new "1" "clock" [],
        .new "2" "nowhere" [], .new "3" "search" [], .new "4" "search" [("query", .str "noon")],
        .new "5" "remote" [("x", .null)]] ∧
      executed a (.scripted []) [.new "1" "clock" [], .new "1" "clock" [],
        .new "2" "nowhere" [], .new "3" "search" [], .new "4" "search" [("query", .str "noon")],
        .new "5" "remote" [("x", .null)]] =
      [[.run ⟨"clock", []⟩], [.run ⟨"clock", []⟩], [], [],
        [.request (.call "search" (.obj [("query", .str "noon")]))],
        [.session [.connect ⟨"fake", [], [], none⟩, .refused]]] :=
  ⟨fresh (.qwen "small" "Qwen") [.constant "clock" (.str "noon"),
      .universal ⟨"search", "", ⟨[], ["query"]⟩, none⟩ none, .constant "search" .null,
      .remote ⟨"remote", "", .none, none⟩ ⟨"fake", [], [], none⟩],
    _, rfl, batch_executedOnce _ _ _ _ rfl, rfl⟩

end Batches

end Agent

end Parley
