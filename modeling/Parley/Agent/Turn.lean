/-
Turns of a conversation. A turn appends the message of the user and then alternates between
streaming the model's answer and running the tools that it asks for, until the model stops. It
goes on only when an event is asked for and none is waiting.
-/
import Parley.Agent
import Parley.Chat.Delta
import Parley.Chat.Event

namespace Parley.Agent

open Chat

/-- Where a turn stands. -/
inductive Phase where
  | start (message : String)
  | infer
  /-- Reading the stream of a round. -/
  | streaming (items : List Item)
  /-- About to run the calls that the model asked for. -/
  | dispatch (calls : List ToolCall)
  | done

/-- A turn under way, with the events that wait to be taken. -/
structure Turn where
  agent : Agent
  world : World
  options : RunOptions
  phase : Phase
  pending : List (Except Error Event)

namespace Turn

/-- A turn before its first step. -/
def new (a : Agent) (w : World) (o : RunOptions) (message : String) : Turn :=
  ⟨a, w, o, .start message, []⟩

/-- Ends the turn with a failure, shown behind the events that wait. -/
def fail (t : Turn) (e : Error) : Turn :=
  { t with phase := .done, pending := t.pending ++ [.error e] }

/-- Shows events behind those that wait. -/
def showing (t : Turn) (es : List Event) : Turn :=
  { t with pending := t.pending ++ es.map .ok }

/-- Whether the turn has come to its end. -/
def isDone (t : Turn) : Bool :=
  match t.phase with
  | .done => true
  | _ => false

/-! ## Steps -/

/-- Appends a message and goes on in the given phase. -/
def append (t : Turn) (m : Message) (next : Phase) : Turn :=
  match t.agent.history.push m with
  | .ok history => { t with agent := { t.agent with history }, phase := next }
  | .error e => t.fail (.history e)

/-- The text of a model that gave up. -/
def failureText (m : Message) : String :=
  match m.content? with
  | some c => if c.isEmpty then "inference failed" else c
  | none => "inference failed"

/-- Takes a unit of the stream, of which `rest` is left. -/
def receive (t : Turn) (d : Delta) (rest : List Item) : Turn :=
  match d.finish with
  | none => { t.showing [.text d.message false] with phase := .streaming rest }
  | some .toolCalls =>
    match d.message with
    | .toolCalls calls =>
      (t.append d.message (.dispatch calls)).showing (calls.map fun c => .toolCall c true)
    | _ => t.fail (.invalidDelta "tool_calls delta does not carry tool calls")
  | some .stop | some .length =>
    (t.showing [.text d.message false]).append d.message .done
  | some .error => { t.showing [.error (failureText d.message)] with phase := .done }

/-- The message that tells the model about a call. -/
def resultOf (c : ToolCall) (o : Outcome) : Message :=
  .toolResult c.name c.id o.content

/-- The events about a call: a failure that is not fatal is shown before its result. -/
def eventsOf (c : ToolCall) (o : Outcome) : List Event :=
  (match o with
    | .failed e => [Event.error e.message]
    | _ => []) ++ [.toolResult (resultOf c o)]

/-- Records the outcomes of a batch: one result for each call, in order. The first fatal failure
ends the turn behind them. -/
def record (t : Turn) (results : List (ToolCall × Outcome)) : Turn :=
  let messages := t.agent.history.messages ++ results.map fun r => resultOf r.1 r.2
  let t := { t with agent := { t.agent with history := ⟨messages⟩ } }
  let t := t.showing (results.flatMap fun r => eventsOf r.1 r.2)
  match results.findSome? fun r => r.2.fatal? with
  | some e => t.fail (.tool e)
  | none => { t with phase := .infer }

/-- Goes on by one step. -/
def advance (t : Turn) : Turn :=
  match t.phase with
  | .done => t
  | .start message =>
    if t.agent.isValid then t.append (.user message) .infer
    else t.fail (.componentInvalid t.agent.component.id)
  | .infer =>
    let request := t.agent.inferenceRequest t.options
    match t.agent.component.stream t.world inferMethod request with
    | (.ok items, world) => { t with world, phase := .streaming items }
    | (.error e, world) => { t with world }.fail (.host e)
  | .streaming [] => t.fail (.invalidDelta "inference stream ended without a finish reason")
  | .streaming (.error e :: _) => t.fail (.host e)
  | .streaming (.ok v :: rest) =>
    match Delta.decode v with
    | .ok d => t.receive d rest
    | .error e => t.fail (.invalidDelta e.message)
  | .dispatch calls =>
    let (outcomes, world) := t.agent.dispatch t.world calls
    { t with world }.record (calls.zip outcomes)

/-! ## Events on demand -/

/-- How many steps a phase is away from the next round. -/
def Phase.weight : Phase → Nat
  | .done => 0
  | .infer => 1
  | .start _ => 2
  | .dispatch _ => 2
  | .streaming _ => 3

/-- A bound on the steps that a turn takes without an event. -/
def weight (t : Turn) : Nat :=
  4 * t.world.rounds.length + Phase.weight t.phase

/-- Goes on until an event waits or the turn is done. -/
def settle : (fuel : Nat) → Turn → Turn
  | 0, t => t
  | fuel + 1, t => if t.pending.isEmpty && !t.isDone then settle fuel t.advance else t

/-- The next event, and the turn behind it; none when the turn is done. -/
def next? (t : Turn) : Option (Except Error Event) × Turn :=
  let t := t.settle t.weight
  match t.pending with
  | [] => (none, t)
  | e :: es => (some e, { t with pending := es })

/-- The next events, `n` at most. -/
def takeEvents : (n : Nat) → Turn → List (Except Error Event) × Turn
  | 0, t => ([], t)
  | n + 1, t =>
    match t.next? with
    | (none, t) => ([], t)
    | (some e, t) =>
      match takeEvents n t with
      | (es, t) => (e :: es, t)

/-- A bound on the steps that rounds still to come take. -/
def cost : List Round → Nat
  | [] => 0
  | .ok items :: rounds => items.length + 4 + cost rounds
  | .error _ :: rounds => 4 + cost rounds

/-- A bound on the steps of a whole turn. -/
def bound (t : Turn) : Nat :=
  cost t.world.rounds + Phase.weight t.phase +
    match t.phase with
    | .streaming items => items.length
    | _ => 0

/-- All events, step by step until the turn is done. -/
def drain : (fuel : Nat) → Turn → List (Except Error Event) × Turn
  | 0, t => (t.pending, { t with pending := [] })
  | fuel + 1, t =>
    let rest := { t with pending := [] }
    if t.isDone then (t.pending, rest)
    else
      match drain fuel rest.advance with
      | (es, u) => (t.pending ++ es, u)

/-- All events of a turn, and the turn behind them. -/
def exhaust (t : Turn) : List (Except Error Event) × Turn :=
  t.drain t.bound

end Turn

end Parley.Agent
