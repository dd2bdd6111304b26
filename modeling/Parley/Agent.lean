/-
Agents: a conversation with one model, and the tools that the model may call.
-/
import Parley.Chat.History
import Parley.Component
import Parley.Error
import Parley.Model
import Parley.Preset
import Parley.Tool.Registry

namespace Parley

open Json

/-- An agent. -/
structure Agent where
  model : Model
  component : Component
  history : Chat.History
  tools : Tool.Registry

namespace Agent

/-- How to make an agent. -/
structure Options where
  model : String
  attrs : Model.Attributes
  /-- What the system says, in place of the model's own default. -/
  systemMessage : Option String
  deriving DecidableEq, Repr

/-- What a turn tells the model beside the conversation. -/
structure RunOptions where
  enableReasoning : Bool
  ignoreReasoning : Bool
  deriving DecidableEq, Repr

/-! ## Life -/

/-- The model and the attributes of options that can be used. -/
def Options.resolve (o : Options) : Except Definition.Error (Model × Json) :=
  match Model.find o.model with
  | .error e => .error e
  | .ok m =>
    match m.componentAttrs o.attrs with
    | .error e => .error e
    | .ok attrs => .ok (m, attrs)

/-- Makes an agent and defines its component; the host is asked nothing when the options cannot
be used. -/
def define (w : World) (o : Options) : Except Error Agent × World :=
  match o.resolve with
  | .error e => (.error (.definition e), w)
  | .ok (model, attrs) =>
    match Component.define w model.componentType attrs with
    | (.error e, w) => (.error (.host e), w)
    | (.ok component, w) =>
      let history := Chat.History.new (o.systemMessage.or model.systemMessage)
      (.ok ⟨model, component, history, .empty⟩, w)

/-- Whether the agent has not been deleted. -/
def isValid (a : Agent) : Bool := a.component.valid

/-- Forgets the conversation, except for what the system said. -/
def clearMessages (a : Agent) : Agent :=
  { a with history := a.history.reset }

/-- Forgets the tools. -/
def clearTools (a : Agent) : Agent :=
  { a with tools := a.tools.clear }

/-- Releases the component and forgets the conversation; a second time does nothing. -/
def delete (a : Agent) (w : World) : Except Error Unit × Agent × World :=
  if a.isValid then
    let (r, component, w) := a.component.delete w
    (r.mapError .host, { a.clearMessages with component }, w)
  else (.ok (), a, w)

/-- Gives up the agent, and with it the component. -/
def drop (a : Agent) (w : World) : World :=
  a.component.drop w

/-! ## Tools -/

/-- Adds a tool. -/
def addTool (a : Agent) (t : Tool) : Tool.Registration × Agent :=
  let (r, tools) := a.tools.register t
  (r, { a with tools })

/-- Adds a tool that is not a tool for some reason given. -/
def addBuilt (a : Agent) : Except Definition.Error Tool → Except Error Tool.Registration × Agent
  | .error e => (.error (.definition e), a)
  | .ok t =>
    let (r, a) := a.addTool t
    (.ok r, a)

/-- Adds the tool of a definition for a capability of the host. -/
def addUniversal (a : Agent) (d : Definition) : Except Error Tool.Registration × Agent :=
  match d.validate with
  | .error e => (.error (.definition e), a)
  | .ok () => a.addBuilt d.universalTool

/-- Adds the tool of a definition for a request. -/
def addRest (a : Agent) (d : Definition) (auth : Option Http.Authenticator) :
    Except Error Tool.Registration × Agent :=
  match d.validate with
  | .error e => (.error (.definition e), a)
  | .ok () => a.addBuilt (d.restTool auth)

/-- Builds the tools of definitions; the first fault counts. -/
def buildAll (auth : Option Http.Authenticator) :
    List Definition → Except Definition.Error (List Tool)
  | [] => .ok []
  | d :: ds =>
    match d.build auth with
    | .error e => .error e
    | .ok t => (buildAll auth ds).map (t :: ·)

/-- Adds the tools of a preset, all or none, and counts the new ones. -/
def addPreset (a : Agent) (fs : Files) (dir preset : String) (auth : Option Http.Authenticator) :
    Except Error Nat × Agent :=
  match (Preset.load fs dir preset).bind (buildAll auth) with
  | .error e => (.error (.definition e), a)
  | .ok ts =>
    let (n, tools) := a.tools.registerAll ts
    (.ok n, { a with tools })

/-- Adds a tool of a server. -/
def addRemote (a : Agent) (server : Mcp.Server) (t : Mcp.RemoteTool) :
    Except Error Tool.Registration × Agent :=
  a.addBuilt (t.tool server)

/-- Adds tools of a server one after the other, up to the first that cannot be used. -/
def addRemotes (a : Agent) (server : Mcp.Server) : List Mcp.RemoteTool → Except Error Unit × Agent
  | [] => (.ok (), a)
  | t :: ts =>
    match a.addRemote server t with
    | (.error e, a) => (.error e, a)
    | (.ok _, a) => a.addRemotes server ts

/-- Whether a tool passes a filter of names; no filter lets all pass. -/
def passes (filter : Option (List String)) (t : Mcp.RemoteTool) : Bool :=
  match filter with
  | none => true
  | some names => names.contains t.name

/-- Adds the tools that a server advertises and a filter lets pass; gives all that it
advertises. -/
def addServer (a : Agent) (w : World) (server : Mcp.Server) (filter : Option (List String)) :
    Except Error (List Mcp.RemoteTool) × Agent × World :=
  match w.listTools server with
  | (.error e, w) => (.error (.mcp e), a, w)
  | (.ok listed, w) =>
    match a.addRemotes server (listed.filter (passes filter)) with
    | (.error e, a) => (.error e, a, w)
    | (.ok (), a) => (.ok listed, a, w)

/-! ## Inference -/

/-- The method that streams a round of inference. -/
def inferMethod : String := "infer"

/-- What the model gets to see in a round: the conversation, the tools and the options. -/
def inferenceRequest (a : Agent) (o : RunOptions) : Json :=
  .obj [("messages", a.history.toJson),
    ("tools", .arr (a.tools.descriptions.map Tool.Description.functionSpec)),
    ("enable_reasoning", .bool o.enableReasoning),
    ("ignore_reasoning_messages", .bool o.ignoreReasoning)]

/-! ## Batches of calls -/

/-- What a call means for the turn. -/
inductive Outcome where
  | done (value : Json)
  /-- A failure that the model is told. -/
  | failed (e : Tool.Error)
  /-- A failure that ends the turn after the batch. -/
  | aborted (e : Tool.Error)
  deriving DecidableEq, Repr

/-- The outcome of a call that came to its end. -/
def Outcome.of (c : ToolCall) : Tool.Completion → Outcome
  | .returned (.ok v) => .done v
  | .returned (.error e) => if e.isFatal then .aborted e else .failed e
  | .brokenDown reason =>
    .aborted (.invocationFailed c.name c.id ("tool task did not complete: " ++ reason))

/-- The failure that ends the turn, if there is one. -/
def Outcome.fatal? : Outcome → Option Tool.Error
  | .aborted e => some e
  | _ => none

/-- What the model is told about a call: its value, or the text of its failure. -/
def Outcome.content (o : Outcome) : String :=
  match o with
  | .done v => v.text
  | .failed e | .aborted e => (Json.obj [("error", .str e.message)]).text

/-- The call at place `i` of a batch; the outside answers it on its own. -/
def perform (a : Agent) (w : World) (i : Nat) (c : ToolCall) : Tool.Invocation :=
  match a.tools.find c.name with
  | .error e => .failed e
  | .ok t => t.invoke (w.context i c.id) c.arguments

/-- Runs all calls of a batch: their outcomes in the order of the calls, and the world after. -/
def dispatch (a : Agent) (w : World) (calls : List ToolCall) : List Outcome × World :=
  let done := calls.zipIdx.map fun c => (c.1, a.perform w c.2 c.1)
  (done.map fun d => .of d.1 d.2.completion, w.notingBatch (done.map fun d => d.2))

end Agent

end Parley
