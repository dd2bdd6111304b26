/-
What a call of a tool gives, all that it asks of the host and of tool servers, and the functions of
the program that it runs. A call is a function of its arguments and of the answers from outside, so
calls that run at the same time cannot disturb each other.
-/
import Parley.Host
import Parley.Mcp.Session
import Parley.Tool

namespace Parley.Tool

/-- The surroundings of a call: who is asked, the number of the call among all questions to the
outside, and the name that the model gave to the call. -/
structure Context where
  host : Host
  connector : Mcp.Connector
  serial : Nat
  callId : String

/-- A run of a function of the program, by the name of its tool and by what it was given. -/
structure Run where
  name : String
  arguments : Arguments
  deriving DecidableEq, Repr

/-- What came of a call: how it ended, what was asked outside, and what was run inside. -/
structure Invocation where
  completion : Completion
  requests : List Host.Request
  sessions : List (List Mcp.Asked)
  runs : List Run

namespace Invocation

/-- A call that asks nothing outside. -/
def inside (c : Completion) (runs : List Run) : Invocation := ⟨c, [], [], runs⟩

/-- A call that fails before anything is asked or run. -/
def failed (e : Error) : Invocation := inside (.returned (.error e)) []

end Invocation

/-- The first parameter that a call has to give and does not give. -/
def missing? (d : Description) (args : Arguments) : Option String :=
  d.parameters.required.find? fun p => !(args.any fun a => a.1 == p)

/-- The part of a value that an output path picks out, and the value itself without a path. -/
def pick (path : Option OutputPath) (v : Json) : Json :=
  match path with
  | some p => p.search v
  | none => v

/-- A call of a function of the program. -/
def callFunction (d : Description) (run : (serial : Nat) → Arguments → Completion) (c : Context)
    (args : Arguments) : Invocation :=
  .inside (run c.serial args) [⟨d.name, args⟩]

/-- A call of a capability of the host. -/
def callHost (d : Description) (path : Option OutputPath) (c : Context) (args : Arguments) :
    Invocation :=
  let result : Except Error Json :=
    match c.host.call c.serial d.name (.obj args) with
    | .ok v => .ok (pick path v)
    | .error e => .error (.invocationFailed d.name c.callId e.message)
  ⟨.returned result, [.call d.name (.obj args)], [], []⟩

/-- A request whose answer is read as JSON. -/
def callRest (d : Description) (path : Option OutputPath) (c : Context) (r : Http.Request) :
    Invocation :=
  let result : Except Error Json :=
    match c.host.fetch c.serial r with
    | .error e => .error (.transport d.name c.callId e.message)
    | .ok response =>
      match Json.parse? response.body with
      | some v => .ok (pick path v)
      | none =>
        .error (.invalidResponse d.name c.callId
          ("response body is not JSON: " ++ Json.Fault.noJson.message))
  ⟨.returned result, [.call Host.httpRequest r.toJson], [], []⟩

/-- The failure of a call that a server did not answer. -/
def remoteFailure (d : Description) (callId : String) : Mcp.Error → Error
  | .server code message =>
    .invocationFailed d.name callId (Mcp.Error.server code message).message
  | e => .transport d.name callId e.message

/-- The value of a call that a server answered. -/
def remoteResult (d : Description) (callId : String) (r : Mcp.CallResult) : Except Error Json :=
  if r.isError then .error (.invocationFailed d.name callId ("\n".intercalate r.payloads))
  else .ok (.arr (r.payloads.map .str))

/-- A call of a tool of another server. -/
def callRemote (d : Description) (server : Mcp.Server) (c : Context) (args : Arguments) :
    Invocation :=
  let (outcome, asked) := Mcp.callTool c.connector c.serial server d.name args
  let result : Except Error Json :=
    match outcome with
    | .error e => .error (remoteFailure d c.callId e)
    | .ok r => remoteResult d c.callId r
  ⟨.returned result, [], [asked], []⟩

/-- Calls a tool. Functions and capabilities need their required parameters. -/
def invoke (t : Tool) (c : Context) (args : Arguments) : Invocation :=
  match t with
  | .function d run =>
    match missing? d args with
    | some p => .failed (.missingParameter d.name p)
    | none => callFunction d run c args
  | .universal d path =>
    match missing? d args with
    | some p => .failed (.missingParameter d.name p)
    | none => callHost d path c args
  | .rest d b path auth => callRest d path c (b.request auth args)
  | .remote d server => callRemote d server c args

end Parley.Tool
