/-
Tools: functions of the program itself, capabilities of the host, requests over HTTP and tools of
other servers, all under one description.
-/
import Parley.Mcp.Server
import Parley.Tool.Error
import Parley.Tool.Rest

namespace Parley

/-- How a call comes to its end: with a result, or with the breakdown of the task that ran it. -/
inductive Tool.Completion where
  | returned (result : Except Tool.Error Json)
  | brokenDown (reason : String)

/-- A tool. -/
inductive Tool where
  /-- A function; what it gives may depend on when it is called. -/
  | function (description : Tool.Description)
      (run : (serial : Nat) → Arguments → Tool.Completion)
  /-- The capability of the host that has the tool's name. -/
  | universal (description : Tool.Description) (outputPath : Option OutputPath)
  /-- A request over HTTP. -/
  | rest (description : Tool.Description) (behavior : Definition.Rest)
      (outputPath : Option OutputPath) (auth : Option Http.Authenticator)
  /-- A tool of another server. -/
  | remote (description : Tool.Description) (server : Mcp.Server)

namespace Tool

/-- The description that the model gets to see. -/
def description : Tool → Description
  | .function d _ | .universal d _ | .rest d _ _ _ | .remote d _ => d

/-- The name that the model calls the tool by. -/
def name (t : Tool) : String := t.description.name

end Tool

/-! ## Tools of definitions -/

namespace Definition

/-- The tool of a definition that must be for a capability of the host. -/
def universalTool (d : Definition) : Except Error Tool :=
  match d.universal? with
  | .error e => .error e
  | .ok (description, b) => (compilePath b.outputPath).map (.universal description)

/-- The tool of a definition that must be for a request. -/
def restTool (d : Definition) (auth : Option Http.Authenticator) : Except Error Tool :=
  match d.restApi? with
  | .error e => .error e
  | .ok (description, b) => (compilePath b.outputPath).map (.rest description b · auth)

/-- The request that the tool of a definition would send. -/
def request (d : Definition) (auth : Option Http.Authenticator) (args : Arguments) :
    Except Error Http.Request :=
  match d.restApi? with
  | .error e => .error e
  | .ok (_, b) => (compilePath b.outputPath).map fun _ => b.request auth args

/-- The tool of a valid definition; credentials are for requests only. -/
def build (d : Definition) (auth : Option Http.Authenticator) : Except Error Tool :=
  match d.validate with
  | .error e => .error e
  | .ok () =>
    match d with
    | .universal _ _ => d.universalTool
    | .restApi _ _ => d.restTool auth

end Definition

/-! ## Tools of servers -/

/-- The tool that a server advertises, if the schema of its parameters can be used. -/
def Mcp.RemoteTool.tool (t : RemoteTool) (server : Server) : Except Definition.Error Tool :=
  match Tool.Parameters.decode t.inputSchema with
  | .error e => .error (.malformed t.name ("unusable inputSchema: " ++ e.message))
  | .ok parameters => .ok (.remote ⟨t.name, t.description.getD "", parameters, none⟩ server)

end Parley
