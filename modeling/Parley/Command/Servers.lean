/-
The commands about tool servers: which are configured, and the tools of one of them.
-/
import Parley.Command.Report
import Parley.Text.Layout

namespace Parley.Command

/-- A line about a configured server. -/
def serverLine (e : Config.Entry) : String :=
  let wanted :=
    match e.tools with
    | some names => String.intercalate ", " names
    | none => "all tools"
  "  " ++ Text.column 16 e.name ++ " " ++ e.server.command ++ " "
    ++ String.intercalate " " e.server.args ++ "  (" ++ wanted ++ ")"

/-- The configured servers. -/
def listServers (c : Context) : Except Error String :=
  c.config.map fun config =>
    Text.unlines (if config.servers.isEmpty then ["No MCP servers configured"]
      else config.servers.map serverLine)

/-- The server that is meant: one of the configuration by its name, or else one by its command. -/
def target (c : Context) : Option String → List String → Except Error Mcp.Server
  | some name, _ =>
    match c.config with
    | .error e => .error e
    | .ok config =>
      match config.servers.find? fun e => e.name = name with
      | some e => .ok e.server
      | none => .error (.noServer name)
  | none, command :: args => .ok ⟨command, args, [], none⟩
  | none, [] => .error .noTarget

/-- A line about a tool of a server. -/
def remoteLine (t : Mcp.RemoteTool) : String :=
  "  " ++ Text.column 24 t.name ++ " " ++ Text.firstLine (t.description.getD "")

/-- The tools of a server. -/
def listTools (c : Context) (name : Option String) (command : List String) :
    Except Error String :=
  match target c name command with
  | .error e => .error e
  | .ok server =>
    match Mcp.listTools c.connector 0 server with
    | (.error e, _) => .error (.listing server.command e)
    | (.ok tools, _) =>
      .ok (Text.unlines
        ((toString tools.length ++ " tool(s) from \x60" ++ server.command ++ "\x60")
          :: tools.map remoteLine))

end Parley.Command
