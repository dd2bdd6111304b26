/-
What commands work on and what comes of them: a text that is printed, and a failure that may end
it early.
-/
import Parley.Config
import Parley.Definition.Error
import Parley.Mcp.Session

namespace Parley.Command

/-- How a command can fail. -/
inductive Error where
  /-- The command needs the configuration, and there is none. -/
  | loading (e : Config.Error)
  /-- The configuration itself is what the command is about. -/
  | config (e : Config.Error)
  | definition (e : Definition.Error)
  | noTool (preset tool : String)
  /-- Arguments that are not JSON. -/
  | argsUnreadable (e : Json.Fault)
  /-- Arguments that are not an object. -/
  | argsNoObject (value : Json)
  /-- Neither a command nor the name of a server is given. -/
  | noTarget
  | noServer (name : String)
  /-- A server does not list its tools. -/
  | listing (command : String) (e : Mcp.Error)

/-- The text of a failure, with the texts of what led to it behind it. -/
def Error.message : Error → String
  | .loading e => "Failed to load config: " ++ e.message
  | .config e => e.message
  | .definition e => e.message
  | .noTool preset tool => "Preset \"" ++ preset ++ "\" has no tool \"" ++ tool ++ "\""
  | .argsUnreadable e => "--args is not valid JSON: " ++ e.message
  | .argsNoObject v => "--args must be a JSON object, got " ++ v.text
  | .noTarget => "Give the server command after \x60--\x60, or --server <name>"
  | .noServer name => "No MCP server named \"" ++ name ++ "\" in the config"
  | .listing command e => "Failed to list tools of \x60" ++ command ++ "\x60: " ++ e.message

/-- What a command gives: what it prints, and its failure if it fails. -/
structure Report where
  output : String
  failure : Option Error

/-- The report of a command that prints nothing when it fails. -/
def Report.of : Except Error String → Report
  | .ok output => ⟨output, none⟩
  | .error e => ⟨"", some e⟩

/-- What a command works on. -/
structure Context where
  files : Files
  env : Environment
  connector : Mcp.Connector

/-- The configuration, for a command that needs it. -/
def Context.config (c : Context) : Except Error Config :=
  (Config.load c.files c.env).mapError .loading

end Parley.Command
