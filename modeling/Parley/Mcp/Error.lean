/-
How talking to a tool server can fail.
-/

namespace Parley.Mcp

/-- A failure of a tool server. -/
inductive Error where
  /-- The server could not be started. -/
  | spawn (command reason : String)
  /-- The server's input or output failed. -/
  | transport (server reason : String)
  /-- The server answered with an error. -/
  | server (code : Int) (message : String)
  /-- The server answered with something that has no meaning here. -/
  | protocol (server reason : String)
  deriving DecidableEq, Repr

/-- The text that reports the failure. -/
def Error.message : Error → String
  | .spawn command reason => "failed to spawn MCP server '" ++ command ++ "': " ++ reason
  | .transport name reason => "transport error for MCP server '" ++ name ++ "': " ++ reason
  | .server code message => "MCP server error [" ++ toString code ++ "]: " ++ message
  | .protocol name reason => "protocol error from MCP server '" ++ name ++ "': " ++ reason

end Parley.Mcp
