/-
All ways in which an agent can fail, by the part of its surroundings that failed.
-/
import Parley.Chat.History
import Parley.Definition.Error
import Parley.Host.Error
import Parley.Mcp.Error
import Parley.Tool.Error

namespace Parley

/-- A failure of an agent. -/
inductive Error where
  | host (e : Host.Error)
  | tool (e : Tool.Error)
  | definition (e : Definition.Error)
  | mcp (e : Mcp.Error)
  | history (e : Chat.HistoryError)
  /-- The model streamed something that has no meaning here. -/
  | invalidDelta (reason : String)
  /-- The agent is used after its deletion. -/
  | componentInvalid (id : String)
  | internal (reason : String)
  deriving DecidableEq, Repr

namespace Error

/-- The text that reports the failure, with the name of the part that failed in front. -/
def message : Error → String
  | .host e => "Runtime error: " ++ e.message
  | .tool e => "Tool error: " ++ e.message
  | .definition e => "Definition error: " ++ e.message
  | .mcp e => "MCP error: " ++ e.message
  | .history e => "History error: " ++ e.message
  | .invalidDelta reason => "Invalid inference delta: " ++ reason
  | .componentInvalid id => "Agent component '" ++ id ++ "' has been deleted"
  | .internal reason => "Internal error: " ++ reason

/-- Whether the setup of the agent is at fault. -/
def isConfiguration : Error → Bool
  | .definition _ => true
  | _ => false

end Error

end Parley
