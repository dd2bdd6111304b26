/-
How a call of a tool can fail. A failure is fatal when no answer of the tool could have mended it:
it ends the turn instead of going back to the model.
-/

namespace Parley.Tool

/-- A failed call. -/
inductive Error where
  | notFound (tool : String)
  | missingParameter (tool parameter : String)
  | invalidArguments (reason : String)
  | invocationFailed (tool callId reason : String)
  | transport (tool callId reason : String)
  | invalidResponse (tool callId reason : String)
  deriving DecidableEq, Repr

namespace Error

/-- The text that reports the failure, which the model may get to see. -/
def message : Error → String
  | .notFound tool => "Tool not found: " ++ tool
  | .missingParameter tool parameter =>
    "Parameter \"" ++ parameter ++ "\" is required by " ++ tool ++ " but not provided"
  | .invalidArguments reason => "Invalid tool arguments: " ++ reason
  | .invocationFailed tool callId reason =>
    "Tool invocation failed: " ++ tool ++ " (" ++ callId ++ "): " ++ reason
  | .transport tool callId reason =>
    "Transport failure in " ++ tool ++ " (" ++ callId ++ "): " ++ reason
  | .invalidResponse tool callId reason =>
    "Invalid response from " ++ tool ++ " (" ++ callId ++ "): " ++ reason

/-- Whether the failure ends the turn. -/
def isFatal : Error → Bool
  | .notFound _ | .missingParameter _ _ => true
  | _ => false

end Error

end Parley.Tool
