/-
What can be wrong with a setup: the definition of a tool, a preset or the choice of a model.
-/

namespace Parley.Definition

/-- A fault of a setup. -/
inductive Error where
  | wrongType (expected found : String)
  | malformed (name reason : String)
  | unknownPreset (name : String)
  | invalidOutputPath (expression reason : String)
  | unsupportedModel (model : String)
  | missingModelAttribute (model attr : String)
  deriving DecidableEq, Repr

/-- The text that reports the failure. -/
def Error.message : Error → String
  | .wrongType expected found =>
    "tool type is not \"" ++ expected ++ "\" (found \"" ++ found ++ "\")"
  | .malformed name reason => "malformed tool definition '" ++ name ++ "': " ++ reason
  | .unknownPreset name => "tool preset \"" ++ name ++ "\" does not exist"
  | .invalidOutputPath expression reason =>
    "invalid output path '" ++ expression ++ "': " ++ reason
  | .unsupportedModel model => "model \"" ++ model ++ "\" is not supported"
  | .missingModelAttribute model attr =>
    "model \"" ++ model ++ "\" requires attribute \"" ++ attr ++ "\""

end Parley.Definition
