/-
How the host can fail: the engine that runs the models and offers capabilities such as requests
over HTTP.
-/

namespace Parley.Host

/-- A failure that the host reports, or that is reported about it. -/
inductive Error where
  | call (capability reason : String)
  | define (type id reason : String)
  | delete (id reason : String)
  /-- A component that is used after its deletion. -/
  | componentInvalid (id : String)
  | stream (reason : String)
  deriving DecidableEq, Repr

/-- The text that reports the failure. -/
def Error.message : Error → String
  | .call capability reason => "call to '" ++ capability ++ "' failed: " ++ reason
  | .define type id reason =>
    "failed to define component '" ++ id ++ "' (" ++ type ++ "): " ++ reason
  | .delete id reason => "failed to delete component '" ++ id ++ "': " ++ reason
  | .componentInvalid id => "component '" ++ id ++ "' is no longer valid"
  | .stream reason => "stream interrupted: " ++ reason

end Parley.Host
