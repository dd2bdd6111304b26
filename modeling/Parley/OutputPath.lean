/-
Output paths, compiled once and then applied to every result of a tool. Applying one never fails:
a path that does not fit the value gives null.
-/
import Parley.OutputPath.Eval
import Parley.OutputPath.Limit
import Parley.OutputPath.Parser

namespace Parley

/-- A compiled output path and the text it came from. -/
structure OutputPath where
  text : String
  expr : OutputPath.Expr
  deriving Repr

namespace OutputPath

/-- Why a text is no output path. -/
inductive Fault where
  /-- An integer, as it is written, that is greater than allowed. -/
  | integerBeyondMax (digits : String)
  | malformed
  deriving DecidableEq, Repr

/-- The text that reports the fault. -/
def Fault.message : Fault → String
  | .integerBeyondMax digits =>
    "integer " ++ digits ++ " is out of range (max " ++ toString integerMax ++ ")"
  | .malformed => "the expression is malformed"

/-- The path that a text writes; the integers are looked at first. -/
def compile (s : String) : Except Fault OutputPath :=
  match integerBeyondMax? s with
  | some digits => .error (.integerBeyondMax digits)
  | none =>
    match (Token.scan s).bind Parser.parse? with
    | some e => .ok ⟨s, e⟩
    | none => .error .malformed

/-- What the path finds in a value; null when its evaluation fails, be it for the limit on passed
expressions, which is the library's own. -/
def search (p : OutputPath) (v : Json) : Json :=
  ((evalWithin maxPassing p.expr (Value.ofJson v)).map Value.toJson).getD .null

end OutputPath

end Parley
