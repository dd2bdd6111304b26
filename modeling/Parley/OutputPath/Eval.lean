/-
The value of an output path. An expression that gets to a function as a value is evaluated in its
turn, at most a fixed number of levels deep. Without that limit an expression that passes itself on
could be evaluated for ever.
-/
import Parley.OutputPath.Builtin
import Parley.OutputPath.Slice

namespace Parley.OutputPath

open Builtin (Apply Result)

/-- The items of the items that are lists, with the other items as they are. -/
def flattened (vs : List Value) : List Value :=
  vs.flatMap fun
    | .list ws => ws
    | v => [v]

/-- Puts each item through an expression and leaves out what becomes null. -/
def projectItems (each : Value → Result) : List Value → Option (List Value)
  | [] => some []
  | v :: vs =>
    match each v, projectItems each vs with
    | some w, some ws => some (if w.isNull then ws else w :: ws)
    | _, _ => none

mutual

/-- The value of an expression at a current value. -/
def Expr.eval (apply : Apply) : Expr → Value → Result
  | .current, v => some v
  | .field name, v => some (v.member name)
  | .literal j, _ => some (Value.ofJson j)
  | .index i, v =>
    match v with
    | .list vs => some ((itemAt? vs i).getD .null)
    | _ => some .null
  | .slice start stop step, v =>
    if step = 0 then none
    else
      match v with
      | .list vs => some (.list (OutputPath.slice vs start stop step))
      | _ => some .null
  | .chain a b, v =>
    match a.eval apply v with
    | some w => b.eval apply w
    | none => none
  | .or a b, v =>
    match a.eval apply v with
    | some w => if w.holds then some w else b.eval apply v
    | none => none
  | .and a b, v =>
    match a.eval apply v with
    | some w => if w.holds then b.eval apply v else some w
    | none => none
  | .not e, v => (e.eval apply v).map fun w => .bool (!w.holds)
  | .compare op a b, v =>
    match a.eval apply v, b.eval apply v with
    | some x, some y => some (((x.compare op y).map .bool).getD .null)
    | _, _ => none
  | .memberValues e, v =>
    match e.eval apply v with
    | some (.object ms) => some (.list (ms.map fun m => m.2))
    | some _ => some .null
    | none => none
  | .project source each, v =>
    match source.eval apply v with
    | some (.list vs) => (projectItems (each.eval apply) vs).map .list
    | some _ => some .null
    | none => none
  | .flatten e, v =>
    match e.eval apply v with
    | some (.list vs) => some (.list (flattened vs))
    | some _ => some .null
    | none => none
  | .guarded condition value, v =>
    match condition.eval apply v with
    | some w => if w.holds then value.eval apply v else some .null
    | none => none
  | .list items, v => if v.isNull then some .null else (evalList apply items v).map .list
  | .object members, v =>
    if v.isNull then some .null
    else (evalMembers apply members v).map fun ms => .object (Dictionary.ofEntries ms)
  | .apply function arguments, v =>
    match evalList apply arguments v with
    | some vs => call apply function vs
    | none => none
  | .reference place e, _ => some (.reference place e)

/-- The values of expressions at one current value. -/
def evalList (apply : Apply) : List Expr → Value → Option (List Value)
  | [], _ => some []
  | e :: es, v =>
    match e.eval apply v, evalList apply es v with
    | some w, some ws => some (w :: ws)
    | _, _ => none

/-- The values of named expressions at one current value. -/
def evalMembers (apply : Apply) : List (String × Expr) → Value → Option (List (String × Value))
  | [], _ => some []
  | (k, e) :: es, v =>
    match e.eval apply v, evalMembers apply es v with
    | some w, some ws => some ((k, w) :: ws)
    | _, _ => none

end

/-- Evaluation in which expressions are passed to functions at most `depth` levels deep. -/
def evalWithin : (depth : Nat) → Apply
  | 0 => fun _ _ => none
  | depth + 1 => fun e v => e.eval (evalWithin depth) v

/-- How deep expressions may be passed to functions. Output paths as such know no limit; this one is
the library's own, and an evaluation that would go deeper fails. -/
def maxPassing : Nat := 1000

end Parley.OutputPath
