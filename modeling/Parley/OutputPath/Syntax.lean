/-
Output paths: expressions that pick a part out of a JSON value. An expression is evaluated at a
current value, which a projection sets to one item after the other.
-/
import Parley.Json.Basic

namespace Parley.OutputPath

/-- How two values are compared. -/
inductive Comparator where
  | eq
  | ne
  | lt
  | le
  | gt
  | ge
  deriving DecidableEq, Repr

/-- An expression. -/
inductive Expr where
  /-- The current value. -/
  | current
  | field (name : String)
  | literal (value : Json)
  | index (i : Int)
  | slice (start stop : Option Int) (step : Int)
  /-- The second expression at the value of the first one. -/
  | chain (first second : Expr)
  | or (left right : Expr)
  | and (left right : Expr)
  | not (e : Expr)
  | compare (op : Comparator) (left right : Expr)
  /-- The values of the members of an object. -/
  | memberValues (e : Expr)
  /-- The items of the first expression's list, each put through the second one; what becomes
  null is left out. -/
  | project (list each : Expr)
  /-- One level of nested lists taken away. -/
  | flatten (e : Expr)
  /-- The second expression where the first one holds, and null elsewhere. -/
  | guarded (condition value : Expr)
  | list (items : List Expr)
  | object (members : List (String × Expr))
  | apply (function : String) (arguments : List Expr)
  /-- An expression as a value; `place` tells apart where it is written. -/
  | reference (place : Nat) (e : Expr)
  deriving Repr, Inhabited

mutual

/-- All indices, bounds and steps of an expression. -/
def Expr.integers : Expr → List Int
  | .current | .field _ | .literal _ => []
  | .index i => [i]
  | .slice start stop step => start.toList ++ stop.toList ++ [step]
  | .chain a b | .or a b | .and a b | .compare _ a b | .project a b | .guarded a b =>
    a.integers ++ b.integers
  | .not e | .memberValues e | .flatten e | .reference _ e => e.integers
  | .list items => integersOfList items
  | .object members => integersOfMembers members
  | .apply _ arguments => integersOfList arguments

/-- The integers of some expressions. -/
def Expr.integersOfList : List Expr → List Int
  | [] => []
  | e :: es => e.integers ++ integersOfList es

/-- The integers of some named expressions. -/
def Expr.integersOfMembers : List (String × Expr) → List Int
  | [] => []
  | (_, e) :: es => e.integers ++ integersOfMembers es

end

end Parley.OutputPath
