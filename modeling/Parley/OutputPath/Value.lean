/-
The values that output paths work on: JSON with the members of objects in ascending order, and
expressions that are passed on to functions. Numbers are compared as floating point numbers that
may differ in the last bit.
-/
import Parley.Dictionary
import Parley.Json.Printer
import Parley.OutputPath.Syntax

namespace Parley.OutputPath

open Json (Number)

/-- A value. -/
inductive Value where
  | null
  | bool (b : Bool)
  | num (n : Number)
  | str (s : String)
  | list (items : List Value)
  | object (members : List (String × Value))
  | reference (place : Nat) (e : Expr)
  deriving Repr, Inhabited

/-- The numbers of JSON as floating point numbers. -/
def toFloat : Number → Float
  | .int n => if n < 0 then -n.natAbs.toUInt64.toFloat else n.natAbs.toUInt64.toFloat
  | .double x => x.toFloat

/-- The number of a floating point result, which has to be finite. -/
def ofFloat? (f : Float) : Option Number :=
  if f.isNaN || f.isInf then none else some (.double (.ofFloat f))

/-- The distance from one to the next floating point number. -/
def unitGap : Float := Float.scaleB 1 (-52)

/-- The least positive number of full precision. -/
def leastNormal : Float := Float.scaleB 1 (-1022)

/-- The greatest finite number. -/
def greatestFinite : Float := Float.ofBits 0x7fefffffffffffff

/-- Whether a number is of full precision. -/
def isNormal (f : Float) : Bool :=
  !(f.isNaN || f.isInf) && leastNormal ≤ f.abs

/-- Whether two numbers are equal up to the last bit. -/
def closeTo (a b : Float) : Bool :=
  let difference := (a - b).abs
  if a == b then true
  else if a == 0 || b == 0 || !isNormal difference then difference < unitGap * leastNormal
  else
    let sum := a.abs + b.abs
    difference / (if sum < greatestFinite then sum else greatestFinite) < unitGap

namespace Value

mutual

/-- The value of JSON, with the members of every object in order. -/
def ofJson : Json → Value
  | .null => .null
  | .bool b => .bool b
  | .num n => .num n
  | .str s => .str s
  | .arr items => .list (ofItems items)
  | .obj ms => .object (Dictionary.ofEntries (ofMembers ms))

/-- The items of a list of JSON. -/
def ofItems : List Json → List Value
  | [] => []
  | v :: vs => ofJson v :: ofItems vs

/-- The members of an object of JSON. -/
def ofMembers : List (String × Json) → List (String × Value)
  | [] => []
  | (k, v) :: ms => (k, ofJson v) :: ofMembers ms

end

mutual

/-- The value as JSON; an expression is shown by a mark. -/
def toJson : Value → Json
  | .null => .null
  | .bool b => .bool b
  | .num n => .num n
  | .str s => .str s
  | .list items => .arr (toItems items)
  | .object ms => .obj (toMembers ms)
  | .reference _ _ => .str "<expression>"

/-- The items of a list as JSON. -/
def toItems : List Value → List Json
  | [] => []
  | v :: vs => toJson v :: toItems vs

/-- The members of an object as JSON. -/
def toMembers : List (String × Value) → List (String × Json)
  | [] => []
  | (k, v) :: ms => (k, toJson v) :: toMembers ms

end

mutual

/-- Whether two values are equal. -/
def equal : Value → Value → Bool
  | .null, .null => true
  | .bool a, .bool b => a == b
  | .num a, .num b => closeTo (toFloat a) (toFloat b)
  | .str a, .str b => a == b
  | .list as, .list bs => equalItems as bs
  | .object as, .object bs => equalMembers as bs
  | .reference p _, .reference q _ => p == q
  | _, _ => false

/-- Whether lists are equal item by item. -/
def equalItems : List Value → List Value → Bool
  | [], [] => true
  | a :: as, b :: bs => equal a b && equalItems as bs
  | _, _ => false

/-- Whether objects are equal member by member. -/
def equalMembers : List (String × Value) → List (String × Value) → Bool
  | [], [] => true
  | (k, a) :: as, (l, b) :: bs => k == l && equal a b && equalMembers as bs
  | _, _ => false

end

/-- Whether a value holds: neither null nor false, and not empty. -/
def holds : Value → Bool
  | .null | .reference _ _ => false
  | .bool b => b
  | .num _ => true
  | .str s => !s.isEmpty
  | .list items => !items.isEmpty
  | .object ms => !ms.isEmpty

/-- Whether a value is null. -/
def isNull : Value → Bool
  | .null => true
  | _ => false

/-- The name of the type of a value. -/
def type : Value → String
  | .null => "null"
  | .bool _ => "boolean"
  | .num _ => "number"
  | .str _ => "string"
  | .list _ => "array"
  | .object _ => "object"
  | .reference _ _ => "expref"

/-- The text of a value that is one. -/
def str? : Value → Option String
  | .str s => some s
  | _ => none

/-- The number of a value that is one. -/
def num? : Value → Option Float
  | .num n => some (toFloat n)
  | _ => none

/-- The member of an object, and null in all else. -/
def member (name : String) : Value → Value
  | .object ms => (ms.lookup name).getD .null
  | _ => .null

/-- Whether a comparison holds; only numbers are ordered. -/
def compare (op : Comparator) (a b : Value) : Option Bool :=
  match op with
  | .eq => some (equal a b)
  | .ne => some (!equal a b)
  | op =>
    match a.num?, b.num? with
    | some x, some y =>
      match op with
      | .lt => some (x < y)
      | .le => some (x ≤ y)
      | .gt => some (x > y)
      | _ => some (x ≥ y)
    | _, _ => none

/-- Whether a value stands before another one of the same type in an ascending list: texts are
ordered by code point, numbers by size. -/
def before : Value → Value → Bool
  | .str a, .str b => a < b
  | .num a, .num b => toFloat a < toFloat b
  | _, _ => false

end Value

end Parley.OutputPath
