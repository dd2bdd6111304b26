/-
The functions of output paths. Each is defined on arguments of certain types and fails on all
others; `apply` evaluates an expression that came as an argument at a value.
-/
import Parley.Json.Parser
import Parley.OutputPath.Value
import Parley.Text.Delimited

namespace Parley.OutputPath

namespace Builtin

/-- The result of an evaluation, which may fail. -/
abbrev Result := Option Value

/-- The evaluation of an expression at a value. -/
abbrev Apply := Expr → Value → Result

/-! ## Numbers -/

/-- A function of one number. -/
def ofNumber (f : Float → Float) : List Value → Result
  | [.num n] => (ofFloat? (f (toFloat n))).map .num
  | _ => none

/-- The sum of a list of numbers. -/
def total (vs : List Value) : Option Float :=
  (vs.mapM Value.num?).map fun ns => ns.foldl (· + ·) 0

/-- The sum of a list of numbers, zero for none. -/
def sum : List Value → Result
  | [.list vs] => ((total vs).bind ofFloat?).map .num
  | _ => none

/-- The mean of a list of numbers; there is none of an empty list. -/
def avg : List Value → Result
  | [.list vs] => ((total vs).bind fun s => ofFloat? (s / vs.length.toFloat)).map .num
  | _ => none

/-! ## Texts -/

/-- A test on two texts. -/
def ofTexts (p : List Char → List Char → Bool) : List Value → Result
  | [.str s, .str t] => some (.bool (p s.toList t.toList))
  | _ => none

/-- Whether a list has an item, or a text a part. -/
def contains : List Value → Result
  | [.list vs, v] => some (.bool (vs.any fun w => w.equal v))
  | [.str s, .str t] => some (.bool (Text.occursIn t.toList s.toList))
  | [.str _, _] => some (.bool false)
  | _ => none

/-- Texts with another one between each two. -/
def join : List Value → Result
  | [.str glue, .list vs] => (vs.mapM Value.str?).map fun ss => .str (glue.intercalate ss)
  | _ => none

/-! ## Objects and lists -/

/-- The names of the members of an object, in order. -/
def keys : List Value → Result
  | [.object ms] => some (.list (ms.map fun m => .str m.1))
  | _ => none

/-- The values of the members of an object, in the order of their names. -/
def values : List Value → Result
  | [.object ms] => some (.list (ms.map fun m => m.2))
  | _ => none

/-- The number of characters, items or members. -/
def length : List Value → Result
  | [.str s] => some (.num (.int s.length))
  | [.list vs] => some (.num (.int vs.length))
  | [.object ms] => some (.num (.int ms.length))
  | _ => none

/-- A text or a list from behind. -/
def reverse : List Value → Result
  | [.str s] => some (.str (String.ofList s.toList.reverse))
  | [.list vs] => some (.list vs.reverse)
  | _ => none

/-- The members of all objects together; of two with one name the later counts. -/
def merge (vs : List Value) : Result :=
  let members : Value → Option (List (String × Value))
    | .object ms => some ms
    | _ => none
  if vs.isEmpty then none
  else (vs.mapM members).map fun ms => .object (Dictionary.ofEntries ms.flatten)

/-- The first argument that is not null. -/
def notNull (vs : List Value) : Result :=
  if vs.isEmpty then none else some ((vs.find? fun v => !v.isNull).getD .null)

/-! ## Order -/

/-- Whether all values are texts, or all are numbers. -/
def areComparable (vs : List Value) : Bool :=
  (vs.all fun v => v.str?.isSome) || (vs.all fun v => v.num?.isSome)

/-- The greatest of some values; of several the last one. -/
def greatest : List Value → Value
  | [] => .null
  | v :: vs => vs.foldl (fun a b => if b.before a then a else b) v

/-- The least of some values; of several the first one. -/
def least : List Value → Value
  | [] => .null
  | v :: vs => vs.foldl (fun a b => if b.before a then b else a) v

/-- A function of a list of texts or numbers. -/
def ofComparable (f : List Value → Value) : List Value → Result
  | [.list vs] => if areComparable vs then some (f vs) else none
  | _ => none

/-- Ascending, with equal values in the order in which they stand. -/
def sorted (vs : List Value) : Value :=
  .list (vs.mergeSort fun a b => !b.before a)

/-- The values with the keys that an expression gives them, when the keys are all texts or all
numbers. -/
def keyed (apply : Apply) (e : Expr) (vs : List Value) : Option (List (Value × Value)) :=
  match vs.mapM fun v => (apply e v).map (v, ·) with
  | some kvs => if areComparable (kvs.map fun kv => kv.2) then some kvs else none
  | none => none

/-- A function of a list and the keys of its values. -/
def ofKeyed (f : List (Value × Value) → Value) (apply : Apply) : List Value → Result
  | [.list vs, .reference _ e] => (keyed apply e vs).map f
  | _ => none

/-- The first value whose key none exceeds, as `exceeds` tells. -/
def extremeBy (exceeds : Value → Value → Bool) : List (Value × Value) → Value
  | [] => .null
  | kv :: kvs => (kvs.foldl (fun a b => if exceeds b.2 a.2 then b else a) kv).1

/-- The values in ascending order of their keys. -/
def sortedBy (kvs : List (Value × Value)) : Value :=
  .list ((kvs.mergeSort fun a b => !b.2.before a.2).map fun kv => kv.1)

/-- The values of an expression at the items of a list. -/
def map (apply : Apply) : List Value → Result
  | [.reference _ e, .list vs] => (vs.mapM (apply e)).map .list
  | _ => none

/-! ## Types -/

/-- A list as it is, and all else as a list of one item. -/
def toArray : List Value → Result
  | [.list vs] => some (.list vs)
  | [v] => some (.list [v])
  | _ => none

/-- The number itself, or the value of a text that is JSON; null for all else. -/
def toNumber : List Value → Result
  | [.num n] => some (.num n)
  | [.str s] => some (((Json.parse? s).map Value.ofJson).getD .null)
  | [_] => some .null
  | _ => none

/-- A text as it is, and all else as JSON. -/
def toText : List Value → Result
  | [.str s] => some (.str s)
  | [v] => some (.str v.toJson.text)
  | _ => none

/-- The name of the type. -/
def typeOf : List Value → Result
  | [v] => some (.str v.type)
  | _ => none

end Builtin

open Builtin in
/-- The function of a name, applied to the values of its arguments. -/
def call (apply : Apply) (name : String) (vs : List Value) : Result :=
  match name with
  | "abs" => ofNumber Float.abs vs
  | "avg" => avg vs
  | "ceil" => ofNumber Float.ceil vs
  | "contains" => contains vs
  | "ends_with" => ofTexts (fun s t => t.isSuffixOf s) vs
  | "floor" => ofNumber Float.floor vs
  | "join" => join vs
  | "keys" => keys vs
  | "length" => length vs
  | "map" => Builtin.map apply vs
  | "max" => ofComparable greatest vs
  | "max_by" => ofKeyed (extremeBy fun a b => b.before a) apply vs
  | "merge" => merge vs
  | "min" => ofComparable least vs
  | "min_by" => ofKeyed (extremeBy fun a b => a.before b) apply vs
  | "not_null" => notNull vs
  | "reverse" => reverse vs
  | "sort" => ofComparable sorted vs
  | "sort_by" => ofKeyed sortedBy apply vs
  | "starts_with" => ofTexts (fun s t => t.isPrefixOf s) vs
  | "sum" => sum vs
  | "to_array" => toArray vs
  | "to_number" => toNumber vs
  | "to_string" => toText vs
  | "type" => typeOf vs
  | "values" => values vs
  | _ => none

end Parley.OutputPath
