/-
TOML values: what a document holds, apart from the way it is laid out.
-/
import Parley.Decimal.Binary64
import Parley.Json.Basic

namespace Parley

/-- A TOML value. -/
inductive Toml where
  | str (value : String)
  | int (value : Int)
  | float (value : Decimal.Binary64)
  | bool (value : Bool)
  /-- A date, a time or both, as a text of one fixed form. -/
  | date (text : String)
  | arr (items : List Toml)
  | table (entries : List (String × Toml))
  deriving Repr, Inhabited

namespace Toml

/-- The name under which a date shows where a record is wanted. -/
def dateName : String := "$__toml_private_datetime"

mutual

/-- The value in JSON; a date is an object that holds its text. -/
def toJson : Toml → Json
  | .str s => .str s
  | .int n => .num (.int n)
  | .float x => .num (.double x)
  | .bool b => .bool b
  | .date text => .obj [(dateName, .str text)]
  | .arr vs => .arr (itemsToJson vs)
  | .table es => .obj (entriesToJson es)

/-- The items of a list in JSON. -/
def itemsToJson : List Toml → List Json
  | [] => []
  | v :: vs => toJson v :: itemsToJson vs

/-- The entries of a table in JSON. -/
def entriesToJson : List (String × Toml) → Json.Members
  | [] => []
  | (k, v) :: es => (k, toJson v) :: entriesToJson es

end

end Toml

end Parley
