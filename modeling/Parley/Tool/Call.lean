/-
Calls of tools as the model asks for them. The arguments are an object, which the model may also
send as the text of one.
-/
import Parley.Json.Decode
import Parley.Json.Printer
import Parley.Text.Blank

namespace Parley

/-- The arguments of a call, by name and in the order in which they were given. -/
abbrev Arguments := Json.Members

/-- A call of a tool. -/
structure ToolCall where
  id : String
  kind : String
  name : String
  arguments : Arguments
  deriving DecidableEq, Repr

namespace ToolCall

open Json

/-- The kind of a call that names none. -/
def defaultKind : String := "function"

/-- A call of the usual kind. -/
def new (id name : String) (arguments : Arguments) : ToolCall :=
  ⟨id, defaultKind, name, arguments⟩

/-- Arguments are an object, the text of one, or nothing: `null` or a blank text. -/
def decodeArguments : Decode Arguments
  | .obj ms => .ok ms
  | .null => .ok []
  | .str s =>
    if Text.isBlankText s then .ok []
    else
      match parse? s with
      | some (.obj ms) => .ok ms
      | some _ => .error (.unexpected "the text of an object")
      | none => .error .noJson
  | v => .error (.refused ("tool arguments must be an object, got " ++ v.text))

/-- The tool that is called and what it gets. -/
def decodeFunction : Decode (String × Arguments) :=
  Fields.decode
    (Prod.mk <$> Fields.required "name" Decode.string
      <*> Fields.defaulted ["arguments"] decodeArguments [])

/-- Reads a call. -/
def decode : Decode ToolCall :=
  Fields.decode
    ((fun id kind f => ToolCall.mk id kind f.1 f.2)
      <$> Fields.required "id" Decode.string
      <*> Fields.defaulted ["type"] Decode.string defaultKind
      <*> Fields.required "function" decodeFunction)

/-- A call in JSON. -/
def toJson (c : ToolCall) : Json :=
  .obj [("id", .str c.id), ("type", .str c.kind),
    ("function", .obj [("name", .str c.name), ("arguments", .obj c.arguments)])]

end ToolCall

end Parley
