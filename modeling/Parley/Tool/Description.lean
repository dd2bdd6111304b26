/-
What the model is told about a tool: its name, what it does, the schema of its parameters and of
what it returns.
-/
import Parley.Json.Decode

namespace Parley.Tool

open Json

/-- The schema of one parameter; `extra` holds the members other than type and description. -/
structure Property where
  kind : Option Json
  description : Option String
  extra : Members
  deriving DecidableEq, Repr

/-- The schema of the parameters of a tool, in order of declaration, and the names of those that
a call has to give. -/
structure Parameters where
  properties : List (String × Property)
  required : List String
  deriving DecidableEq, Repr

/-- The description of a tool. -/
structure Description where
  name : String
  description : String
  parameters : Parameters
  returns : Option Json
  deriving DecidableEq, Repr

namespace Property

/-- Reads the schema of a parameter. -/
def decode : Decode Property := fun v =>
  let known := Fields.decodeObject
    (Prod.mk <$> Fields.optional ["type"] Decode.any
      <*> Fields.optional ["description"] Decode.string) v
  match known, v with
  | .ok (kind, description), .obj ms =>
    .ok ⟨kind, description, ms.filter fun m => m.1 ≠ "type" && m.1 ≠ "description"⟩
  | .ok _, _ => .error (.unexpected "an object")
  | .error e, _ => .error e

/-- The schema of a parameter in JSON. -/
def toJson (p : Property) : Json :=
  .obj (Members.compact [("type", p.kind), ("description", p.description.map .str)] ++ p.extra)

end Property

namespace Parameters

/-- No parameter at all. -/
def none : Parameters := ⟨[], []⟩

/-- The type of the arguments as a whole, which are always an object. -/
def decodeKind (place : Decode.Place) : Decode Unit := Decode.choice place [("object", ())]

/-- Reads the schema of the parameters at its place. -/
def decodeAt (place : Decode.Place) : Decode Parameters :=
  Fields.decode
    ((fun _ properties required => Parameters.mk properties required)
      <$> Fields.defaulted ["type"] (decodeKind place) ()
      <*> Fields.defaulted ["properties"] (Decode.dictionary Property.decode) []
      <*> Fields.defaulted ["required"] (Decode.list Decode.string) [])

/-- Reads the schema of the parameters. -/
def decode : Decode Parameters := decodeAt .alone

/-- The schema of the parameters in JSON. -/
def toJson (p : Parameters) : Json :=
  .obj [("type", .str "object"),
    ("properties", .obj (p.properties.map fun (k, v) => (k, v.toJson))),
    ("required", .arr (p.required.map .str))]

end Parameters

namespace Description

/-- Reads a description at its place. -/
def decodeAt (place : Decode.Place) : Decode Description :=
  Fields.decode
    (Description.mk <$> Fields.required "name" Decode.string
      <*> Fields.defaulted ["description"] Decode.string ""
      <*> Fields.defaulted ["parameters"] (Parameters.decodeAt place) Parameters.none
      <*> Fields.optional ["return", "return_type"] Decode.any)

/-- Reads a description. -/
def decode : Decode Description := decodeAt .alone

/-- A description in JSON. -/
def toJson (d : Description) : Json :=
  .obj (Members.compact
    [("name", some (.str d.name)), ("description", some (.str d.description)),
      ("parameters", some d.parameters.toJson), ("return", d.returns)])

/-- The entry of a tool in a request to the model. -/
def functionSpec (d : Description) : Json :=
  .obj [("type", .str "function"), ("function", d.toJson)]

end Description

end Parley.Tool
