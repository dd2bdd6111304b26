/-
Definitions of tools as preset files hold them: a tool is a capability of the host, or a request
over HTTP with templates for its address and its body.
-/
import Parley.Definition.Error
import Parley.Http.Request
import Parley.OutputPath
import Parley.Text.Blank
import Parley.Tool.Description

namespace Parley

open Json

namespace Definition

/-- The methods of requests. -/
inductive Method where
  | get
  | post
  | put
  | delete
  deriving DecidableEq, Repr

/-- A method as requests name it. -/
def Method.name : Method → String
  | .get => "GET"
  | .post => "POST"
  | .put => "PUT"
  | .delete => "DELETE"

/-- Reads a method, which stands in a definition. -/
def Method.decode : Decode Method :=
  Decode.choice .underTag ([Method.get, .post, .put, .delete].map fun m => (m.name, m))

/-- The ways in which a request may have to be authenticated. -/
inductive Scheme where
  | bearer
  deriving DecidableEq, Repr

/-- A scheme as definitions name it. -/
def Scheme.name : Scheme → String
  | .bearer => "bearer"

/-- Reads a scheme, which stands in a definition. -/
def Scheme.decode : Decode Scheme := Decode.choice .underTag [(Scheme.bearer.name, .bearer)]

/-- What a tool of the host does with the answer. -/
structure Capability where
  outputPath : Option String
  deriving DecidableEq, Repr

/-- How a tool makes a request of its arguments. -/
structure Rest where
  baseUrl : String
  method : Method
  headers : Dictionary String
  body : Option String
  authentication : Option Scheme
  outputPath : Option String
  deriving DecidableEq, Repr

/-- The two spellings of the field that holds an output path. -/
def outputPathNames : List String := ["outputPath", "output_path"]

namespace Capability

/-- Reads what a tool of the host does. -/
def decode : Decode Capability :=
  Fields.decode (Capability.mk <$> Fields.optional outputPathNames Decode.string)

/-- What a tool of the host does, in JSON. -/
def toJson (b : Capability) : Json :=
  .obj (Members.compact [("outputPath", b.outputPath.map .str)])

end Capability

namespace Rest

/-- Reads how a request is made; the address and the path of the output have two spellings each. -/
def decode : Decode Rest :=
  Fields.decode
    (Rest.mk <$> Fields.field ["baseURL", "base_url"] Decode.string none none
      <*> Fields.required "method" Method.decode
      <*> Fields.defaulted ["headers"] Http.decodeTexts []
      <*> Fields.optional ["body"] Decode.string
      <*> Fields.optional ["authentication"] Scheme.decode
      <*> Fields.optional outputPathNames Decode.string)

/-- How a request is made, in JSON. -/
def toJson (b : Rest) : Json :=
  .obj (Members.compact
    [("baseURL", some (.str b.baseUrl)), ("method", some (.str b.method.name)),
      ("headers", some (Http.textsToJson b.headers)), ("body", b.body.map .str),
      ("authentication", b.authentication.map fun s => .str s.name),
      ("outputPath", b.outputPath.map .str)])

end Rest

end Definition

/-- The definition of a tool. -/
inductive Definition where
  | universal (description : Tool.Description) (behavior : Definition.Capability)
  | restApi (description : Tool.Description) (behavior : Definition.Rest)
  deriving DecidableEq, Repr

namespace Definition

/-- The type of tools that are capabilities of the host. -/
def universalType : String := "universal"

/-- The type of tools that send requests. -/
def restApiType : String := "restapi"

/-- The type of a definition. -/
def typeName : Definition → String
  | .universal _ _ => universalType
  | .restApi _ _ => restApiType

/-- The description of the tool. -/
def description : Definition → Tool.Description
  | .universal d _ | .restApi d _ => d

/-- The name of the tool. -/
def name (d : Definition) : String := d.description.name

/-- The text of the output path, if there is one. -/
def outputPath : Definition → Option String
  | .universal _ b => b.outputPath
  | .restApi _ b => b.outputPath

/-! ## Wire form -/

/-- A definition in JSON, with its type first. -/
def toJson (d : Definition) : Json :=
  .obj [("type", .str d.typeName), ("description", d.description.toJson),
    ("behavior", match d with
      | .universal _ b => b.toJson
      | .restApi _ b => b.toJson)]

/-- The fields of a definition of the given type. -/
def form (type : String) : Option (Decode Definition) :=
  if type = universalType then
    some (Fields.decode
      (.universal <$> Fields.required "description" (Tool.Description.decodeAt .underTag)
        <*> Fields.defaulted ["behavior"] Capability.decode ⟨none⟩))
  else if type = restApiType then
    some (Fields.decode
      (.restApi <$> Fields.required "description" (Tool.Description.decodeAt .underTag)
        <*> Fields.required "behavior" Rest.decode))
  else none

/-- Reads a definition of a known type. -/
def decode : Decode Definition := Decode.tagged "type" form

/-- The name that a value gives to a tool, for the report of a fault in the value. -/
def givenName (v : Json) : String :=
  (((v.get? "description").bind fun d => d.get? "name").bind Json.str?).getD "<unnamed>"

/-- The definition that a value holds. -/
def ofJson (v : Json) : Except Error Definition :=
  match decode v with
  | .ok d => .ok d
  | .error e => .error (.malformed (givenName v) e.message)

/-! ## Parts -/

/-- The parts of a definition that is for a capability of the host. -/
def universal? : Definition → Except Error (Tool.Description × Capability)
  | .universal d b => .ok (d, b)
  | d => .error (.wrongType universalType d.typeName)

/-- The parts of a definition that is for a request. -/
def restApi? : Definition → Except Error (Tool.Description × Rest)
  | .restApi d b => .ok (d, b)
  | d => .error (.wrongType restApiType d.typeName)

/-! ## Validity -/

/-- The output path of a definition, if it has one. -/
def compilePath : Option String → Except Error (Option OutputPath)
  | none => .ok none
  | some s =>
    match OutputPath.compile s with
    | .ok p => .ok (some p)
    | .error e => .error (.invalidOutputPath s e.message)

/-- Whether a definition asks for a request to a blank address. -/
def lacksUrl : Definition → Bool
  | .universal _ _ => false
  | .restApi _ b => Text.isBlankText b.baseUrl

/-- All that can be checked before the first call: the name, the address, the output path. -/
def validate (d : Definition) : Except Error Unit :=
  if Text.isBlankText d.name then .error (.malformed "" "tool name is empty")
  else if d.lacksUrl then .error (.malformed d.name "baseURL is empty")
  else (compilePath d.outputPath).map fun _ => ()

end Definition

end Parley
