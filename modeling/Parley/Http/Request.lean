/-
Requests over HTTP and the answers to them, as the host is asked for them.
-/
import Parley.Dictionary
import Parley.Json.Decode

namespace Parley.Http

open Json

/-- A request. -/
structure Request where
  url : String
  method : String
  headers : Dictionary String
  body : Option String
  deriving DecidableEq, Repr

/-- An answer; `extra` holds all that the host says beside the body. -/
structure Response where
  body : String
  extra : Members
  deriving DecidableEq, Repr

/-- A dictionary of texts. -/
def decodeTexts : Decode (Dictionary String) := fun v =>
  (Decode.dictionary Decode.string v).map Dictionary.ofEntries

/-- A dictionary of texts as an object. -/
def textsToJson (d : Dictionary String) : Json :=
  .obj (d.map fun e => (e.1, .str e.2))

namespace Request

/-- Reads a request. -/
def decode : Decode Request :=
  Fields.decode
    (Request.mk <$> Fields.required "url" Decode.string
      <*> Fields.required "method" Decode.string
      <*> Fields.defaulted ["headers"] decodeTexts []
      <*> Fields.optional ["body"] Decode.string)

/-- A request in JSON. -/
def toJson (r : Request) : Json :=
  .obj (Members.compact
    [("url", some (.str r.url)), ("method", some (.str r.method)),
      ("headers", some (textsToJson r.headers)), ("body", r.body.map .str)])

end Request

/-- Reads an answer, which needs a body. -/
def Response.decode : Decode Response := fun v =>
  match Fields.decodeObject (Fields.required "body" Decode.string) v, v with
  | .ok body, .obj ms => .ok ⟨body, ms.filter fun m => m.1 ≠ "body"⟩
  | .ok _, _ => .error (.unexpected "an object")
  | .error e, _ => .error e

end Parley.Http
