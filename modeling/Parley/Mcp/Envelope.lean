/-
The envelopes of messages between an agent and a tool server: requests, notifications, and the
responses to requests.
-/
import Parley.Json.Decode
import Parley.Json.Printer
import Parley.Mcp.Error

namespace Parley.Mcp

open Json

/-- A message to a server; one without a number is never answered. -/
structure Envelope where
  id : Option Nat
  method : String
  params : Option Json
  deriving DecidableEq, Repr

namespace Envelope

/-- A message that is to be answered under a number. -/
def request (id : Nat) (method : String) (params : Option Json) : Envelope :=
  ⟨some id, method, params⟩

/-- A message that is not to be answered. -/
def notification (method : String) (params : Option Json) : Envelope :=
  ⟨none, method, params⟩

/-- A message in JSON. -/
def toJson (e : Envelope) : Json :=
  .obj (Members.compact
    [("jsonrpc", some (.str "2.0")), ("id", e.id.map .ofNat), ("method", some (.str e.method)),
      ("params", e.params)])

end Envelope

/-- An error that a server answers with. -/
structure ServerFault where
  code : Int
  message : String
  deriving DecidableEq, Repr

/-- Reads the error of a server. -/
def ServerFault.decode : Decode ServerFault :=
  Fields.decode
    (ServerFault.mk <$> Fields.required "code"
        (Decode.integer (-Int.ofNat (Nat.pow 2 63)) (Int.ofNat (Nat.pow 2 63) - 1))
      <*> Fields.required "message" Decode.string)

/-- A message from a server. -/
structure Response where
  id : Option Nat
  result : Option Json
  error : Option ServerFault
  deriving DecidableEq, Repr

namespace Response

/-- Reads a response; members of other names are skipped. -/
def decode : Decode Response :=
  Fields.decode
    (Response.mk <$> Fields.optional ["id"] (Decode.natural 64)
      <*> Fields.optional ["result"] (fun v => .ok v.collapse)
      <*> Fields.optional ["error"] ServerFault.decode)

/-- The value of a text that is read for the fields of a response. -/
def value? (s : String) : Option Json :=
  parseAs? (Parser.record [("id", Parser.whole), ("result", Parser.whole),
    ("error", Parser.record [("code", Parser.whole), ("message", Parser.whole)])]) s

/-- The response that a text holds; a field given twice makes it none. -/
def ofText? (s : String) : Option Response :=
  (value? s).bind fun v => (decode v).toOption

/-- The result of a response, which must have one unless it has an error. -/
def outcome (r : Response) : Except Error Json :=
  match r.error, r.result with
  | some e, _ => .error (.server e.code e.message)
  | none, some v => .ok v
  | none, none => .error (.server (-32603) "response missing both result and error")

end Response

end Parley.Mcp
