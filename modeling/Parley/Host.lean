/-
The host: the engine that runs components, such as language models, and offers capabilities, such
as requests over HTTP. Its answers may depend on when they are asked for, which `serial` counts.
-/
import Parley.Host.Error
import Parley.Http.Request
import Parley.Json.Printer

namespace Parley

/-- What a host is asked to do. -/
inductive Host.Request where
  | define (type id : String) (attrs : Json)
  | delete (id : String)
  | call (capability : String) (args : Json)
  | callMethod (method id : String) (args : Json)
  | stream (method id : String) (args : Json)
  deriving DecidableEq, Repr

/-- A host, by its answers. -/
structure Host where
  define : (serial : Nat) → (type id : String) → (attrs : Json) → Except Host.Error Unit
  delete : (serial : Nat) → (id : String) → Except Host.Error Unit
  call : (serial : Nat) → (capability : String) → (args : Json) → Except Host.Error Json
  callMethod : (serial : Nat) → (id method : String) → (args : Json) → Except Host.Error Json

namespace Host

/-- The capability of sending requests. -/
def httpRequest : String := "http_request"

/-- Has the host send a request, and reads its answer. -/
def fetch (h : Host) (serial : Nat) (r : Http.Request) : Except Error Http.Response :=
  match h.call serial httpRequest r.toJson with
  | .error e => .error e
  | .ok v =>
    match Http.Response.decode v with
    | .ok response => .ok response
    | .error e => .error (.call httpRequest ("malformed response: " ++ e.message))

end Host

end Parley
