/-
The world outside an agent, as a value: the host with the rounds of inference that it still has to
stream, the ways to reach tool servers, and records of all that was asked of either. Every step
that asks something gives a new world.
-/
import Parley.Host
import Parley.Mcp.Session
import Parley.Tool.Invocation

namespace Parley

/-- An item of a stream: a value, or the failure that interrupts it. -/
abbrev Item := Except Host.Error Json

/-- What the host does when it is asked for a stream: it refuses, or streams some items. -/
abbrev Round := Except Host.Error (List Item)

/-- The world outside. -/
structure World where
  host : Host
  connector : Mcp.Connector
  /-- The streams to come. -/
  rounds : List Round
  /-- Names for components, by the number of components before. -/
  freshId : Nat → String
  /-- How often something was asked outside. -/
  serial : Nat
  /-- How many components the host was asked to define. -/
  defined : Nat
  log : List Host.Request
  sessions : List (List Mcp.Asked)

namespace World

/-- The world after one question to the host. -/
def noting (w : World) (r : Host.Request) : World :=
  { w with serial := w.serial + 1, log := w.log ++ [r] }

/-- The world after a question to a tool server. -/
def notingSession (w : World) (s : List Mcp.Asked) : World :=
  { w with serial := w.serial + 1, sessions := w.sessions ++ [s] }

/-- Defines a component under a fresh name, which is given back. -/
def define (w : World) (type : String) (attrs : Json) : Except Host.Error String × World :=
  let id := w.freshId w.defined
  ((w.host.define w.serial type id attrs).map fun _ => id,
    { w.noting (.define type id attrs) with defined := w.defined + 1 })

/-- Releases a component. -/
def delete (w : World) (id : String) : Except Host.Error Unit × World :=
  (w.host.delete w.serial id, w.noting (.delete id))

/-- Calls a method of a component. -/
def callMethod (w : World) (id method : String) (args : Json) : Except Host.Error Json × World :=
  (w.host.callMethod w.serial id method args, w.noting (.callMethod method id args))

/-- Takes the next of the streams to come. -/
def stream (w : World) (id method : String) (args : Json) :
    Except Host.Error (List Item) × World :=
  match w.rounds with
  | [] => (.error (.stream "no more scripted rounds"), w.noting (.stream method id args))
  | r :: rounds => (r, { w.noting (.stream method id args) with rounds })

/-- Sends a request over HTTP. -/
def fetch (w : World) (r : Http.Request) : Except Host.Error Http.Response × World :=
  (w.host.fetch w.serial r, w.noting (.call Host.httpRequest r.toJson))

/-- The tools that a server advertises. -/
def listTools (w : World) (server : Mcp.Server) :
    Except Mcp.Error (List Mcp.RemoteTool) × World :=
  let (result, asked) := Mcp.listTools w.connector w.serial server
  (result, w.notingSession asked)

/-- The surroundings of the call at place `i` of a batch. -/
def context (w : World) (i : Nat) (callId : String) : Tool.Context :=
  ⟨w.host, w.connector, w.serial + i, callId⟩

/-- The world after a batch of calls. -/
def notingBatch (w : World) (is : List Tool.Invocation) : World :=
  { w with
    serial := w.serial + is.length
    log := w.log ++ is.flatMap Tool.Invocation.requests
    sessions := w.sessions ++ is.flatMap Tool.Invocation.sessions }

end World

end Parley
