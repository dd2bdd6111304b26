/-
Sessions over the standard input and output of a server, with one message a line. What the server
writes is a list of lines, read in order and each at most once; a line that is no response to the
pending request is skipped.
-/
import Parley.Mcp.Envelope
import Parley.Mcp.Session
import Parley.Text.Blank

namespace Parley.Mcp.Stdio

open Json

/-- A line of output, which may be no text. -/
inductive Line where
  | text (s : String)
  | noText
  deriving DecidableEq, Repr

/-- A session: the name of the server, what it still has to write, the number of the next request
and the messages sent so far. -/
structure State where
  server : String
  output : List Line
  nextId : Nat
  sent : List Envelope
  deriving DecidableEq, Repr

/-- A session before its first message. -/
def State.new (server : String) (output : List Line) : State :=
  ⟨server, output, 1, []⟩

/-- Reads up to the response with the given number: its outcome, and what is left to read. -/
def await (server : String) (id : Nat) : List Line → Except Error Json × List Line
  | [] => (.error (.transport server "server stdout closed (process may have exited)"), [])
  | .noText :: rest =>
    (.error (.transport server "failed to read from stdout: the line is not UTF-8"), rest)
  | .text s :: rest =>
    match Response.ofText? (Text.trim s) with
    | some r => if r.id = some id then (r.outcome, rest) else await server id rest
    | none => await server id rest

namespace State

/-- Sends a request and waits for its outcome. -/
def request (st : State) (method : String) (params : Json) : Except Error Json × State :=
  let (outcome, rest) := await st.server st.nextId st.output
  (outcome,
    { st with
      output := rest
      nextId := st.nextId + 1
      sent := st.sent ++ [.request st.nextId method (some params)] })

/-- Sends a message that is not answered. -/
def notify (st : State) (method : String) : State :=
  { st with sent := st.sent ++ [.notification method none] }

/-- What the agent says about itself. -/
def greeting : Json :=
  .obj [("protocolVersion", .str "2024-11-05"), ("capabilities", .obj []),
    ("clientInfo", .obj [("name", .str "toolweave"), ("version", .str "0.1.0")])]

/-- Opens the conversation with the server. -/
def handshake (st : State) : Except Error Unit × State :=
  match st.request "initialize" greeting with
  | (.ok _, st) => (.ok (), st.notify "notifications/initialized")
  | (.error e, st) => (.error e, st)

/-- The parameters that ask for the page at a cursor. -/
def pageParams : Option String → Json
  | none => .obj []
  | some c => .obj [("cursor", .str c)]

/-- All pages from a cursor on; every page takes a line of output, so `fuel` is their number. -/
def pages : (fuel : Nat) → Option String → State → Except Error (List RemoteTool) × State
  | fuel, cursor, st =>
    match st.request "tools/list" (pageParams cursor) with
    | (.error e, st) => (.error e, st)
    | (.ok v, st) =>
      match Page.decode v with
      | .error e =>
        (.error (.protocol st.server ("malformed tools/list result: " ++ e.message)), st)
      | .ok page =>
        match page.next?, fuel with
        | some c, fuel + 1 =>
          match pages fuel (some c) st with
          | (.ok tools, st) => (.ok (page.tools ++ tools), st)
          | (.error e, st) => (.error e, st)
        | _, _ => (.ok page.tools, st)

/-- The tools that the server advertises. -/
def list (st : State) : Except Error (List RemoteTool) × State :=
  pages st.output.length none st

/-- A call of a tool. -/
def call (st : State) (name : String) (arguments : Arguments) : Except Error CallResult × State :=
  match st.request "tools/call" (.obj [("name", .str name), ("arguments", .obj arguments)]) with
  | (.error e, st) => (.error e, st)
  | (.ok v, st) =>
    match CallResult.decode v with
    | .ok r => (.ok r, st)
    | .error e => (.error (.protocol st.server ("malformed tools/call result: " ++ e.message)), st)

end State

/-- The session of a server that writes the given lines. -/
def session (server : String) (output : List Line) : Session :=
  let (handshake, st) := (State.new server output).handshake
  { handshake
    list := st.list.1
    call := fun name arguments => (st.call name arguments).1
    close := .ok () }

end Parley.Mcp.Stdio
