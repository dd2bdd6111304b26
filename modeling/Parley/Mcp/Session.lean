/-
Sessions with tool servers. Every listing and every call has a session of its own, which is
closed whatever the outcome; a failing close changes nothing.
-/
import Parley.Mcp.Error
import Parley.Mcp.Server
import Parley.Tool.Call

namespace Parley.Mcp

/-- An open session, by the server's answers. -/
structure Session where
  handshake : Except Error Unit
  list : Except Error (List RemoteTool)
  call : (name : String) → Arguments → Except Error CallResult
  close : Except Error Unit

/-- A way to open sessions; what comes of it may depend on when it is tried. -/
abbrev Connector := (serial : Nat) → Server → Except Error Session

/-- What is asked of a server. -/
inductive Asked where
  | connect (server : Server)
  /-- The connection failed. -/
  | refused
  | handshake
  | list
  | call (name : String) (arguments : Arguments)
  | close
  deriving DecidableEq, Repr

/-- Works in a session of its own: the result, and all that is asked of the server. -/
def inSession {α : Type} (connection : Except Error Session) (server : Server) (question : Asked)
    (work : Session → Except Error α) : Except Error α × List Asked :=
  match connection with
  | .error e => (.error e, [.connect server, .refused])
  | .ok s =>
    match s.handshake with
    | .error e => (.error e, [.connect server, .handshake, .close])
    | .ok () => (work s, [.connect server, .handshake, question, .close])

/-- The tools that a server advertises. -/
def listTools (connector : Connector) (serial : Nat) (server : Server) :
    Except Error (List RemoteTool) × List Asked :=
  inSession (connector serial server) server .list fun s => s.list

/-- A call of a tool of a server. -/
def callTool (connector : Connector) (serial : Nat) (server : Server) (name : String)
    (arguments : Arguments) : Except Error CallResult × List Asked :=
  inSession (connector serial server) server (.call name arguments) fun s => s.call name arguments

end Parley.Mcp
