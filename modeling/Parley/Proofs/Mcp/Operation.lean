/-
Operations on tool servers. A server is asked for its tools or to run one of them, each in a session
of its own (`Operation.run`); over standard input and output the session is a conversation with what
the server writes (`Operation.converse`).
-/
import Parley.Mcp.Stdio

namespace Parley.Mcp

/-- What a session is opened for. -/
inductive Operation where
  | list
  | call (name : String) (arguments : Arguments)
  deriving DecidableEq

inductive Answer where
  | tools (ts : List RemoteTool)
  | result (r : CallResult)
  deriving DecidableEq

namespace Operation

/-- What the operation asks of a server that took up the session. -/
def question : Operation → Asked
  | .list => .list
  | .call name arguments => .call name arguments

def answer (op : Operation) (s : Session) : Except Error Answer :=
  match op with
  | .list => s.list.map .tools
  | .call name arguments => (s.call name arguments).map .result

/-- The operation in a session of its own: its result, and all that is asked of the server. -/
def run (op : Operation) (connection : Except Error Session) (server : Server) :
    Except Error Answer × List Asked :=
  inSession connection server op.question op.answer

theorem listTools_run (connector : Connector) (serial : Nat) (server : Server) :
    ((listTools connector serial server).1.map .tools, (listTools connector serial server).2) =
      list.run (connector serial server) server := by
  unfold listTools run inSession
  cases connector serial server with
  | error e => rfl
  | ok s =>
    dsimp only
    cases s.handshake <;> rfl

theorem callTool_run (connector : Connector) (serial : Nat) (server : Server) (name : String)
    (arguments : Arguments) :
    ((callTool connector serial server name arguments).1.map .result,
        (callTool connector serial server name arguments).2) =
      (call name arguments).run (connector serial server) server := by
  unfold callTool run inSession
  cases connector serial server with
  | error e => rfl
  | ok s =>
    dsimp only
    cases s.handshake <;> rfl

/-! ## Over standard input and output -/

open Stdio

def work (op : Operation) (st : State) : Except Error Answer × State :=
  match op with
  | .list => (st.list.1.map .tools, st.list.2)
  | .call name arguments => ((st.call name arguments).1.map .result, (st.call name arguments).2)

/-- The operation with a server that writes the given lines: its result, and the session behind
it. -/
def converse (op : Operation) (server : String) (output : List Line) :
    Except Error Answer × State :=
  match (State.new server output).handshake with
  | (.error e, st) => (.error e, st)
  | (.ok (), st) => op.work st

/-- A session over standard input and output answers what comes of the conversation. -/
theorem run_session (op : Operation) (server : Server) (output : List Line) :
    (op.run (.ok (session server.command output)) server).1 =
      (op.converse server.command output).1 := by
  unfold run inSession converse session
  rcases (State.new server.command output).handshake with ⟨⟨e⟩ | ⟨⟩, st⟩
  · rfl
  · cases op <;> rfl

end Operation

end Parley.Mcp
