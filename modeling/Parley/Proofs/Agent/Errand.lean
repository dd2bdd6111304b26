/-
Errands of an agent at tool servers: it lists the tools of a server, registers them, or runs a
batch of calls, one errand after the other. Each listing, each registration and each call of a tool
of a server is a job with a session of its own.

The jobs of an errand are read off the agent and the world as they are when it begins
(`Visit.jobs`); the sessions of all of them are scoped, whatever the servers do and however the jobs
are interleaved (`errands_scoped`).
-/
import Parley.Proofs.Agent.Schedule
import Parley.Proofs.Mcp.Scope
import Mathlib.Data.List.Basic

namespace Parley

open Chat Mcp

/-! ## Closing -/

section Closing

variable (close : Nat → Mcp.Server → Except Mcp.Error Unit)

/-- Sessions that differ in what comes of closing them. -/
def Mcp.Connector.closing (k : Connector) : Connector := fun serial server =>
  (k serial server).map fun s => { s with close := close serial server }

def World.closing (w : World) : World := { w with connector := w.connector.closing close }

/-- Work that does not close the session does not see what comes of closing it. -/
theorem Mcp.inSession_closing {α : Type} (connection : Except Mcp.Error Session) (server : Server)
    (question : Asked) {work : Session → Except Mcp.Error α} (c : Except Mcp.Error Unit)
    (h : ∀ s : Session, work { s with close := c } = work s) :
    inSession (connection.map fun s => { s with close := c }) server question work =
      inSession connection server question work := by
  unfold inSession
  cases connection with
  | error e => rfl
  | ok s => simp only [Except.map, h]

theorem Mcp.listTools_closing (k : Connector) (serial : Nat) (server : Server) :
    listTools (k.closing close) serial server = listTools k serial server :=
  inSession_closing _ _ _ _ fun _ => rfl

theorem Mcp.callTool_closing (k : Connector) (serial : Nat) (server : Server) (name : String)
    (args : Arguments) :
    callTool (k.closing close) serial server name args = callTool k serial server name args :=
  inSession_closing _ _ _ _ fun _ => rfl

end Closing

namespace Agent

/-! ## Errands -/

/-- Something that an agent does with tool servers. -/
inductive Errand where
  | listing (server : Mcp.Server)
  | registration (server : Mcp.Server) (filter : Option (List String))
  | batch (calls : List ToolCall)

inductive Report where
  | listed (r : Except Mcp.Error (List RemoteTool))
  | registered (r : Except Error (List RemoteTool))
  | outcomes (os : List Outcome)

def Errand.run (e : Errand) (a : Agent) (w : World) : Report × Agent × World :=
  match e with
  | .listing server => (.listed (w.listTools server).1, a, (w.listTools server).2)
  | .registration server filter =>
    (.registered (a.addServer w server filter).1, (a.addServer w server filter).2)
  | .batch calls => (.outcomes (a.dispatch w calls).1, a, (a.dispatch w calls).2)

/-- How many listings and calls an errand consists of. -/
def Errand.size : Errand → Nat
  | .listing _ | .registration _ _ => 1
  | .batch calls => calls.length

/-- An errand, and the agent and the world when it begins. -/
structure Visit where
  errand : Errand
  agent : Agent
  world : World

def visits : List Errand → Agent → World → List Visit
  | [], _, _ => []
  | e :: es, a, w => ⟨e, a, w⟩ :: visits es (e.run a w).2.1 (e.run a w).2.2

/-- The agent and the world behind a sequence of errands. -/
def behind : List Errand → Agent → World → Agent × World
  | [], a, w => (a, w)
  | e :: es, a, w => behind es (e.run a w).2.1 (e.run a w).2.2

/-! ## Jobs -/

def listingJob (w : World) (server : Mcp.Server) : Job :=
  ⟨.list, server, w.connector w.serial server⟩

/-- The job of the call at place `i` of a batch. -/
def callJob (w : World) (i : Nat) (d : Tool.Description) (server : Mcp.Server) (c : ToolCall) :
    Job :=
  ⟨.call d.name c.arguments, server, w.connector (w.serial + i) server⟩

/-- The job of a call, if it is for a tool of a server. -/
def callJob? (a : Agent) (w : World) (i : Nat) (c : ToolCall) : Option Job :=
  match a.tools.find c.name with
  | .ok (.remote d server) => some (callJob w i d server c)
  | _ => none

namespace Visit

def report (v : Visit) : Report := (v.errand.run v.agent v.world).1

/-- The job of each listing and each call of the errand, in order. -/
def slots (v : Visit) : List (Option Job) :=
  match v.errand with
  | .listing server | .registration server _ => [some (listingJob v.world server)]
  | .batch calls => calls.zipIdx.map fun c => callJob? v.agent v.world c.2 c.1

def jobs (v : Visit) : List Job := v.slots.filterMap id

theorem slots_length (v : Visit) : v.slots.length = v.errand.size := by
  obtain ⟨e, a, w⟩ := v
  cases e with
  | listing server | registration server filter => rfl
  | batch calls => exact (List.length_map _).trans List.length_zipIdx

end Visit

/-- The jobs of a sequence of errands. -/
def jobs (es : List Errand) (a : Agent) (w : World) : List Job := (visits es a w).flatMap Visit.jobs

/-- The value of a call of a tool of a server. -/
def told (d : Tool.Description) (callId : String) : Except Mcp.Error CallResult →
    Except Tool.Error Json
  | .error e => .error (Tool.remoteFailure d callId e)
  | .ok r => Tool.remoteResult d callId r

/-- An errand reports what its jobs return. -/
inductive Tells (a : Agent) (w : World) : Errand → Report → Prop
  | listing {server : Mcp.Server} {r : Except Mcp.Error (List RemoteTool)} :
    (listingJob w server).result = r.map .tools → Tells a w (.listing server) (.listed r)
  | unlisted {server : Mcp.Server} {filter : Option (List String)} {e : Mcp.Error} :
    (listingJob w server).result = .error e →
    Tells a w (.registration server filter) (.registered (.error (.mcp e)))
  | registration {server : Mcp.Server} {filter : Option (List String)} {ts : List RemoteTool} :
    (listingJob w server).result = .ok (.tools ts) →
    Tells a w (.registration server filter)
      (.registered ((a.addRemotes server (ts.filter (passes filter))).1.map fun _ => ts))
  | batch {calls : List ToolCall} {os : List Outcome} :
    (∀ i c d server, calls[i]? = some c → a.tools.find c.name = .ok (.remote d server) →
      ∃ r, (callJob w i d server c).result = r.map .result ∧
        os[i]? = some (.of c (.returned (told d c.id r)))) →
    Tells a w (.batch calls) (.outcomes os)

/-! ## One errand -/

theorem listingJob_result (w : World) (server : Mcp.Server) :
    (listingJob w server).result = (w.listTools server).1.map .tools :=
  congrArg Prod.fst (Operation.listTools_run w.connector w.serial server).symm

theorem listTools_world (w : World) (server : Mcp.Server) :
    (w.listTools server).2 = w.notingSession (listingJob w server).asked :=
  congrArg w.notingSession
    (congrArg Prod.snd (Operation.listTools_run w.connector w.serial server))

theorem perform_remote {a : Agent} {c : ToolCall} {d : Tool.Description} {server : Mcp.Server}
    (h : a.tools.find c.name = .ok (.remote d server)) (w : World) (i : Nat) :
    ∃ r, (callJob w i d server c).result = r.map .result ∧
      a.perform w i c = ⟨.returned (told d c.id r), [], [(callJob w i d server c).asked], []⟩ := by
  refine ⟨(callTool w.connector (w.serial + i) server d.name c.arguments).1, ?_, ?_⟩
  · unfold callJob Job.result
    rw [← Operation.callTool_run]
  · unfold callJob Job.asked perform
    rw [h, ← Operation.callTool_run]
    simp only [Tool.invoke, Tool.callRemote, World.context]
    cases (callTool w.connector (w.serial + i) server d.name c.arguments).1 <;> rfl

theorem perform_sessions (a : Agent) (w : World) (i : Nat) (c : ToolCall) :
    (a.perform w i c).sessions = ((a.callJob? w i c).map Job.asked).toList := by
  unfold callJob?
  cases h : a.tools.find c.name with
  | error e =>
    unfold perform
    rw [h]
    rfl
  | ok t =>
    cases t with
    | remote d server =>
      obtain ⟨r, -, hp⟩ := perform_remote h w i
      rw [hp]
      rfl
    | rest d b path auth =>
      unfold perform
      rw [h]
      rfl
    | function d run | universal d path =>
      unfold perform
      rw [h]
      simp only [Tool.invoke]
      cases Tool.missing? d c.arguments <;> rfl

theorem addServer_world (a : Agent) (w : World) (server : Mcp.Server)
    (filter : Option (List String)) :
    (a.addServer w server filter).2.2 = (w.listTools server).2 := by
  unfold addServer
  rcases w.listTools server with ⟨⟨e⟩ | ⟨ts⟩, w'⟩
  · rfl
  · dsimp only
    split <;> rfl

/-- The servers are asked for an errand what is asked for its jobs. -/
theorem Errand.run_sessions (e : Errand) (a : Agent) (w : World) :
    (e.run a w).2.2.sessions = w.sessions ++ (Visit.jobs ⟨e, a, w⟩).map Job.asked := by
  cases e with
  | listing server =>
    exact congrArg World.sessions (listTools_world w server)
  | registration server filter =>
    have hw := (addServer_world a w server filter).trans (listTools_world w server)
    exact congrArg World.sessions hw
  | batch calls =>
    show (a.dispatch w calls).2.sessions = _
    rw [dispatch_eq]
    show w.sessions ++ (invocations a w calls).flatMap Tool.Invocation.sessions = _
    congr 1
    unfold invocations Visit.jobs Visit.slots
    dsimp only
    rw [List.flatMap_map, List.filterMap_map, List.map_filterMap, List.filterMap_eq_flatMap_toList]
    simp only [perform_sessions]
    rfl

theorem tells_run (e : Errand) (a : Agent) (w : World) : Tells a w e (e.run a w).1 := by
  cases e with
  | listing server => exact .listing (listingJob_result w server)
  | registration server filter =>
    have h := listingJob_result w server
    unfold Errand.run addServer
    dsimp only
    rcases hl : w.listTools server with ⟨⟨e⟩ | ⟨ts⟩, w'⟩
    · rw [hl] at h
      exact .unlisted h
    · rw [hl] at h
      have ht : Tells a w (.registration server filter) _ := .registration h
      dsimp only
      rcases hr : a.addRemotes server (ts.filter (passes filter)) with ⟨⟨e⟩ | ⟨u⟩, a'⟩
      · rwa [hr] at ht
      · rwa [hr] at ht
  | batch calls =>
    refine .batch fun i c d server hc hd => ?_
    obtain ⟨r, hr, hp⟩ := perform_remote hd w i
    refine ⟨r, hr, ?_⟩
    show (a.dispatch w calls).1[i]? = _
    rw [dispatch_eq, List.getElem?_map, List.getElem?_zipIdx, hc]
    simp [hp]

/-! ## What closing does not change -/

section Closing

variable {close : Nat → Mcp.Server → Except Mcp.Error Unit}

theorem listTools_closing (w : World) (server : Mcp.Server) :
    (w.closing close).listTools server =
      ((w.listTools server).1, (w.listTools server).2.closing close) := by
  unfold World.listTools World.closing
  dsimp only
  rw [Mcp.listTools_closing]
  rfl

theorem perform_closing (a : Agent) (w : World) (i : Nat) (c : ToolCall) :
    a.perform (w.closing close) i c = a.perform w i c := by
  unfold perform
  cases a.tools.find c.name with
  | error e => rfl
  | ok t =>
    cases t with
    | function | universal | rest => rfl
    | remote d server =>
      simp only [Tool.invoke, Tool.callRemote, World.context, World.closing, Mcp.callTool_closing]

theorem addServer_closing (a : Agent) (w : World) (server : Mcp.Server)
    (filter : Option (List String)) :
    a.addServer (w.closing close) server filter =
      ((a.addServer w server filter).1, (a.addServer w server filter).2.1,
        (a.addServer w server filter).2.2.closing close) := by
  unfold addServer
  rw [listTools_closing]
  rcases w.listTools server with ⟨⟨e⟩ | ⟨ts⟩, w'⟩
  · rfl
  · dsimp only
    rcases a.addRemotes server (ts.filter (passes filter)) with ⟨⟨e⟩ | ⟨u⟩, a'⟩ <;> rfl

theorem dispatch_closing (a : Agent) (w : World) (calls : List ToolCall) :
    a.dispatch (w.closing close) calls =
      ((a.dispatch w calls).1, (a.dispatch w calls).2.closing close) := by
  simp only [dispatch_eq, invocations, perform_closing]
  rfl

/-- An errand does the same, whatever comes of closing its sessions. -/
theorem Errand.run_closing (e : Errand) (a : Agent) (w : World) :
    e.run a (w.closing close) =
      ((e.run a w).1, (e.run a w).2.1, (e.run a w).2.2.closing close) := by
  unfold run
  cases e with
  | listing server => simp only [listTools_closing]
  | registration server filter => simp only [addServer_closing]
  | batch calls => simp only [dispatch_closing]

theorem visits_closing (es : List Errand) (a : Agent) (w : World) :
    visits es a (w.closing close) =
      (visits es a w).map fun v => { v with world := v.world.closing close } := by
  induction es generalizing a w with
  | nil => rfl
  | cons e es ih =>
    unfold visits
    rw [e.run_closing, ih]
    rfl

theorem behind_closing (es : List Errand) (a : Agent) (w : World) :
    behind es a (w.closing close) = ((behind es a w).1, (behind es a w).2.closing close) := by
  induction es generalizing a w with
  | nil => rfl
  | cons e es ih =>
    unfold behind
    rw [e.run_closing, ih]

end Closing

/-! ## Sequences of errands -/

theorem behind_sessions (es : List Errand) (a : Agent) (w : World) :
    (behind es a w).2.sessions = w.sessions ++ (jobs es a w).map Job.asked := by
  induction es generalizing a w with
  | nil => exact (List.append_nil _).symm
  | cons e es ih =>
    unfold behind
    rw [ih, e.run_sessions, List.append_assoc, ← List.map_append]
    rfl

/-- The sessions of some errands are scoped, when their jobs have come as far as a pool shows. -/
structure Scoped (es : List Errand) (a : Agent) (w : World) (p : Pool) : Prop where
  /-- The servers are asked what is asked for the jobs, one at most for each listing and each
  call. -/
  sessions : (behind es a w).2.sessions = w.sessions ++ (jobs es a w).map Job.asked
  single : ∀ v ∈ visits es a w, v.slots.length = v.errand.size
  /-- For a job a session is opened, or not; when it was, it is closed once, and at the end. -/
  goes : ∀ j ∈ jobs es a w, j.Goes j.result j.asked ∧ isOpen j.asked = false
  /-- What the errands report is what their jobs return. -/
  reports : ∀ v ∈ visits es a w, Tells v.agent v.world v.errand v.report
  /-- However the jobs are interleaved, each returns that, asks that, and leaves no session open. -/
  pool : p.Scoped (jobs es a w)
  /-- What comes of closing the sessions is not seen in any report, in the agent, or in what the
  servers are asked. -/
  closing : ∀ close,
    (visits es a (w.closing close)).map Visit.report = (visits es a w).map Visit.report ∧
    (behind es a (w.closing close)).1 = (behind es a w).1 ∧
    (behind es a (w.closing close)).2.sessions = (behind es a w).2.sessions

/-- Sessions are scoped, whatever the servers do and however the jobs of the errands are
interleaved. -/
theorem errands_scoped (es : List Errand) (a : Agent) (w : World) (p : Pool)
    (h : Pool.Reaches (.of (jobs es a w)) p) : Scoped es a w p where
  sessions := behind_sessions es a w
  single v _ := v.slots_length
  goes j _ := ⟨j.goes, j.goes.not_isOpen⟩
  reports v _ := tells_run v.errand v.agent v.world
  pool := Pool.scoped_of_reaches h
  closing close := by
    rw [visits_closing, behind_closing, List.map_map]
    refine ⟨List.map_congr_left fun v _ => ?_, rfl, rfl⟩
    show (v.errand.run v.agent (v.world.closing close)).1 = _
    rw [v.errand.run_closing]
    rfl

/-- Every session answers, and only the first can be closed. -/
def sticking : Connector := fun serial _ =>
  .ok ⟨.ok (), .ok [], fun _ _ => .ok ⟨[], false⟩,
    if serial = 0 then .ok () else .error (.transport "fake" "broken pipe")⟩

/-- Two calls whose sessions are open at the same time, and one of them cannot be closed. -/
theorem overlapping_calls_scoped :
    ∃ a p, Pool.Reaches (.of (jobs [.batch [.new "1" "remote" [], .new "2" "remote" []]] a
        { World.scripted [] with connector := sticking })) p ∧
      p.log = [(0, .connect ⟨"fake", [], [], none⟩), (1, .connect ⟨"fake", [], [], none⟩)] ∧
      Scoped [.batch [.new "1" "remote" [], .new "2" "remote" []]] a
        { World.scripted [] with connector := sticking } p := by
  have h : Pool.Reaches (.of (jobs [.batch [.new "1" "remote" [], .new "2" "remote" []]]
      (fresh (.qwen "small" "Qwen") [.remote ⟨"remote", "", .none, none⟩ ⟨"fake", [], [], none⟩])
      { World.scripted [] with connector := sticking })) _ :=
    .tail (.tail .refl (@Pool.Step.task [] [_] _ _ _ _ _ (.connects rfl)))
      (@Pool.Step.task [_] [] _ _ _ _ _ (.connects rfl))
  exact ⟨_, _, h, rfl, errands_scoped _ _ _ _ h⟩

end Agent

end Parley
