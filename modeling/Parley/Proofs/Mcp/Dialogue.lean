/-
Sessions line by line. Between two lines a session waits for something or is over (`Dialogue`), and
a line takes it to its next state (`Dialogue.read`); running an operation on some output is reading
its lines one after the other (`converse_eq_foldl`).

What a conversation comes to is known from its exchanges (`converse_spec`). Here it is shown that
the lines of each exchange, read one by one, bring the session to where the exchange leaves it, so
that a line makes no difference wherever it leaves the state as it is.
-/
import Parley.Proofs.Mcp.Exchange

namespace Parley.Mcp.Stdio

open Json

/-! ## States -/

/-- What a session waits for, or what came of it. -/
inductive Stage where
  | greeting
  /-- The next page, behind those that gave the known tools. -/
  | page (known : List RemoteTool)
  | result
  | ended (r : Except Error Answer)

/-- A session between two lines: its stage, the number of its last request and all that was sent. -/
structure Dialogue where
  stage : Stage
  id : Nat
  sent : List Envelope

namespace Dialogue

def IsOver (d : Dialogue) : Prop := ∃ r, d.stage = .ended r

def finish (d : Dialogue) (r : Except Error Answer) : Dialogue := { d with stage := .ended r }

def ask (d : Dialogue) (stage : Stage) (method : String) (params : Json) : Dialogue :=
  ⟨stage, d.id + 1, d.sent ++ [.request (d.id + 1) method (some params)]⟩

def askPage (d : Dialogue) (known : List RemoteTool) (cursor : Option String) : Dialogue :=
  d.ask (.page known) "tools/list" (State.pageParams cursor)

/-- Closes the handshake. -/
def greeted (d : Dialogue) : Dialogue := { d with sent := d.sent ++ [initialized] }

/-- Starts the work behind the handshake. -/
def begin (d : Dialogue) : Operation → Dialogue
  | .list => d.askPage [] none
  | .call name arguments =>
    d.ask .result "tools/call" (.obj [("name", .str name), ("arguments", .obj arguments)])

/-- A session that waits for its first answer. -/
def start : Dialogue := ask ⟨.greeting, 0, []⟩ .greeting "initialize" State.greeting

/-- Goes on with the result of the pending request. -/
def take (op : Operation) (server : String) (d : Dialogue) (v : Json) : Dialogue :=
  match d.stage with
  | .greeting => d.greeted.begin op
  | .page known =>
    match Page.decode v with
    | .error f =>
      d.finish (.error (.protocol server ("malformed tools/list result: " ++ f.message)))
    | .ok p =>
      match p.next? with
      | none => d.finish (.ok (.tools (known ++ p.tools)))
      | some c => d.askPage (known ++ p.tools) (some c)
  | .result =>
    match CallResult.decode v with
    | .error f =>
      d.finish (.error (.protocol server ("malformed tools/call result: " ++ f.message)))
    | .ok r => d.finish (.ok (.result r))
  | .ended _ => d

/-- Goes on with the outcome of the pending request. -/
def receive (op : Operation) (server : String) (d : Dialogue) : Except Error Json → Dialogue
  | .ok v => d.take op server v
  | .error e => d.finish (.error e)

def read (op : Operation) (server : String) (d : Dialogue) (l : Line) : Dialogue :=
  match d.stage with
  | .ended _ => d
  | .greeting | .page _ | .result =>
    match l.outcome? server d.id with
    | none => d
    | some o => d.receive op server o

/-- What comes of the session when nothing more is written. -/
def result (server : String) (d : Dialogue) : Except Error Answer :=
  match d.stage with
  | .ended r => r
  | .greeting | .page _ | .result => .error (closed server)

section Reading

variable {op : Operation} {server : String} {d : Dialogue} {l : Line}

theorem read_of_isOver (h : d.IsOver) : d.read op server l = d := by
  obtain ⟨r, hr⟩ := h
  unfold read
  rw [hr]

theorem read_skipped (h : l.outcome? server d.id = none) : d.read op server l = d := by
  unfold read
  cases d.stage <;> simp [h]

theorem read_answered (hd : ¬ d.IsOver) {o : Except Error Json}
    (h : l.outcome? server d.id = some o) : d.read op server l = d.receive op server o := by
  unfold read
  cases hs : d.stage with
  | ended r => exact absurd ⟨r, hs⟩ hd
  | greeting | page | result => simp [h]

theorem result_of_not_isOver (h : ¬ d.IsOver) : d.result server = .error (closed server) := by
  unfold result
  cases hs : d.stage with
  | ended r => exact absurd ⟨r, hs⟩ h
  | greeting | page | result => rfl

theorem foldl_of_isOver (h : d.IsOver) (ls : List Line) : ls.foldl (read op server) d = d := by
  induction ls with
  | nil => rfl
  | cons l ls ih => rw [List.foldl_cons, read_of_isOver h, ih]

theorem foldl_skipped {ls : List Line} (h : ∀ l ∈ ls, l.outcome? server d.id = none) :
    ls.foldl (read op server) d = d := by
  induction ls with
  | nil => rfl
  | cons l ls ih =>
    obtain ⟨hl, hls⟩ := List.forall_mem_cons.1 h
    rw [List.foldl_cons, read_skipped hl, ih hls]

theorem ask_not_isOver (d : Dialogue) {stage : Stage} (h : ∀ r, stage ≠ .ended r) (method : String)
    (params : Json) : ¬ (d.ask stage method params).IsOver := by
  rintro ⟨r, hr⟩
  exact h r hr

/-! ## Exchanges -/

/-- What is read for an exchange that gave a result. -/
theorem foldl_answered (hd : ¬ d.IsOver) {lines rest : List Line} {v : Json}
    (h : Awaits server d.id lines rest (.ok v)) :
    (lines ++ rest).foldl (read op server) d =
      rest.foldl (read op server) (d.take op server v) := by
  cases h with
  | answered hs ho =>
    rw [List.append_assoc, List.foldl_append, foldl_skipped hs, List.singleton_append,
      List.foldl_cons, read_answered hd ho]
    rfl

/-- An exchange that failed is the last: whatever the server writes behind it changes nothing. -/
theorem foldl_failed (hd : ¬ d.IsOver) {lines rest : List Line} {e : Error}
    (h : Awaits server d.id lines rest (.error e)) :
    ((lines ++ rest).foldl (read op server) d).result server = .error e ∧
      ((lines ++ rest).foldl (read op server) d).sent = d.sent ∧
      ((lines ++ rest).foldl (read op server) d).id = d.id := by
  cases h with
  | answered hs ho =>
    have hf : (d.finish (.error e)).IsOver := ⟨_, rfl⟩
    have hr : d.receive op server (.error e) = d.finish (.error e) := rfl
    rw [List.append_assoc, List.foldl_append, foldl_skipped hs, List.singleton_append,
      List.foldl_cons, read_answered hd ho, hr, foldl_of_isOver hf]
    exact ⟨rfl, rfl, rfl⟩
  | ended hs =>
    rw [List.append_nil, foldl_skipped hs]
    exact ⟨result_of_not_isOver hd, rfl, rfl⟩

end Reading

/-! ## Endings -/

/-- What a dialogue comes to once it has had some exchanges. -/
structure Ends (server : String) (d d' : Dialogue) (xs : List Exchange)
    (r : Except Error Answer) : Prop where
  result : d'.result server = r
  sent : d'.sent = d.sent ++ xs.map Exchange.request
  id : d'.id = d.id + xs.length

section LastExchange

variable {op : Operation} {server : String} {d : Dialogue} {stage : Stage}
  (hs : ∀ r, stage ≠ .ended r) {x : Exchange} {output rest : List Line}
  (ht : Tiles server (d.id + 1) [x] output rest)

include hs ht

theorem ends_of_failed {e : Error} (hx : x.outcome = .error e) :
    Ends server d (output.foldl (read op server) (d.ask stage x.method x.params)) [x]
      (.error e) := by
  cases ht with
  | cons hi hw ht =>
    cases ht
    have hw : Awaits server (d.ask stage x.method x.params).id x.read rest (.error e) := hx ▸ hw
    obtain ⟨hr, hsent, hid⟩ := @foldl_failed op server _ (ask_not_isOver d hs _ _) _ _ _ hw
    refine ⟨hr, hsent.trans ?_, hid⟩
    rw [List.map_singleton, Exchange.request, hi]
    rfl

theorem ends_of_finished {v : Json} {r : Except Error Answer} (hx : x.outcome = .ok v)
    (hk : (d.ask stage x.method x.params).take op server v =
      (d.ask stage x.method x.params).finish r) :
    Ends server d (output.foldl (read op server) (d.ask stage x.method x.params)) [x] r := by
  cases ht with
  | cons hi hw ht =>
    cases ht
    have hw : Awaits server (d.ask stage x.method x.params).id x.read rest (.ok v) := hx ▸ hw
    rw [foldl_answered (ask_not_isOver d hs _ _) hw, hk, foldl_of_isOver ⟨r, rfl⟩]
    refine ⟨rfl, ?_, rfl⟩
    rw [List.map_singleton, Exchange.request, hi]
    rfl

end LastExchange

/-! ## Operations -/

section Operations

variable {op : Operation} {server : String} {output rest : List Line} {xs : List Exchange}

theorem ends_of_paging {cursor : Option String} {q : Except Error (List RemoteTool)}
    (h : Paging server cursor xs q) (d : Dialogue) (known : List RemoteTool)
    (ht : Tiles server (d.id + 1) xs output rest) :
    Ends server d (output.foldl (read op server) (d.askPage known cursor)) xs
      (q.map fun ts => .tools (known ++ ts)) := by
  have hpage (known : List RemoteTool) (r : Except Error Answer) : Stage.page known ≠ .ended r :=
    fun hr => by cases hr
  -- page by page: the tools known so far and the output that is left change with the page
  induction h generalizing d known output with
  | @failed cursor x e ha hx =>
    unfold askPage
    rw [← ha.1, ← ha.2]
    exact ends_of_failed (hpage known) ht hx
  | @malformed cursor x v f ha hx hv =>
    unfold askPage
    rw [← ha.1, ← ha.2]
    refine ends_of_finished (hpage known) ht hx ?_
    simp only [take, ask, hv]
    rfl
  | @last cursor x p ha hg hp =>
    obtain ⟨v, hx, hv⟩ := hg
    unfold askPage
    rw [← ha.1, ← ha.2]
    refine ends_of_finished (hpage known) ht hx ?_
    simp only [take, ask, hv, (next?_eq_none_iff p).2 hp]
    rfl
  | @more cursor c x p ys q ha hg hc hne _ ih =>
    obtain ⟨v, hx, hv⟩ := hg
    cases ht with
    | cons hi hw ht =>
      have hd : ¬ (d.askPage known cursor).IsOver := ask_not_isOver d (hpage known) _ _
      have hw : Awaits server (d.askPage known cursor).id x.read _ (.ok v) := hx ▸ hw
      have hk : (d.askPage known cursor).take op server v =
          (d.askPage known cursor).askPage (known ++ p.tools) (some c) := by
        simp only [take, askPage, ask, hv, (next?_eq_some_iff p c).2 ⟨hc, hne⟩]
      rw [foldl_answered hd hw, hk]
      obtain ⟨hr, hs, hn⟩ := ih (d.askPage known cursor) (known ++ p.tools) ht
      refine ⟨hr.trans ?_, hs.trans ?_, hn.trans ?_⟩
      · cases q with
        | error e => rfl
        | ok ts => exact congrArg (fun us => Except.ok (Answer.tools us)) (List.append_assoc _ _ _)
      · rw [List.map_cons, Exchange.request, ha.1, ha.2, hi]
        exact List.append_assoc _ _ _
      · show d.id + 1 + ys.length = d.id + (ys.length + 1)
        omega

theorem ends_of_calling {name : String} {arguments : Arguments} {q : Except Error CallResult}
    (h : Calling server name arguments xs q) (d : Dialogue)
    (ht : Tiles server (d.id + 1) xs output rest) :
    Ends server d (output.foldl (read op server) (d.begin (.call name arguments))) xs
      (q.map .result) := by
  have hresult (r : Except Error Answer) : Stage.result ≠ .ended r := fun hr => by cases hr
  show Ends server d (output.foldl (read op server) (d.ask .result "tools/call"
    (.obj [("name", .str name), ("arguments", .obj arguments)]))) xs _
  cases h with
  | failed ha hx =>
    rw [← ha.1, ← ha.2]
    exact ends_of_failed hresult ht hx
  | malformed ha hx hv =>
    rw [← ha.1, ← ha.2]
    refine ends_of_finished hresult ht hx ?_
    simp only [take, ask, hv]
    rfl
  | done ha hx hv =>
    rw [← ha.1, ← ha.2]
    refine ends_of_finished hresult ht hx ?_
    simp only [take, ask, hv]
    rfl

theorem ends_of_makes {r : Except Error Answer} (h : Makes server xs r op) (d : Dialogue)
    (ht : Tiles server (d.id + 1) xs output rest) :
    Ends server d (output.foldl (read op server) (d.begin op)) xs r := by
  cases op with
  | list =>
    obtain ⟨q, hp, rfl⟩ := h
    exact ends_of_paging hp d [] ht
  | call name arguments =>
    obtain ⟨q, hc, rfl⟩ := h
    exact ends_of_calling hc d ht

/-- Running an operation is reading the output line by line. -/
theorem converse_eq_foldl (op : Operation) (server : String) (output : List Line) :
    (op.converse server output).1 = (output.foldl (read op server) start).result server ∧
      (op.converse server output).2.sent = (output.foldl (read op server) start).sent ∧
      (op.converse server output).2.nextId = (output.foldl (read op server) start).id + 1 := by
  obtain ⟨first, work, rest, h⟩ := converse_spec op server output
  have hgreeting (r : Except Error Answer) : Stage.greeting ≠ .ended r := fun hr => by cases hr
  obtain ⟨ht, hg, hrefused, hgreeted, hid, -⟩ := h
  cases hf : first.outcome with
  | error e =>
    obtain ⟨rfl, hr, hs⟩ := hrefused e hf
    have he : Ends server ⟨.greeting, 0, []⟩ (output.foldl (read op server)
        (ask ⟨.greeting, 0, []⟩ .greeting first.method first.params)) [first] (.error e) :=
      ends_of_failed hgreeting ht hf
    rw [hg.1, hg.2] at he
    exact ⟨hr.trans he.result.symm, hs.trans he.sent.symm, hid.trans (congrArg (· + 1) he.id.symm)⟩
  | ok v =>
    obtain ⟨hm, hs⟩ := hgreeted v hf
    cases ht with
    | cons hi hw ht =>
      have hd : ¬ start.IsOver := ask_not_isOver _ hgreeting _ _
      have hw : Awaits server start.id first.read _ (.ok v) := hf ▸ hw
      have hk : start.take op server v = start.greeted.begin op := rfl
      have he := ends_of_makes hm start.greeted ht
      rw [foldl_answered hd hw, hk]
      refine ⟨he.result.symm, hs.trans (Eq.trans ?_ he.sent.symm), hid.trans ?_⟩
      · rw [Exchange.request, hi, hg.1, hg.2]
        rfl
      · rw [he.id]
        show work.length + 2 = 1 + work.length + 1
        omega

end Operations

end Dialogue

end Parley.Mcp.Stdio
