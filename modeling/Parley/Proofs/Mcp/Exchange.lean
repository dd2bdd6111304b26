/-
Requests and what is read for them. A session reads up to the first line that does not leave its
request waiting (`Line.outcome?`), or to the end of the output. A request with the lines that were
read for it is an exchange; the exchanges of a session stand one behind the other in what the server
writes, under numbers that follow each other (`Tiles`).

What an operation makes of its exchanges is said without the lines (`Paging`, `Calling`), and
`converse_spec` brings both together: every operation on every output has exchanges that tile the
output and that make its result. The induction is on the bound of `State.pages`, which the unread
output keeps from being reached.
-/
import Parley.Proofs.Mcp.Operation

namespace Parley.Mcp

open Json

namespace Stdio

/-! ## Lines -/

/-- The failure of a request when the output ends. -/
def closed (server : String) : Error :=
  .transport server "server stdout closed (process may have exited)"

/-- What a line makes of the request with the number `id`, unless it leaves it waiting. -/
def Line.outcome? (server : String) (id : Nat) : Line → Option (Except Error Json)
  | .noText =>
    some (.error (.transport server "failed to read from stdout: the line is not UTF-8"))
  | .text s =>
    (Response.ofText? (Text.trim s)).bind fun r =>
      if r.id = some id then some r.outcome else none

/-- A text is a response to the request with the number `id`. -/
def Responds (id : Nat) (s : String) (r : Response) : Prop :=
  Response.ofText? (Text.trim s) = some r ∧ r.id = some id

section Lines

variable {server : String} {id : Nat} {s : String} {o : Except Error Json}

theorem outcome?_text_eq_some_iff :
    (Line.text s).outcome? server id = some o ↔ ∃ r, Responds id s r ∧ o = r.outcome := by
  rw [Line.outcome?, Option.bind_eq_some_iff]
  refine exists_congr fun r => ?_
  unfold Responds
  by_cases hi : r.id = some id
  · simp [hi, eq_comm]
  · simp [hi]

theorem outcome?_text_eq_none_iff :
    (Line.text s).outcome? server id = none ↔ ∀ r, ¬ Responds id s r := by
  rw [Option.eq_none_iff_forall_ne_some]
  constructor
  · intro h r hr
    exact h _ (outcome?_text_eq_some_iff.2 ⟨r, hr, rfl⟩)
  · intro h o ho
    obtain ⟨r, hr, -⟩ := outcome?_text_eq_some_iff.1 ho
    exact h r hr

end Lines

theorem await_cons (server : String) (id : Nat) (l : Line) (rest : List Line) :
    await server id (l :: rest) =
      match l.outcome? server id with
      | some o => (o, rest)
      | none => await server id rest := by
  cases l with
  | noText => rfl
  | text s =>
    rw [await, Line.outcome?]
    cases Response.ofText? (Text.trim s) with
    | none => rfl
    | some r => by_cases hi : r.id = some id <;> simp [hi]

/-- What is read for the request with the number `id`, what is left, and what comes of it. -/
inductive Awaits (server : String) (id : Nat) :
    (read rest : List Line) → Except Error Json → Prop
  | answered {skipped rest : List Line} {l : Line} {o : Except Error Json} :
    (∀ x ∈ skipped, x.outcome? server id = none) → l.outcome? server id = some o →
    Awaits server id (skipped ++ [l]) rest o
  | ended {skipped : List Line} :
    (∀ x ∈ skipped, x.outcome? server id = none) →
    Awaits server id skipped [] (.error (closed server))

theorem Awaits.skip {server : String} {id : Nat} {read rest : List Line} {o : Except Error Json}
    {l : Line} (hl : l.outcome? server id = none) (h : Awaits server id read rest o) :
    Awaits server id (l :: read) rest o := by
  cases h with
  | answered hs ho =>
    rw [← List.cons_append]
    exact .answered (List.forall_mem_cons.2 ⟨hl, hs⟩) ho
  | ended hs => exact .ended (List.forall_mem_cons.2 ⟨hl, hs⟩)

theorem await_spec (server : String) (id : Nat) (output : List Line) :
    ∃ read, output = read ++ (await server id output).2 ∧
      Awaits server id read (await server id output).2 (await server id output).1 := by
  induction output with
  | nil => exact ⟨[], rfl, .ended fun _ hx => by cases hx⟩
  | cons l rest ih =>
    rw [await_cons]
    cases hl : l.outcome? server id with
    | some o =>
      have ha : Awaits server id ([] ++ [l]) rest o := .answered (fun _ hx => by cases hx) hl
      exact ⟨[l], rfl, ha⟩
    | none =>
      obtain ⟨read, hr, ha⟩ := ih
      exact ⟨l :: read, congrArg (l :: ·) hr, ha.skip hl⟩

/-! ## Exchanges -/

/-- A request, the lines that were read for it and what came of it. -/
structure Exchange where
  id : Nat
  method : String
  params : Json
  read : List Line
  outcome : Except Error Json

/-- The message that makes the request. -/
def Exchange.request (x : Exchange) : Envelope := .request x.id x.method (some x.params)

/-- Exchanges that stand one behind the other in some output, under numbers from `id` on. -/
inductive Tiles (server : String) : (id : Nat) → List Exchange → (output rest : List Line) → Prop
  | nil {id : Nat} {rest : List Line} : Tiles server id [] rest rest
  | cons {id : Nat} {x : Exchange} {xs : List Exchange} {output rest : List Line} :
    x.id = id → Awaits server id x.read output x.outcome → Tiles server (id + 1) xs output rest →
    Tiles server id (x :: xs) (x.read ++ output) rest

section Tilings

variable {server : String} {id : Nat} {xs : List Exchange} {output rest : List Line}

theorem Tiles.ids (h : Tiles server id xs output rest) :
    xs.map Exchange.id = List.range' id xs.length := by
  induction h with
  | nil => rfl
  | cons hx _ _ ih => rw [List.map_cons, List.length_cons, List.range'_succ, hx, ih]

/-- Every line is read at most once, and the lines are read in order. -/
theorem Tiles.output_eq (h : Tiles server id xs output rest) :
    output = xs.flatMap Exchange.read ++ rest := by
  induction h with
  | nil => rfl
  | cons _ _ _ ih => rw [List.flatMap_cons, List.append_assoc, ← ih]

/-- When the output has ended there is nothing left behind the session. -/
theorem Tiles.rest_of_nil (h : Tiles server id xs [] rest) : rest = [] := by
  have he := h.output_eq
  exact (List.append_eq_nil_iff.1 he.symm).2

theorem Tiles.awaits (h : Tiles server id xs output rest) {x : Exchange} (hx : x ∈ xs) :
    ∃ left, Awaits server x.id x.read left x.outcome ∧ (left = [] → rest = []) := by
  induction h with
  | nil => cases hx
  | @cons id y ys left rest hy ha ht ih =>
    rcases List.mem_cons.1 hx with rfl | hx
    · refine ⟨left, hy ▸ ha, ?_⟩
      rintro rfl
      exact ht.rest_of_nil
    · exact ih hx

/-- An exchange that was answered took a line of output. -/
theorem Awaits.read_ne_nil {server : String} {id : Nat} {read rest : List Line} {v : Json}
    (h : Awaits server id read rest (.ok v)) : read ≠ [] := by
  cases h with
  | answered => simp

end Tilings

/-! ## Requests of a session -/

namespace State

/-- The session behind some exchanges that leave the output `rest`. -/
def behind (st : State) (xs : List Exchange) (rest : List Line) : State :=
  ⟨st.server, rest, st.nextId + xs.length, st.sent ++ xs.map Exchange.request⟩

theorem behind_cons (st : State) (x : Exchange) (xs : List Exchange) (output rest : List Line) :
    (st.behind [x] output).behind xs rest = st.behind (x :: xs) rest := by
  simp only [behind, List.map_cons, List.map_nil, List.append_assoc, List.singleton_append,
    List.length_cons, List.length_nil, Nat.zero_add, Nat.add_assoc, Nat.add_comm 1]

/-- A request is an exchange with what the server still has to write. -/
theorem request_spec (st : State) (method : String) (params : Json) :
    ∃ x output, x.id = st.nextId ∧ x.method = method ∧ x.params = params ∧
      st.output = x.read ++ output ∧ Awaits st.server st.nextId x.read output x.outcome ∧
      st.request method params = (x.outcome, st.behind [x] output) := by
  obtain ⟨read, hr, ha⟩ := await_spec st.server st.nextId st.output
  exact ⟨⟨st.nextId, method, params, read, (await st.server st.nextId st.output).1⟩, _, rfl, rfl,
    rfl, hr, ha, rfl⟩

end State

/-! ## Listings -/

/-- An exchange asks for the page at a cursor. -/
def Exchange.AsksPage (x : Exchange) (cursor : Option String) : Prop :=
  x.method = "tools/list" ∧ x.params = State.pageParams cursor

/-- An exchange gives a page. -/
def Exchange.GivesPage (x : Exchange) (p : Page) : Prop :=
  ∃ v, x.outcome = .ok v ∧ Page.decode v = .ok p

/-- What the exchanges of a listing from a cursor on give. -/
inductive Paging (server : String) :
    Option String → List Exchange → Except Error (List RemoteTool) → Prop
  | failed {cursor : Option String} {x : Exchange} {e : Error} :
    x.AsksPage cursor → x.outcome = .error e → Paging server cursor [x] (.error e)
  | malformed {cursor : Option String} {x : Exchange} {v : Json} {f : Fault} :
    x.AsksPage cursor → x.outcome = .ok v → Page.decode v = .error f →
    Paging server cursor [x]
      (.error (.protocol server ("malformed tools/list result: " ++ f.message)))
  | last {cursor : Option String} {x : Exchange} {p : Page} :
    x.AsksPage cursor → x.GivesPage p → p.nextCursor = none ∨ p.nextCursor = some "" →
    Paging server cursor [x] (.ok p.tools)
  | more {cursor : Option String} {c : String} {x : Exchange} {p : Page} {xs : List Exchange}
    {r : Except Error (List RemoteTool)} :
    x.AsksPage cursor → x.GivesPage p → p.nextCursor = some c → c ≠ "" →
    Paging server (some c) xs r → Paging server cursor (x :: xs) (r.map (p.tools ++ ·))

theorem next?_eq_none_iff (p : Page) :
    p.next? = none ↔ p.nextCursor = none ∨ p.nextCursor = some "" := by
  unfold Page.next?
  cases p.nextCursor with
  | none => simp
  | some c => simp

theorem next?_eq_some_iff (p : Page) (c : String) :
    p.next? = some c ↔ p.nextCursor = some c ∧ c ≠ "" := by
  unfold Page.next?
  cases p.nextCursor with
  | none => simp
  | some b =>
    simp only [Option.filter_eq_some_iff, Option.some.injEq]
    constructor
    · rintro ⟨rfl, hb⟩
      exact ⟨rfl, by simpa using hb⟩
    · rintro ⟨rfl, hb⟩
      exact ⟨rfl, by simpa using hb⟩

namespace State

section Pages

variable {st st' : State} {cursor : Option String} {fuel : Nat}

theorem pages_failed {e : Error}
    (h : st.request "tools/list" (pageParams cursor) = (.error e, st')) :
    pages fuel cursor st = (.error e, st') := by
  rw [pages, h]

variable {v : Json} (h : st.request "tools/list" (pageParams cursor) = (.ok v, st'))

include h

theorem pages_malformed {f : Fault} (hv : Page.decode v = .error f) :
    pages fuel cursor st =
      (.error (.protocol st'.server ("malformed tools/list result: " ++ f.message)), st') := by
  rw [pages, h]
  simp only [hv]

theorem pages_last {p : Page} (hv : Page.decode v = .ok p) (hp : p.next? = none) :
    pages fuel cursor st = (.ok p.tools, st') := by
  rw [pages, h]
  simp only [hv, hp]

theorem pages_more {p : Page} {c : String} (hv : Page.decode v = .ok p) (hp : p.next? = some c) :
    pages (fuel + 1) cursor st =
      ((pages fuel (some c) st').1.map (p.tools ++ ·), (pages fuel (some c) st').2) := by
  rw [pages, h]
  simp only [hv, hp]
  rcases pages fuel (some c) st' with ⟨⟨e⟩ | ⟨ts⟩, u⟩ <;> rfl

end Pages

/-- A listing has exchanges that tile the output, and gives what they make. As every page takes a
line of output, the bound is never met. -/
theorem pages_spec (fuel : Nat) (cursor : Option String) (st : State)
    (hf : st.output.length ≤ fuel) :
    ∃ xs rest, Tiles st.server st.nextId xs st.output rest ∧
      Paging st.server cursor xs (pages fuel cursor st).1 ∧
      (pages fuel cursor st).2 = st.behind xs rest := by
  induction fuel generalizing cursor st with
  | zero =>
    obtain ⟨x, output, hi, hm, hp, ho, ha, hr⟩ :=
      st.request_spec "tools/list" (pageParams cursor)
    -- nothing is left to read, so this request fails and the bound is not looked at
    have hn : x.read = [] := by
      have hl : st.output = [] := List.length_eq_zero_iff.1 (Nat.le_zero.1 hf)
      exact (List.append_eq_nil_iff.1 (ho.symm.trans hl)).1
    refine ⟨[x], output, ho ▸ .cons hi ha .nil, ?_⟩
    cases hx : x.outcome with
    | ok v => exact absurd hn (hx ▸ ha).read_ne_nil
    | error e =>
      rw [hx] at hr
      rw [pages_failed hr]
      exact ⟨.failed ⟨hm, hp⟩ hx, rfl⟩
  | succ fuel ih =>
    obtain ⟨x, output, hi, hm, hp, ho, ha, hr⟩ :=
      st.request_spec "tools/list" (pageParams cursor)
    have ht : Tiles st.server st.nextId [x] st.output output := ho ▸ .cons hi ha .nil
    cases hx : x.outcome with
    | error e =>
      rw [hx] at hr
      rw [pages_failed hr]
      exact ⟨[x], output, ht, .failed ⟨hm, hp⟩ hx, rfl⟩
    | ok v =>
      rw [hx] at hr ha
      cases hv : Page.decode v with
      | error f =>
        rw [pages_malformed hr hv]
        exact ⟨[x], output, ht, .malformed ⟨hm, hp⟩ hx hv, rfl⟩
      | ok p =>
        cases hc : p.next? with
        | none =>
          rw [pages_last hr hv hc]
          exact ⟨[x], output, ht, .last ⟨hm, hp⟩ ⟨v, hx, hv⟩ ((next?_eq_none_iff p).1 hc), rfl⟩
        | some c =>
          -- the page took a line, so the rest of the output is within the rest of the bound
          have hlt : output.length ≤ fuel := by
            have hpos := List.length_pos_iff.2 ha.read_ne_nil
            rw [ho, List.length_append] at hf
            omega
          obtain ⟨xs, rest, ht', hpg, hst⟩ := ih (some c) (st.behind [x] output) hlt
          obtain ⟨hn, hne⟩ := (next?_eq_some_iff p c).1 hc
          rw [pages_more hr hv hc]
          refine ⟨x :: xs, rest, ?_, .more ⟨hm, hp⟩ ⟨v, hx, hv⟩ hn hne hpg, ?_⟩
          · rw [ho]
            exact .cons hi (hx ▸ ha) ht'
          · rw [hst, behind_cons]

end State

/-! ## Calls -/

/-- An exchange asks for a call. -/
def Exchange.AsksCall (x : Exchange) (name : String) (arguments : Arguments) : Prop :=
  x.method = "tools/call" ∧ x.params = .obj [("name", .str name), ("arguments", .obj arguments)]

/-- What the exchange of a call gives. -/
inductive Calling (server name : String) (arguments : Arguments) :
    List Exchange → Except Error CallResult → Prop
  | failed {x : Exchange} {e : Error} :
    x.AsksCall name arguments → x.outcome = .error e →
    Calling server name arguments [x] (.error e)
  | malformed {x : Exchange} {v : Json} {f : Fault} :
    x.AsksCall name arguments → x.outcome = .ok v → CallResult.decode v = .error f →
    Calling server name arguments [x]
      (.error (.protocol server ("malformed tools/call result: " ++ f.message)))
  | done {x : Exchange} {v : Json} {r : CallResult} :
    x.AsksCall name arguments → x.outcome = .ok v → CallResult.decode v = .ok r →
    Calling server name arguments [x] (.ok r)

theorem State.call_spec (st : State) (name : String) (arguments : Arguments) :
    ∃ xs rest, Tiles st.server st.nextId xs st.output rest ∧
      Calling st.server name arguments xs (st.call name arguments).1 ∧
      (st.call name arguments).2 = st.behind xs rest := by
  obtain ⟨x, output, hi, hm, hp, ho, ha, hr⟩ := st.request_spec "tools/call"
    (.obj [("name", .str name), ("arguments", .obj arguments)])
  refine ⟨[x], output, ho ▸ .cons hi ha .nil, ?_⟩
  unfold call
  rw [hr]
  cases hx : x.outcome with
  | error e => exact ⟨.failed ⟨hm, hp⟩ hx, rfl⟩
  | ok v =>
    dsimp only
    cases hv : CallResult.decode v with
    | error f => exact ⟨.malformed ⟨hm, hp⟩ hx hv, rfl⟩
    | ok r => exact ⟨.done ⟨hm, hp⟩ hx hv, rfl⟩

/-! ## Whole conversations -/

/-- What the exchanges of an operation make. -/
def Makes (server : String) (xs : List Exchange) (r : Except Error Answer) : Operation → Prop
  | .list => ∃ q, Paging server none xs q ∧ r = q.map .tools
  | .call name arguments => ∃ q, Calling server name arguments xs q ∧ r = q.map .result

theorem State.work_spec (op : Operation) (st : State) :
    ∃ xs rest, Tiles st.server st.nextId xs st.output rest ∧
      Makes st.server xs (op.work st).1 op ∧ (op.work st).2 = st.behind xs rest := by
  cases op with
  | list =>
    obtain ⟨xs, rest, ht, hp, hs⟩ := pages_spec st.output.length none st (Nat.le_refl _)
    exact ⟨xs, rest, ht, ⟨_, hp, rfl⟩, hs⟩
  | call name arguments =>
    obtain ⟨xs, rest, ht, hc, hs⟩ := st.call_spec name arguments
    exact ⟨xs, rest, ht, ⟨_, hc, rfl⟩, hs⟩

/-- The message that closes the handshake. -/
def initialized : Envelope := .notification "notifications/initialized" none

/-- The conversation of an operation: the handshake and, if the server took it up, the exchanges of
the work. -/
structure Held (op : Operation) (server : String) (output : List Line) (first : Exchange)
    (work : List Exchange) (rest : List Line) : Prop where
  tiles : Tiles server 1 (first :: work) output rest
  greets : first.method = "initialize" ∧ first.params = State.greeting
  refused : ∀ e, first.outcome = .error e → work = [] ∧
    (op.converse server output).1 = .error e ∧
    (op.converse server output).2.sent = [first.request]
  greeted : ∀ v, first.outcome = .ok v → Makes server work (op.converse server output).1 op ∧
    (op.converse server output).2.sent = first.request :: initialized :: work.map Exchange.request
  nextId : (op.converse server output).2.nextId = work.length + 2
  left : (op.converse server output).2.output = rest

section Conversations

variable {op : Operation} {server : String} {output : List Line} {st : State}

theorem converse_refused {e : Error}
    (h : (State.new server output).request "initialize" State.greeting = (.error e, st)) :
    op.converse server output = (.error e, st) := by
  unfold Operation.converse State.handshake
  rw [h]

theorem converse_greeted {v : Json}
    (h : (State.new server output).request "initialize" State.greeting = (.ok v, st)) :
    op.converse server output = op.work (st.notify "notifications/initialized") := by
  unfold Operation.converse State.handshake
  rw [h]

end Conversations

/-- Every operation on every output is such a conversation. -/
theorem converse_spec (op : Operation) (server : String) (output : List Line) :
    ∃ first work rest, Held op server output first work rest := by
  obtain ⟨x, left, hi, hm, hp, ho, ha, hr⟩ :=
    (State.new server output).request_spec "initialize" State.greeting
  have ho : output = x.read ++ left := ho
  -- a refused greeting ends the session; the work is done behind a greeting only
  cases hx : x.outcome with
  | error e =>
    rw [hx] at hr
    refine ⟨x, [], left, ?_, ⟨hm, hp⟩, ?_, ?_, ?_, ?_⟩
    · rw [ho]
      exact .cons hi ha .nil
    · intro e' he
      rw [hx] at he
      cases he
      rw [converse_refused hr]
      exact ⟨rfl, rfl, rfl⟩
    · intro v hv
      rw [hx] at hv
      cases hv
    · rw [converse_refused hr]
      rfl
    · rw [converse_refused hr]
      rfl
  | ok v =>
    rw [hx] at hr
    obtain ⟨xs, rest, ht, hw, hs⟩ := State.work_spec op
      (((State.new server output).behind [x] left).notify "notifications/initialized")
    refine ⟨x, xs, rest, ?_, ⟨hm, hp⟩, ?_, ?_, ?_, ?_⟩
    · rw [ho]
      exact .cons hi ha ht
    · intro e he
      rw [hx] at he
      cases he
    · intro _ _
      rw [converse_greeted hr, hs]
      exact ⟨hw, rfl⟩
    · rw [converse_greeted hr, hs]
      show 2 + xs.length = xs.length + 2
      omega
    · rw [converse_greeted hr, hs]
      rfl

end Stdio

end Parley.Mcp
