/-
Lines that a server puts in between: banners and logs, notifications, requests of its own, answers
to other requests. A session passes over them, wherever they stand, and neither its result nor what
it sends depends on them. The exceptions are few (`Line.Intrudes`): above all, a request of the
server is taken for the answer when it has the number of the request that is pending, as its
`method` is not looked at.

A line makes no difference just when it leaves the session waiting as it was (`interjection_iff`);
which request it is read for is seen from what the server wrote before it (`Awaited`).
-/
import Parley.Proofs.Mcp.Dialogue
import Mathlib.Control.Monad.Basic

namespace Parley.Mcp.Stdio

open Json

/-! ## Lines that are taken for an answer -/

/-- A line is a response to the request with the number `id`: an object that has the number, and
names no method. -/
inductive Line.Answers (id : Nat) : Line → Prop
  | response {s : String} {ms : Members} {r : Response} :
    Response.value? (Text.trim s) = some (.obj ms) → ms.lookup "method" = none →
    Response.decode (.obj ms) = .ok r → r.id = some id → Answers id (.text s)

/-- A line is no response, and yet ends the wait for one to the request with the number `id`. -/
inductive Line.Intrudes (id : Nat) : Line → Prop
  /-- A request of the server that has the number. -/
  | request {s : String} {ms : Members} {v : Json} {r : Response} :
    Response.value? (Text.trim s) = some (.obj ms) → ms.lookup "method" = some v →
    Response.decode (.obj ms) = .ok r → r.id = some id → Intrudes id (.text s)
  /-- The fields of a response in a list. -/
  | fields {s : String} {vs : List Json} {r : Response} :
    Response.value? (Text.trim s) = some (.arr vs) → Response.decode (.arr vs) = .ok r →
    r.id = some id → Intrudes id (.text s)
  /-- A line that cannot be read. -/
  | noText : Intrudes id .noText

/-- A session takes a line for the end of its wait for the request with the number `id`. -/
def Line.TakenFor (id : Nat) (l : Line) : Prop := l.Answers id ∨ l.Intrudes id

section Taking

variable {server : String} {id : Nat} {s : String} {l : Line}

theorem ofText?_eq_some_iff {t : String} {r : Response} :
    Response.ofText? t = some r ↔ ∃ v, Response.value? t = some v ∧ Response.decode v = .ok r := by
  unfold Response.ofText?
  rw [Option.bind_eq_some_iff]
  refine exists_congr fun v => and_congr_right fun _ => ?_
  cases Response.decode v <;> simp [Except.toOption]

theorem takenFor_text_iff : (Line.text s).TakenFor id ↔ ∃ r, Responds id s r := by
  constructor
  · rintro (h | h)
    · cases h with
      | response hp _ hd hi => exact ⟨_, ofText?_eq_some_iff.2 ⟨_, hp, hd⟩, hi⟩
    · cases h with
      | request hp _ hd hi | fields hp hd hi =>
        exact ⟨_, ofText?_eq_some_iff.2 ⟨_, hp, hd⟩, hi⟩
  · rintro ⟨r, hr, hi⟩
    obtain ⟨v, hp, hd⟩ := ofText?_eq_some_iff.1 hr
    cases v with
    | obj ms =>
      cases hm : ms.lookup "method" with
      | none => exact .inl (.response hp hm hd hi)
      | some v => exact .inr (.request hp hm hd hi)
    | arr vs => exact .inr (.fields hp hd hi)
    | null | bool | num | str => cases hd

theorem outcome?_eq_none_iff : l.outcome? server id = none ↔ ¬ l.TakenFor id := by
  cases l with
  | noText => exact iff_of_false (fun h => by cases h) fun h => h (.inr .noText)
  | text s => rw [outcome?_text_eq_none_iff, takenFor_text_iff, not_exists]

/-- No line makes a session believe that the output has ended. -/
theorem outcome?_ne_closed {o : Except Error Json} (h : l.outcome? server id = some o) :
    o ≠ .error (closed server) := by
  rintro rfl
  cases l with
  | noText =>
    simp [Line.outcome?, closed] at h
  | text s =>
    obtain ⟨r, -, ho⟩ := outcome?_text_eq_some_iff.1 h
    unfold Response.outcome at ho
    cases he : r.error with
    | some e =>
      simp only [he] at ho
      cases ho
    | none => cases hr : r.result <;> simp only [he, hr] at ho <;> cases ho

end Taking

/-! ## What a line does -/

namespace Dialogue

variable {op : Operation} {server : String} {d : Dialogue} {l : Line}

/-- A session that is over does not look as if it waited for more. -/
def Settled (server : String) (d : Dialogue) : Prop := d.stage ≠ .ended (.error (closed server))

theorem settled_of_not_isOver (h : ¬ d.IsOver) : d.Settled server := fun hs => h ⟨_, hs⟩

theorem Settled.result_eq_closed_iff (h : d.Settled server) :
    d.result server = .error (closed server) ↔ ¬ d.IsOver := by
  constructor
  · rintro hr ⟨r, hs⟩
    unfold result at hr
    rw [hs] at hr
    exact h (hr ▸ hs)
  · exact result_of_not_isOver

/-- A step that is seen from outside: by its result, if nothing more is written, or by what is
sent. -/
structure Shows (server : String) (d d' : Dialogue) : Prop where
  settled : d'.Settled server
  visible : d'.result server ≠ .error (closed server) ∨ d'.sent ≠ d.sent

theorem shows_finish {r : Except Error Answer} (h : r ≠ .error (closed server)) :
    Shows server d (d.finish r) where
  settled hs := h (Stage.ended.inj hs)
  visible := .inl h

theorem shows_ask {d₁ : Dialogue} {stage : Stage} (h : ∀ r, stage ≠ .ended r) (method : String)
    (params : Json) (hs : d.sent.length ≤ d₁.sent.length) :
    Shows server d (d₁.ask stage method params) where
  settled := settled_of_not_isOver (ask_not_isOver d₁ h method params)
  visible := by
    refine .inr fun he => ?_
    have hl := congrArg List.length he
    have ha : (d₁.ask stage method params).sent.length = d₁.sent.length + 1 := List.length_append
    omega

theorem shows_begin {d₁ : Dialogue} (op : Operation) (hs : d.sent.length ≤ d₁.sent.length) :
    Shows server d (d₁.begin op) := by
  cases op with
  | list => exact shows_ask (fun _ hr => by cases hr) _ _ hs
  | call name arguments => exact shows_ask (fun _ hr => by cases hr) _ _ hs

/-- Whatever the server answers to the pending request, the answer shows. -/
theorem shows_receive (hd : ¬ d.IsOver) {o : Except Error Json} (ho : o ≠ .error (closed server)) :
    Shows server d (d.receive op server o) := by
  cases o with
  | error e =>
    refine shows_finish fun he => ho ?_
    cases he
    rfl
  | ok v =>
    show Shows server d (d.take op server v)
    unfold take
    cases hs : d.stage with
    | ended r => exact absurd ⟨r, hs⟩ hd
    | greeting =>
      refine shows_begin op ?_
      show _ ≤ (d.sent ++ [initialized]).length
      simp
    | page known =>
      dsimp only
      cases Page.decode v with
      | error f => exact shows_finish fun he => by cases he
      | ok p =>
        dsimp only
        cases p.next? with
        | none => exact shows_finish fun he => by cases he
        | some c => exact shows_ask (fun _ hr => by cases hr) _ _ (Nat.le_refl _)
    | result =>
      dsimp only
      cases CallResult.decode v with
      | error f => exact shows_finish fun he => by cases he
      | ok r => exact shows_finish fun he => by cases he

theorem Settled.read (h : d.Settled server) (l : Line) : (d.read op server l).Settled server := by
  by_cases hd : d.IsOver
  · rwa [read_of_isOver hd]
  · cases ho : l.outcome? server d.id with
    | none => rwa [read_skipped ho]
    | some o =>
      rw [read_answered hd ho]
      exact (shows_receive hd (outcome?_ne_closed ho)).settled

theorem settled_foldl (op : Operation) (server : String) (ls : List Line) :
    (ls.foldl (Dialogue.read op server) start).Settled server := by
  have hs : start.Settled server := fun hs => by cases hs
  generalize start = d at hs
  induction ls generalizing d with
  | nil => exact hs
  | cons l ls ih => exact ih _ (hs.read l)

end Dialogue

/-! ## Lines in between -/

/-- What comes of an operation, and all that is sent for it, is the same with two outputs. -/
structure Alike (op : Operation) (server : Server) (xs ys : List Line) : Prop where
  result : (op.run (.ok (session server.command xs)) server).1 =
    (op.run (.ok (session server.command ys)) server).1
  sent : (op.converse server.command xs).2.sent = (op.converse server.command ys).2.sent

/-- Behind some output the session waits for the answer to the request with the number `id`: it
would fail if the output ended there, and the request is its last. -/
def Awaited (op : Operation) (server : String) (before : List Line) (id : Nat) : Prop :=
  (op.converse server before).1 = .error (closed server) ∧
    (op.converse server before).2.nextId = id + 1

section Interjections

variable {op : Operation} {server : Server} {before : List Line} {line : Line}

theorem awaited_iff {server : String} {id : Nat} :
    Awaited op server before id ↔
      ¬ (before.foldl (Dialogue.read op server) .start).IsOver ∧
        (before.foldl (Dialogue.read op server) .start).id = id := by
  obtain ⟨hr, -, hn⟩ := Dialogue.converse_eq_foldl op server before
  unfold Awaited
  rw [hr, hn, (Dialogue.settled_foldl op server before).result_eq_closed_iff,
    Nat.add_right_cancel_iff]

theorem alike_iff {xs ys : List Line} :
    Alike op server xs ys ↔
      (xs.foldl (Dialogue.read op server.command) .start).result server.command =
        (ys.foldl (Dialogue.read op server.command) .start).result server.command ∧
      (xs.foldl (Dialogue.read op server.command) .start).sent =
        (ys.foldl (Dialogue.read op server.command) .start).sent := by
  obtain ⟨hx, hxs, -⟩ := Dialogue.converse_eq_foldl op server.command xs
  obtain ⟨hy, hys, -⟩ := Dialogue.converse_eq_foldl op server.command ys
  rw [← hx, ← hy, ← hxs, ← hys, ← op.run_session, ← op.run_session]
  exact ⟨fun h => ⟨h.result, h.sent⟩, fun h => ⟨h.1, h.2⟩⟩

/-- A line makes no difference, whatever the server writes behind it, just when the session does
not take it for the answer that it waits for. -/
theorem interjection_iff :
    (∀ after, Alike op server (before ++ line :: after) (before ++ after)) ↔
      ∀ id, Awaited op server.command before id → ¬ line.TakenFor id := by
  simp only [alike_iff, awaited_iff, List.foldl_append, List.foldl_cons]
  generalize before.foldl (Dialogue.read op server.command) .start = d
  constructor
  · rintro h _ ⟨hd, rfl⟩ ht
    cases ho : line.outcome? server.command d.id with
    | none => exact outcome?_eq_none_iff.1 ho ht
    | some o =>
      -- with nothing behind it, the answer shows
      obtain ⟨hr, hs⟩ := h []
      rw [Dialogue.read_answered hd ho] at hr hs
      rcases (Dialogue.shows_receive hd (outcome?_ne_closed ho)).visible with hv | hv
      · exact hv (hr.trans (Dialogue.result_of_not_isOver hd))
      · exact hv hs
  · intro h after
    have hl : d.read op server.command line = d := by
      by_cases hd : d.IsOver
      · exact Dialogue.read_of_isOver hd
      · exact Dialogue.read_skipped (outcome?_eq_none_iff.2 (h d.id ⟨hd, rfl⟩))
    rw [hl]
    exact ⟨rfl, rfl⟩

end Interjections

/-! ## Banners, notifications and other answers -/

/-- A line that is not the awaited response, be it blank, no JSON, a notification, a request or
another answer, makes no difference, whatever the server writes behind it, just when it does not end
the wait all the same. -/
theorem extra_line_ignored_iff (op : Operation) (server : Server) (before : List Line) (line : Line)
    (h : ∀ id, Awaited op server.command before id → ¬ line.Answers id) :
    (∀ after, Alike op server (before ++ line :: after) (before ++ after)) ↔
      ∀ id, Awaited op server.command before id → ¬ line.Intrudes id := by
  rw [interjection_iff]
  refine forall_congr' fun id => imp_congr_right fun ha => not_congr ?_
  exact or_iff_right (h id ha)

/-- The line of a response with a result. -/
def responseLine (id : Nat) (result : Json) : Line :=
  .text (Json.obj [("jsonrpc", .str "2.0"), ("id", .ofNat id), ("result", result)]).text

/-- The line of a message. -/
def messageLine (e : Envelope) : Line := .text e.toJson.text

/-- A notification while the first page is awaited. -/
theorem progress_ignored :
    (∀ id, Awaited .list "sh" [responseLine 1 (.obj [])] id →
      ¬ (messageLine (.notification "notifications/progress" none)).Answers id) ∧
    ∀ after, Alike .list ⟨"sh", [], [], none⟩
      ([responseLine 1 (.obj [])] ++
        messageLine (.notification "notifications/progress" none) :: after)
      ([responseLine 1 (.obj [])] ++ after) := by
  have hp : Response.value?
      (Text.trim (Envelope.notification "notifications/progress" none).toJson.text) =
      some (.obj [("jsonrpc", .null), ("method", .null)]) := by
    decide +kernel
  have ha (id : Nat) :
      ¬ (messageLine (.notification "notifications/progress" none)).Answers id := by
    rintro ⟨hp', hm, -, -⟩
    rw [hp] at hp'
    cases hp'
    cases hm
  refine ⟨fun id _ => ha id, (extra_line_ignored_iff .list ⟨"sh", [], [], none⟩
    [responseLine 1 (.obj [])] _ fun id _ => ha id).2 fun id _ hu => ?_⟩
  cases hu with
  | request hp' _ hd hi =>
    rw [hp] at hp'
    cases hp'
    cases hd
    cases hi
  | fields hp' =>
    rw [hp] at hp'
    cases hp'

/-- A ping of the server while the first page is awaited, under the number of the request for it:
the listing fails with an error that the server did not send, and without the ping it succeeds. -/
theorem ping_intrudes :
    Awaited .list "sh" [responseLine 1 (.obj [])] 2 ∧
    ¬ (messageLine (.request 2 "ping" none)).Answers 2 ∧
    (messageLine (.request 2 "ping" none)).Intrudes 2 ∧
    (Operation.list.converse "sh" [responseLine 1 (.obj []),
      responseLine 2 (.obj [("tools", .arr [.obj [("name", .str "clock")]])])]).1 =
      .ok (.tools [⟨"clock", none, RemoteTool.emptySchema⟩]) ∧
    (Operation.list.converse "sh" [responseLine 1 (.obj []), messageLine (.request 2 "ping" none),
      responseLine 2 (.obj [("tools", .arr [.obj [("name", .str "clock")]])])]).1 =
      .error (.server (-32603) "response missing both result and error") := by
  have hp : Response.value? (Text.trim (Envelope.request 2 "ping" none).toJson.text) =
      some (.obj [("jsonrpc", .null), ("id", .ofNat 2), ("method", .null)]) := by
    decide +kernel
  refine ⟨⟨by decide +kernel, by decide +kernel⟩, ?_, .request hp rfl rfl rfl, by decide +kernel,
    by decide +kernel⟩
  rintro ⟨hp', hm, -, -⟩
  rw [hp] at hp'
  cases hp'
  cases hm

end Parley.Mcp.Stdio
