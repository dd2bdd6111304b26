/-
The protocol of a session over standard input and output: which requests are sent, under which
numbers, which lines answer them and when the session goes on (`Conduct`). An output of texts is
all that is supposed; the server may answer late, early, twice or not at all, and repeat a cursor
for ever.

The exchanges of the conversation (`converse_spec`) show all of it; what is added here is how an
answer looks as a line of text.
-/
import Parley.Proofs.Json.Record
import Parley.Proofs.Mcp.Exchange

namespace Parley.Mcp

open Json

/-! ## Answers as texts -/

/-- A response has a result just when it has no error and its result is not `null`. -/
theorem Response.outcome_eq_ok_iff {ms : Members} {r : Response}
    (h : Response.decode (.obj ms) = .ok r) (v : Json) :
    r.outcome = .ok v ↔ (ms.lookup "error").getD .null = .null ∧
      ∃ w, ms.lookup "result" = some w ∧ w ≠ .null ∧ v = w.collapse := by
  obtain ⟨_, error, h₂, herror, rfl⟩ := (Fields.took_of_decode h).seq
  obtain ⟨_, result, h₁, hresult, rfl⟩ := h₂.seq
  obtain ⟨id, -, rfl⟩ := h₁.map
  have herror := Fields.took_optional herror
  have hresult := Fields.took_optional hresult
  have he : error = none ↔ (ms.lookup "error").getD .null = .null := by
    rw [← Fields.nullable_eq_none_iff (d := ServerFault.decode), herror, Except.ok.injEq]
  -- a result that is null counts as none
  have hr : result = some v ↔ ∃ w, ms.lookup "result" = some w ∧ w ≠ .null ∧ v = w.collapse := by
    cases hl : ms.lookup "result" with
    | none =>
      rw [hl] at hresult
      cases hresult
      simp
    | some w =>
      rw [hl] at hresult
      by_cases hw : w = .null
      · subst hw
        cases hresult
        simp
      · have hc : result = some w.collapse := by
          cases w with
          | null => exact absurd rfl hw
          | bool | num | str | arr | obj => exact (Except.ok.inj hresult).symm
        simp [hc, hw, eq_comm]
  rw [← he, ← hr]
  unfold outcome
  cases error <;> cases result <;> simp

/-- The cursor of a page is a text, and there is none when it is absent or `null`. -/
theorem Page.nextCursor_of_decode {ms : Members} {p : Page} (h : Page.decode (.obj ms) = .ok p) :
    Decode.string.nullable ((ms.lookup "nextCursor").getD .null) = .ok p.nextCursor := by
  obtain ⟨_, cursor, h₁, hcursor, rfl⟩ := (Fields.took_of_decode h).seq
  obtain ⟨tools, -, rfl⟩ := h₁.map
  exact Fields.took_optional hcursor

namespace Stdio

/-- The answer to a request: of the texts not read before, the first that is a response with its
number. Without one all of the output is read. -/
inductive Exchange.Answered (server : String) (x : Exchange) : (rest : List Line) → Prop
  | byResponse {skipped rest : List Line} {s : String} {r : Response} :
    x.read = skipped ++ [.text s] → (∀ s', .text s' ∈ skipped → ∀ r', ¬ Responds x.id s' r') →
    Responds x.id s r → x.outcome = r.outcome → Answered server x rest
  | byEnd :
    (∀ s', .text s' ∈ x.read → ∀ r', ¬ Responds x.id s' r') →
    x.outcome = .error (closed server) → Answered server x []

theorem Awaits.answered_of_texts {server : String} {x : Exchange} {left rest : List Line}
    (h : Awaits server x.id x.read left x.outcome) (hr : left = [] → rest = [])
    (ht : ∀ l ∈ x.read, ∃ s, l = .text s) : x.Answered server rest := by
  obtain ⟨id, method, params, read, outcome⟩ := x
  have hskip {skipped : List Line} (hs : ∀ l ∈ skipped, l.outcome? server id = none) (s' : String)
      (hm : .text s' ∈ skipped) (r' : Response) : ¬ Responds id s' r' :=
    outcome?_text_eq_none_iff.1 (hs _ hm) r'
  cases h with
  | @answered skipped _ l _ hs ho =>
    obtain ⟨s, rfl⟩ := ht l (List.mem_append_right _ (List.mem_singleton_self l))
    obtain ⟨r, hr, hro⟩ := outcome?_text_eq_some_iff.1 ho
    exact .byResponse rfl (hskip hs) hr hro
  | ended hs =>
    rw [hr rfl]
    exact .byEnd (hskip hs) rfl

/-! ## Listings -/

/-- A listing that came to its last page. -/
structure Paged (cursor : Option String) (xs : List Exchange) (ps : List Page) : Prop where
  gives : List.Forall₂ Exchange.GivesPage xs ps
  /-- The first page was asked for at the cursor, every other at the one that the page before
  gave. -/
  asks : List.Forall₂ Exchange.AsksPage xs (cursor :: ps.dropLast.map Page.nextCursor)
  goesOn : ∀ p ∈ ps.dropLast, ∃ c, p.nextCursor = some c ∧ c ≠ ""
  stops : ∀ p ∈ ps.getLast?, p.nextCursor = none ∨ p.nextCursor = some ""

section Listings

variable {server : String} {cursor : Option String} {xs : List Exchange}
  {r : Except Error (List RemoteTool)}

theorem Paging.paged (h : Paging server cursor xs r) {ts : List RemoteTool} (hr : r = .ok ts) :
    ∃ p ps, Paged cursor xs (p :: ps) ∧ ts = (p :: ps).flatMap Page.tools := by
  induction h generalizing ts with
  | failed | malformed => cases hr
  | @last cursor x p ha hg hp =>
    cases hr
    refine ⟨p, [], ⟨.cons hg .nil, .cons ha .nil, ?_, ?_⟩, (List.append_nil _).symm⟩
    · intro q hq
      cases hq
    · intro q hq
      cases hq
      exact hp
  | @more cursor c x p xs r ha hg hc hne _ ih =>
    cases r with
    | error e => cases hr
    | ok us =>
      cases hr
      obtain ⟨q, qs, hq, rfl⟩ := ih rfl
      refine ⟨p, q :: qs, ⟨.cons hg hq.gives, ?_, ?_, ?_⟩, rfl⟩
      · rw [List.dropLast_cons_cons, List.map_cons, hc]
        exact .cons ha hq.asks
      · rw [List.dropLast_cons_cons]
        exact List.forall_mem_cons.2 ⟨⟨c, hc, hne⟩, hq.goesOn⟩
      · rw [List.getLast?_cons_cons]
        exact hq.stops

/-- Each page but the last takes a line of output. -/
theorem Paging.length_le (h : Paging server cursor xs r) {id : Nat} {output rest : List Line}
    (ht : Tiles server id xs output rest) : xs.length ≤ output.length + 1 := by
  induction h generalizing id output with
  | failed | malformed | last => simp
  | more ha hg hc hne hp ih =>
    cases ht with
    | cons hx hw ht =>
      obtain ⟨v, hv, -⟩ := hg
      have hpos := List.length_pos_iff.2 (hv ▸ hw).read_ne_nil
      have hle := ih ht
      rw [List.length_cons, List.length_append]
      omega

theorem Makes.length_le {op : Operation} {q : Except Error Answer} (h : Makes server xs q op)
    {id : Nat} {output rest : List Line} (ht : Tiles server id xs output rest) :
    xs.length ≤ output.length + 1 := by
  cases op with
  | list =>
    obtain ⟨_, hp, -⟩ := h
    exact hp.length_le ht
  | call name arguments =>
    obtain ⟨_, hc, -⟩ := h
    cases hc <;> simp

/-- A session makes no more requests than there are lines, and one. -/
theorem Held.length_le {op : Operation} {output rest : List Line} {first : Exchange}
    (h : Held op server output first xs rest) : xs.length ≤ output.length := by
  obtain ⟨ht, -, hrefused, hgreeted, -, -⟩ := h
  cases hf : first.outcome with
  | error e =>
    obtain ⟨rfl, -, -⟩ := hrefused e hf
    exact Nat.zero_le _
  | ok v =>
    have hm := (hgreeted v hf).1
    cases ht with
    | cons _ hw ht =>
      have hpos := List.length_pos_iff.2 (hf ▸ hw).read_ne_nil
      have hle := hm.length_le ht
      rw [List.length_append]
      omega

theorem Makes.paged {op : Operation} {ts : List RemoteTool}
    (h : Makes server xs (.ok (.tools ts)) op) :
    ∃ p ps, Paged none xs (p :: ps) ∧ ts = (p :: ps).flatMap Page.tools := by
  cases op with
  | list =>
    obtain ⟨q, hp, hq⟩ := h
    cases q with
    | error e => cases hq
    | ok us =>
      cases hq
      exact hp.paged rfl
  | call name arguments =>
    obtain ⟨q, -, hq⟩ := h
    cases q <;> cases hq

end Listings

/-! ## The protocol -/

/-- The conversation of an operation with a server that writes some texts: the exchange of the
handshake, those of the work behind it, and the output that is left unread. -/
structure Conduct (op : Operation) (server : Server) (texts : List String) (first : Exchange)
    (work : List Exchange) (rest : List Line) : Prop where
  greets : first.request = .request 1 "initialize" (some State.greeting)
  numbers : (first :: work).map Exchange.id = List.range' 1 (work.length + 1)
  /-- Every line is read at most once, and the lines are read in order. -/
  lines : texts.map .text = (first :: work).flatMap Exchange.read ++ rest
  unread : (op.converse server.command (texts.map .text)).2.output = rest
  /-- A request is answered by the first response with its number among the lines not read
  before, or by the end of the output. -/
  answers : ∀ x ∈ first :: work, x.Answered server.command rest
  /-- A response gives its result, unless there is an error or the result is missing or `null`. -/
  results : ∀ ms r, Response.decode (.obj ms) = .ok r → ∀ v, r.outcome = .ok v ↔
    (ms.lookup "error").getD .null = .null ∧
      ∃ w, ms.lookup "result" = some w ∧ w ≠ .null ∧ v = w.collapse
  /-- When the server refuses the handshake nothing else is sent. -/
  refused : ∀ e, first.outcome = .error e → work = [] ∧
    (op.converse server.command (texts.map .text)).1 = .error e ∧
    (op.converse server.command (texts.map .text)).2.sent = [first.request]
  /-- Else the server is told so, and the work follows; its last exchange makes the result. -/
  greeted : ∀ v, first.outcome = .ok v →
    Makes server.command work (op.converse server.command (texts.map .text)).1 op ∧
    (op.converse server.command (texts.map .text)).2.sent =
      first.request :: initialized :: work.map Exchange.request
  listed : ∀ ts, (op.converse server.command (texts.map .text)).1 = .ok (.tools ts) →
    ∃ p ps, Paged none work (p :: ps) ∧ ts = (p :: ps).flatMap Page.tools
  /-- There is no next page when the cursor is absent or `null`. -/
  cursors : ∀ ms p, Page.decode (.obj ms) = .ok p →
    (p.nextCursor = none ↔ (ms.lookup "nextCursor").getD .null = .null)
  /-- The session comes to its end: it makes no more requests than there are lines, and one. -/
  bounded : work.length ≤ texts.length
  answer : (op.run (.ok (session server.command (texts.map .text))) server).1 =
    (op.converse server.command (texts.map .text)).1

/-- Every operation on every output of texts keeps to the protocol. -/
theorem session_conduct (op : Operation) (server : Server) (texts : List String) :
    ∃ first work rest, Conduct op server texts first work rest := by
  obtain ⟨first, work, rest, h⟩ := converse_spec op server.command (texts.map .text)
  have hids := h.tiles.ids
  have hlines := h.tiles.output_eq
  refine ⟨first, work, rest, ?_⟩
  constructor
  case greets =>
    rw [List.map_cons, List.length_cons, List.range'_succ] at hids
    obtain ⟨hm, hp⟩ := h.greets
    rw [Exchange.request, (List.cons.inj hids).1, hm, hp]
  case numbers => exact hids
  case lines => exact hlines
  case unread => exact h.left
  case answers =>
    intro x hx
    obtain ⟨left, ha, hl⟩ := h.tiles.awaits hx
    -- what was read is part of the output, so it is text
    refine ha.answered_of_texts hl fun l hm => ?_
    have ho : l ∈ texts.map Line.text := by
      rw [hlines]
      exact List.mem_append_left _ (List.mem_flatMap.2 ⟨x, hx, hm⟩)
    obtain ⟨s, -, hs⟩ := List.mem_map.1 ho
    exact ⟨s, hs.symm⟩
  case results => exact fun _ _ hr => Response.outcome_eq_ok_iff hr
  case refused => exact h.refused
  case greeted => exact h.greeted
  case listed =>
    intro ts hts
    cases hf : first.outcome with
    | error e =>
      rw [(h.refused e hf).2.1] at hts
      cases hts
    | ok v =>
      have hm := (h.greeted v hf).1
      rw [hts] at hm
      exact hm.paged
  case cursors =>
    intro ms p hp
    rw [← Fields.nullable_eq_none_iff (d := Decode.string), Page.nextCursor_of_decode hp,
      Except.ok.injEq]
  case bounded => simpa using h.length_le
  case answer => exact op.run_session server _

/-- A server that lists its tools on two pages. -/
def pagesServer : Server := ⟨"sh", [], [], none⟩

/-- What it writes, with a banner in between. -/
def pagesOutput : List String :=
  ["\x7b\"jsonrpc\":\"2.0\",\"id\":1,\"result\":\x7b\x7d\x7d",
    "listening",
    "\x7b\"jsonrpc\":\"2.0\",\"id\":2,\"result\":" ++
      "\x7b\"tools\":[\x7b\"name\":\"clock\"\x7d],\"nextCursor\":\"more\"\x7d\x7d",
    "\x7b\"jsonrpc\":\"2.0\",\"id\":3,\"result\":" ++
      "\x7b\"tools\":[\x7b\"name\":\"dice\"\x7d],\"nextCursor\":null\x7d\x7d"]

/-- The second page is asked for at the cursor of the first, and the tools of both are listed. -/
theorem two_pages_conduct :
    ∃ first work rest, Conduct .list pagesServer pagesOutput first work rest ∧
      work.map Exchange.request =
        [.request 2 "tools/list" (some (.obj [])),
          .request 3 "tools/list" (some (.obj [("cursor", .str "more")]))] ∧
      ∃ p q, Paged none work [p, q] ∧ p.tools ++ q.tools =
        [⟨"clock", none, RemoteTool.emptySchema⟩, ⟨"dice", none, RemoteTool.emptySchema⟩] := by
  obtain ⟨first, work, rest, h⟩ := session_conduct .list pagesServer pagesOutput
  have hend : Operation.list.converse pagesServer.command (pagesOutput.map .text) =
      (.ok (.tools [⟨"clock", none, RemoteTool.emptySchema⟩,
        ⟨"dice", none, RemoteTool.emptySchema⟩]),
      ⟨"sh", [], 4, [.request 1 "initialize" (some State.greeting), initialized,
        .request 2 "tools/list" (some (.obj [])),
        .request 3 "tools/list" (some (.obj [("cursor", .str "more")]))]⟩) := by
    decide +kernel
  have hwork : work.map Exchange.request =
      [.request 2 "tools/list" (some (.obj [])),
        .request 3 "tools/list" (some (.obj [("cursor", .str "more")]))] := by
    cases hf : first.outcome with
    | error e =>
      -- a session that is refused lists nothing
      have hr := (h.refused e hf).2.1
      rw [hend] at hr
      cases hr
    | ok v =>
      have hg := (h.greeted v hf).2
      rw [hend] at hg
      exact (List.cons.inj (List.cons.inj hg).2).2.symm
  obtain ⟨p, ps, hp, hts⟩ := h.listed _ (congrArg Prod.fst hend)
  -- there are as many pages as requests for one
  have hlen : 2 = ps.length + 1 := by
    rw [← List.length_cons, ← hp.gives.length_eq, ← List.length_map, hwork]
    rfl
  obtain ⟨q, rfl⟩ := List.length_eq_one_iff.1 (Nat.succ.inj hlen.symm)
  exact ⟨first, work, rest, h, hwork, p, q, hp, by simpa using hts.symm⟩

end Stdio

end Parley.Mcp
