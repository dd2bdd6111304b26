/-
The text of a message on its way through an agent. A message that is read from an object with a text
as its content has that text, shows it when it is streamed, and carries it in every later request.
The one exception are requests for tools: an assistant's message that has `tool_calls` keeps its
calls and nothing else, so a text beside them is given up when the message is read.

Which of the two a message is can be seen from the members of the object (`AsksForTools`); the cases
of the proof are those of the role (`decode_content`).
-/
import Parley.Proofs.Agent.Moments
import Parley.Proofs.Chat.Format

namespace Parley

namespace Chat

open Json

namespace Message

/-! ## Reading -/

/-- The members of an assistant's message that has `tool_calls`. -/
structure AsksForTools (ms : Members) : Prop where
  role : ∃ r, ms.lookup "role" = some r ∧ Role.decode r = .ok .assistant
  calls : (ms.lookup "tool_calls").getD .null ≠ .null

section Reading

variable {ms : Members} {m : Message} {w : Wire} {s : String}

theorem Wire.ReadFrom.asksForTools_iff (h : w.ReadFrom ms) :
    AsksForTools ms ↔ w.role = .assistant ∧ w.toolCalls ≠ none := by
  obtain ⟨r, hr, hd⟩ := h.role
  have hcalls : w.toolCalls = none ↔ (ms.lookup "tool_calls").getD .null = .null :=
    Decode.nullable_none_iff h.toolCalls
  constructor
  · rintro ⟨⟨r', hr', hd'⟩, hc⟩
    rw [hr] at hr'
    cases hr'
    rw [hd] at hd'
    exact ⟨Except.ok.inj hd', fun hn => hc (hcalls.1 hn)⟩
  · rintro ⟨ha, hc⟩
    exact ⟨⟨r, hr, ha ▸ hd⟩, fun hn => hc (hcalls.2 hn)⟩

/-- A message that is read has the text that it was read with, unless it asks for tools. -/
theorem decode_content (h : decode (.obj ms) = .ok m) (hs : ms.lookup "content" = some (.str s)) :
    (AsksForTools ms ∧ ∃ calls, m = .toolCalls calls ∧
      Decode.list ToolCall.decode ((ms.lookup "tool_calls").getD .null) = .ok calls) ∨
    ¬ AsksForTools ms ∧ m.content? = some s := by
  obtain ⟨w, hw, ho⟩ := decode_ok h
  have hc : w.content = some s := by
    have := hw.content
    rw [hs] at this
    exact (Except.ok.inj this).symm
  have ht : w.text = .ok s := by simp [Wire.text, hc]
  rw [hw.asksForTools_iff]
  unfold ofWire at ho
  -- only an assistant asks for tools, and every other role keeps its text
  cases hr : w.role with
  | system | user =>
    simp only [hr, ht] at ho
    cases ho
    exact .inr ⟨fun ha => (by cases ha.1), rfl⟩
  | assistant =>
    cases hk : w.toolCalls with
    | some calls =>
      simp only [hr, hk] at ho
      cases ho
      refine .inl ⟨⟨rfl, fun hn => by cases hn⟩, calls, rfl, Fields.of_nullable ?_⟩
      rw [hw.toolCalls, hk]
    | none =>
      simp only [hr, hk, ht] at ho
      cases ho
      exact .inr ⟨fun ha => ha.2 rfl, rfl⟩
  | tool =>
    refine .inr ⟨fun ha => (by cases ha.1), ?_⟩
    cases hn : w.name with
    | none => simp [hr, hn] at ho
    | some name =>
      cases hi : w.callId with
      | none => simp [hr, hn, hi] at ho
      | some callId =>
        simp only [hr, hn, hi, ht] at ho
        cases ho
        rfl

end Reading

/-! ## Writing -/

section Writing

variable {m : Message} {s : String}

theorem toJson_content (m : Message) :
    m.toJson.get? "content" = some ((m.content?.map .str).getD .null) := by
  cases m <;> rfl

theorem text_content (h : m.content? = some s) (endOfTurn : Bool) :
    (Event.text m endOfTurn).content? = some s := by
  unfold Event.text
  rw [h]
  dsimp only
  split <;> rfl

/-- Every request of an agent that holds the message has it among its messages. -/
theorem request_content (h : m.content? = some s) {t : Agent.Turn}
    (hm : m ∈ t.agent.history.messages) :
    ∃ xs, t.request.items? "messages" = some xs ∧ ∃ x ∈ xs, x.get? "content" = some (.str s) := by
  refine ⟨_, Agent.Turn.request_messages t, m.toJson, List.mem_map_of_mem hm, ?_⟩
  rw [toJson_content, h]
  rfl

end Writing

end Message

end Chat

namespace Agent

open Chat Turn

/-! ## Streaming -/

section Streaming

variable {t : Turn} {v : Json} {rest : List Item} {m : Message} {s : String}

theorem advance_streaming {d : Delta} (hp : t.phase = .streaming (.ok v :: rest))
    (hd : Delta.decode v = .ok d) : t.advance = t.receive d rest := by
  unfold advance
  simp only [hp, hd]

theorem append_pending (t : Turn) (m : Message) (next : Phase) :
    ∃ more, (t.append m next).pending = t.pending ++ more := by
  unfold append
  split
  · exact ⟨[], (List.append_nil _).symm⟩
  · exact ⟨_, rfl⟩

/-- A delta that does not ask for tools, nor says that the model gave up, shows its text first. -/
theorem receive_text (h : m.content? = some s) {f : Option FinishReason}
    (hf : f = none ∨ f = some .stop ∨ f = some .length) :
    ∃ e more, (t.receive ⟨f, m⟩ rest).pending = t.pending ++ .ok e :: more ∧
      e.content? = some s := by
  obtain ⟨more, hm⟩ := append_pending (t.showing [.text m false]) m .done
  have hs : ((t.showing [.text m false]).append m .done).pending =
      t.pending ++ .ok (.text m false) :: more := by
    rw [hm]
    exact List.append_assoc _ _ _
  rcases hf with rfl | rfl | rfl
  · exact ⟨_, [], rfl, Message.text_content h false⟩
  · exact ⟨_, more, hs, Message.text_content h false⟩
  · exact ⟨_, more, hs, Message.text_content h false⟩

theorem failureText_content (h : m.content? = some s) :
    failureText m = if s.isEmpty then "inference failed" else s := by
  unfold failureText
  rw [h]

end Streaming

/-- What becomes of a text that a message has. -/
structure Carries (s : String) (m : Message) : Prop where
  content : m.content? = some s
  /-- Written again, the message has its text, in every request for inference behind it. -/
  encoded : m.toJson.get? "content" = some (.str s)
  asked : ∀ t : Turn, m ∈ t.agent.history.messages →
    ∃ xs, t.request.items? "messages" = some xs ∧ ∃ x ∈ xs, x.get? "content" = some (.str s)
  /-- A delta that goes on or stops shows it. -/
  shown : ∀ (t : Turn) v rest f, t.phase = .streaming (.ok v :: rest) →
    Delta.decode v = .ok ⟨f, m⟩ → f = none ∨ f = some .stop ∨ f = some .length →
    ∃ e more, t.advance.pending = t.pending ++ .ok e :: more ∧ e.content? = some s
  /-- A delta with which the model gives up shows it as the error, if there is any text. -/
  failed : ∀ (t : Turn) v rest, t.phase = .streaming (.ok v :: rest) →
    Delta.decode v = .ok ⟨some .error, m⟩ →
    t.advance.pending =
      t.pending ++ [.ok (.error (if s.isEmpty then "inference failed" else s))]

theorem carries_of_content {m : Message} {s : String} (h : m.content? = some s) : Carries s m where
  content := h
  encoded := by
    rw [Message.toJson_content, h]
    rfl
  asked _ hm := Message.request_content h hm
  shown _ _ _ _ hp hd hf := by
    rw [advance_streaming hp hd]
    exact receive_text h hf
  failed _ _ _ hp hd := by
    rw [advance_streaming hp hd, ← failureText_content h]
    rfl

/-- The text that a message is read with is carried on, unless an assistant's message has
`tool_calls`: then the calls are all that is read. -/
theorem decoded_text_carried (ms : Json.Members) (m : Message) (s : String)
    (h : Message.decode (.obj ms) = .ok m) (hs : ms.lookup "content" = some (.str s)) :
    (Message.AsksForTools ms → ∃ calls, m = .toolCalls calls ∧
      Json.Decode.list ToolCall.decode ((ms.lookup "tool_calls").getD .null) = .ok calls) ∧
      (¬ Message.AsksForTools ms → Carries s m) := by
  rcases Message.decode_content h hs with ⟨ha, hm⟩ | ⟨ha, hm⟩
  · exact ⟨fun _ => hm, fun hn => absurd ha hn⟩
  · exact ⟨fun hn => absurd hn ha, fun _ => carries_of_content hm⟩

/-- A text with `tool_calls` that are `null`. -/
theorem text_without_calls_carried :
    Message.decode (.obj [("role", .str "assistant"), ("content", .str "Noon."),
      ("tool_calls", .null)]) = .ok (.assistant "Noon." none) ∧
    Carries "Noon." (.assistant "Noon." none) := by
  refine ⟨rfl, (decoded_text_carried [("role", .str "assistant"), ("content", .str "Noon."),
    ("tool_calls", .null)] _ _ rfl rfl).2 fun h => h.calls rfl⟩

/-- A text beside a call: it is read as the call alone, written with `null` for its content, and
shown as nothing. -/
theorem text_beside_call_lost :
    Message.decode (.obj [("role", .str "assistant"), ("content", .str "Let me look."),
      ("tool_calls", .arr [(ToolCall.new "c1" "clock" []).toJson])]) =
        .ok (.toolCalls [.new "c1" "clock" []]) ∧
    (Message.toolCalls [.new "c1" "clock" []]).content? ≠ some "Let me look." ∧
    (Message.toolCalls [.new "c1" "clock" []]).toJson.get? "content" = some .null ∧
    (Event.text (.toolCalls [.new "c1" "clock" []]) false).content? = some "" :=
  ⟨rfl, nofun, rfl, rfl⟩

end Agent

end Parley
