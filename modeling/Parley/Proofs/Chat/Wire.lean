/-
The wire form of messages: a message, and each call that it makes, is read back as it was written,
so that the host can tell from a request the very conversation that the agent holds.
-/
import Parley.Chat.History
import Parley.Proofs.Json.Record

namespace Parley

open Json

/-! ## Calls -/

theorem ToolCall.decode_toJson (c : ToolCall) : ToolCall.decode c.toJson = .ok c := rfl

namespace Chat

variable (place : Decode.Place)

theorem Role.decode_toJson (r : Role) : Role.decodeAt place r.toJson = .ok r := by
  cases r <;> rfl

/-! ## Messages -/

namespace Message

/-- The members of a wire form, those that are left out included. -/
def Wire.members (w : Wire) : List (String × Option Json) :=
  [("role", some w.role.toJson), ("content", some ((w.content.map .str).getD .null)),
    ("reasoning", w.reasoning.map .bool),
    ("tool_calls", w.toolCalls.map fun calls => .arr (calls.map ToolCall.toJson)),
    ("name", w.name.map .str), ("tool_call_id", w.callId.map .str)]

theorem Wire.members_nodup (w : Wire) : (w.members.map Prod.fst).Nodup := by
  show ["role", "content", "reasoning", "tool_calls", "name", "tool_call_id"].Nodup
  decide

/-- A wire form is read back as it was written, whichever of its fields it has. -/
theorem Wire.decode_toJson (w : Wire) : Wire.decodeAt place w.toJson = .ok w := by
  have hn := w.members_nodup
  refine Fields.Gives.decode (?_ : Fields.Gives _ (.named (Members.compact w.members)) w)
  refine Fields.Gives.seq (Fields.Gives.seq (Fields.Gives.seq (Fields.Gives.seq
    (Fields.Gives.seq (Fields.Gives.map Wire.mk ?role) ?content) ?reasoning) ?calls) ?name) ?callId
  case role => exact Fields.gives_required hn rfl (Role.decode_toJson place w.role)
  case content =>
    refine Fields.gives_nullable hn rfl ?_
    cases w.content <;> rfl
  case reasoning => exact Fields.gives_optional hn rfl fun _ => rfl
  case calls =>
    refine Fields.gives_optional hn rfl fun cs => ?_
    show (Decode.list ToolCall.decode (.arr (cs.map ToolCall.toJson))).map some = _
    rw [Decode.list_map ToolCall.decode_toJson]
    rfl
  case name => exact Fields.gives_optional hn rfl fun _ => rfl
  case callId => exact Fields.gives_optional hn rfl fun _ => rfl

theorem ofWire_toWire (m : Message) : ofWire m.toWire = .ok m := by
  cases m <;> rfl

/-- A message is read back as it was written, wherever it stands. -/
theorem decode_toJson (m : Message) : decodeAt place m.toJson = .ok m := by
  unfold decodeAt toJson
  rw [Wire.decode_toJson]
  simp only [ofWire_toWire]

end Message

/-- A conversation is read back as it was written. -/
theorem History.decode_toJson (h : History) :
    Decode.list Message.decode h.toJson = .ok h.messages :=
  Decode.list_map (Message.decode_toJson .alone) h.messages

end Chat

end Parley
