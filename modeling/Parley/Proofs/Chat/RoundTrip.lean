/-
Round trips of all that goes over the wire: messages, calls, deltas and events. What is written of a
value is read as that value, whatever its texts, its calls and their arguments are. A reader also
accepts values that no writer gives (a record as a list, arguments as a text, a call without a kind,
a member that it skips), so reading and writing again need not give back what was read; but it gives
a normal form, which a second time changes nothing (`RoundTrip.recode_idem`).
-/
import Parley.Chat.Delta
import Parley.Chat.Event
import Parley.Proofs.Chat.Wire
import Mathlib.Control.Monad.Basic

namespace Parley

open Json

/-! ## Codecs -/

namespace Json

variable {α : Type} {d : Decode α} {enc : α → Json}

/-- Reads a value and writes what was read. -/
def recode (d : Decode α) (enc : α → Json) (v : Json) : Except Fault Json :=
  (d v).map enc

theorem recode_eq_ok_iff {v w : Json} :
    recode d enc v = .ok w ↔ ∃ a, d v = .ok a ∧ w = enc a := by
  unfold recode
  cases h : d v with
  | error e => simp [Except.map]
  | ok a =>
    constructor
    · intro hw
      cases hw
      exact ⟨a, rfl, rfl⟩
    · rintro ⟨b, hb, rfl⟩
      cases hb
      rfl

/-- What a reader and a writer of one type make of each other. -/
structure RoundTrip (d : Decode α) (enc : α → Json) : Prop where
  /-- What is written is read as it was. -/
  decode_encode : ∀ a, d (enc a) = .ok a
  /-- A value that was read, from whatever, is read again when it is written. -/
  decode_again : ∀ v a, d v = .ok a → d (enc a) = .ok a
  /-- What is written of something that was read is its normal form. -/
  recode_idem : ∀ v w, recode d enc v = .ok w → recode d enc w = .ok w

theorem roundTrip_of_decode_encode (h : ∀ a, d (enc a) = .ok a) : RoundTrip d enc where
  decode_encode := h
  decode_again _ a _ := h a
  recode_idem v w hw := by
    obtain ⟨a, -, rfl⟩ := recode_eq_ok_iff.1 hw
    exact recode_eq_ok_iff.2 ⟨a, h a, rfl⟩

end Json

namespace Chat

/-! ## Deltas -/

theorem FinishReason.decode_toJson (r : FinishReason) : FinishReason.decode r.toJson = .ok r := by
  cases r <;> rfl

namespace Delta

/-- The members of a delta, which are all written. -/
def members (d : Delta) : List (String × Option Json) :=
  [("finish_reason", some ((d.finish.map FinishReason.toJson).getD .null)),
    ("message", some d.message.toJson)]

theorem members_nodup (d : Delta) : (d.members.map Prod.fst).Nodup := by
  show ["finish_reason", "message"].Nodup
  decide

theorem decode_toJson (d : Delta) : decode d.toJson = .ok d := by
  have hn := d.members_nodup
  refine Fields.Gives.decode (?_ : Fields.Gives _ (.named (Members.compact d.members)) d)
  refine Fields.Gives.seq (Fields.Gives.map Delta.mk ?finish) ?message
  case finish =>
    refine Fields.gives_nullable hn rfl ?_
    cases d.finish with
    | none => rfl
    | some r =>
      show (FinishReason.decode r.toJson).map some = _
      rw [FinishReason.decode_toJson]
      rfl
  case message => exact Fields.gives_required hn rfl (Message.decode_toJson .alone d.message)

end Delta

/-! ## Events -/

namespace Event

/-- The result of a call is read as the message that tells the model about it. -/
theorem decode_toolResult (m : Message) : decode (toolResult m).toJson = .ok (.toolResult m) := by
  have hn : ([("result", some m.toJson)].map Prod.fst).Nodup := List.nodup_singleton _
  -- behind the type only the message is left, under its one name
  show Fields.decode (Event.toolResult <$> Fields.required "result" (Message.decodeAt .underTag))
    (.obj (Members.compact [("result", some m.toJson)])) = _
  refine Fields.Gives.decode (Fields.Gives.map Event.toolResult ?_)
  exact Fields.gives_required hn rfl (Message.decode_toJson .underTag m)

theorem decode_toJson (e : Event) : decode e.toJson = .ok e := by
  cases e with
  | outputText | reasoning | toolCall | error => rfl
  | toolResult m => exact decode_toolResult m

end Event

/-! ## The wire -/

/-- All that goes over the wire is read back as it was written. -/
theorem wire_roundTrip :
    RoundTrip Message.decode Message.toJson ∧ RoundTrip ToolCall.decode ToolCall.toJson ∧
      RoundTrip Delta.decode Delta.toJson ∧ RoundTrip Event.decode Event.toJson :=
  ⟨roundTrip_of_decode_encode (Message.decode_toJson .alone),
    roundTrip_of_decode_encode ToolCall.decode_toJson,
    roundTrip_of_decode_encode Delta.decode_toJson,
    roundTrip_of_decode_encode Event.decode_toJson⟩

/-- The normal form of a call that has no kind, and its arguments as a text. -/
example : recode ToolCall.decode ToolCall.toJson
    (.obj [("id", .str "1"), ("function", .obj
      [("arguments", .str "\x7b\"zone\":\"utc\"\x7d"), ("name", .str "clock")])]) =
    .ok (ToolCall.new "1" "clock" [("zone", .str "utc")]).toJson := by
  decide +kernel

end Chat

end Parley
