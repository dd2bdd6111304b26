/-
The units in which the model streams its answer: a message, and why the model stopped, when it
did.
-/
import Parley.Chat.Message

namespace Parley.Chat

open Json

/-- Why the model stopped. -/
inductive FinishReason where
  | stop
  | toolCalls
  | length
  | error
  deriving DecidableEq, Repr

namespace FinishReason

/-- A reason as deltas name it. -/
def name : FinishReason → String
  | .stop => "stop"
  | .toolCalls => "tool_calls"
  | .length => "length"
  | .error => "error"

/-- A reason in JSON. -/
def toJson (r : FinishReason) : Json := .str r.name

/-- Reads a reason. -/
def decode : Decode FinishReason :=
  Decode.choice .alone ([stop, toolCalls, length, error].map fun r => (r.name, r))

end FinishReason

/-- A streamed unit; it has no reason to finish while the model goes on writing. -/
structure Delta where
  finish : Option FinishReason
  message : Message
  deriving DecidableEq, Repr

namespace Delta

/-- Reads a delta. -/
def decode : Decode Delta :=
  Fields.decode
    (Delta.mk <$> Fields.nullable "finish_reason" FinishReason.decode
      <*> Fields.required "message" Message.decode)

/-- A delta in JSON. -/
def toJson (d : Delta) : Json :=
  .obj [("finish_reason", (d.finish.map FinishReason.toJson).getD .null),
    ("message", d.message.toJson)]

end Delta

end Parley.Chat
