/-
What a turn shows to its caller. Events are drawn from the messages of the turn and never go back
into the history.
-/
import Parley.Chat.Message

namespace Parley.Chat

open Json

/-- An event of a turn. -/
inductive Event where
  | outputText (content : String) (endOfTurn : Bool)
  | reasoning (content : String) (endOfTurn : Bool)
  | toolCall (call : ToolCall) (endOfTurn : Bool)
  | toolResult (result : Message)
  | error (content : String)
  deriving DecidableEq, Repr

namespace Event

/-- Shows the text of a message, as a thought when it is one. -/
def text (m : Message) (endOfTurn : Bool) : Event :=
  let content := m.content?.getD ""
  if m.isReasoning then .reasoning content endOfTurn else .outputText content endOfTurn

/-- The name of the kind of event. -/
def kind : Event → String
  | .outputText _ _ => "output_text"
  | .reasoning _ _ => "reasoning"
  | .toolCall _ _ => "tool_call"
  | .toolResult _ => "tool_call_result"
  | .error _ => "error"

/-- The text of an output, a thought or an error. -/
def content? : Event → Option String
  | .outputText c _ | .reasoning c _ | .error c => some c
  | .toolCall _ _ | .toolResult _ => none

/-- An event in JSON, with its type first. -/
def toJson (e : Event) : Json :=
  .obj (("type", .str e.kind) ::
    match e with
    | .outputText c b | .reasoning c b => [("content", .str c), ("end_of_turn", .bool b)]
    | .toolCall c b => [("call", c.toJson), ("end_of_turn", .bool b)]
    | .toolResult m => [("result", m.toJson)]
    | .error c => [("content", .str c)])

/-- The fields of an event of the given kind. -/
def fields : String → Option (Decode Event)
  | "output_text" => some (Fields.decode
      (.outputText <$> Fields.required "content" Decode.string
        <*> Fields.required "end_of_turn" Decode.bool))
  | "reasoning" => some (Fields.decode
      (.reasoning <$> Fields.required "content" Decode.string
        <*> Fields.required "end_of_turn" Decode.bool))
  | "tool_call" => some (Fields.decode
      (.toolCall <$> Fields.required "call" ToolCall.decode
        <*> Fields.required "end_of_turn" Decode.bool))
  | "tool_call_result" => some (Fields.decode
      (.toolResult <$> Fields.required "result" (Message.decodeAt .underTag)))
  | "error" => some (Fields.decode (.error <$> Fields.required "content" Decode.string))
  | _ => none

/-- Reads an event of a known type. -/
def decode : Decode Event := Decode.tagged "type" fields

end Event

end Parley.Chat
