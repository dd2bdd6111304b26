/-
The messages of a conversation and their wire form: one flat record whose role says which of its
optional fields count. An assistant's message is a request for tools when it has `tool_calls`.
-/
import Parley.Tool.Call

namespace Parley.Chat

open Json

/-- Who a message is from. -/
inductive Role where
  | system
  | user
  | assistant
  | tool
  deriving DecidableEq, Repr

/-- A message of a conversation. -/
inductive Message where
  | system (content : String)
  | user (content : String)
  | assistant (content : String) (reasoning : Option Bool)
  | toolCalls (calls : List ToolCall)
  | toolResult (name callId content : String)
  deriving DecidableEq, Repr

/-! ## Roles -/

namespace Role

/-- A role as messages name it. -/
def name : Role → String
  | .system => "system"
  | .user => "user"
  | .assistant => "assistant"
  | .tool => "tool"

/-- A role in JSON. -/
def toJson (r : Role) : Json := .str r.name

/-- Reads a role at its place. -/
def decodeAt (place : Decode.Place) : Decode Role :=
  Decode.choice place ([system, user, assistant, tool].map fun r => (r.name, r))

/-- Reads a role. -/
def decode : Decode Role := decodeAt .alone

end Role

namespace Message

/-- The role of the one who says it. -/
def role : Message → Role
  | .system _ => .system
  | .user _ => .user
  | .assistant _ _ | .toolCalls _ => .assistant
  | .toolResult _ _ _ => .tool

/-- The text that a message carries. -/
def content? : Message → Option String
  | .system c | .user c | .assistant c _ | .toolResult _ _ c => some c
  | .toolCalls _ => none

/-- Whether the message is a thought of the assistant. -/
def isReasoning : Message → Bool
  | .assistant _ (some true) => true
  | _ => false

/-- Whether the system says it. -/
def isSystem : Message → Bool
  | .system _ => true
  | _ => false

/-! ## Wire form -/

/-- The fields that messages of all kinds share. -/
structure Wire where
  role : Role
  content : Option String
  reasoning : Option Bool
  toolCalls : Option (List ToolCall)
  name : Option String
  callId : Option String

/-- What a wire form lacks. -/
inductive Lack where
  | content (role : Role)
  | toolName
  | callId
  deriving DecidableEq, Repr

/-- The text that reports the lack. -/
def Lack.message : Lack → String
  | .content role => role.name ++ " message requires string content"
  | .toolName => "tool message requires 'name'"
  | .callId => "tool message requires 'tool_call_id'"

/-- The content of a message that has to have some. -/
def Wire.text (w : Wire) : Except Lack String :=
  match w.content with
  | some c => .ok c
  | none => .error (.content w.role)

/-- The message that a wire form stands for. -/
def ofWire (w : Wire) : Except Lack Message :=
  match w.role with
  | .system => w.text.map .system
  | .user => w.text.map .user
  | .assistant =>
    match w.toolCalls with
    | some calls => .ok (.toolCalls calls)
    | none => w.text.map (.assistant · w.reasoning)
  | .tool =>
    match w.name, w.callId with
    | none, _ => .error .toolName
    | some _, none => .error .callId
    | some name, some callId => w.text.map (.toolResult name callId)

/-- The fields of a message. -/
def toWire (m : Message) : Wire :=
  let blank : Wire := ⟨m.role, m.content?, none, none, none, none⟩
  match m with
  | .system _ | .user _ => blank
  | .assistant _ reasoning => { blank with reasoning }
  | .toolCalls calls => { blank with toolCalls := some calls }
  | .toolResult name callId _ => { blank with name := some name, callId := some callId }

/-- Reads the fields of a message at its place. -/
def Wire.decodeAt (place : Decode.Place) : Decode Wire :=
  Fields.decode
    (Wire.mk <$> Fields.required "role" (Role.decodeAt place)
      <*> Fields.nullable "content" Decode.string
      <*> Fields.optional ["reasoning"] Decode.bool
      <*> Fields.optional ["tool_calls"] (Decode.list ToolCall.decode)
      <*> Fields.optional ["name"] Decode.string
      <*> Fields.optional ["tool_call_id"] Decode.string)

/-- A wire form always shows its content, and of the other fields those it has. -/
def Wire.toJson (w : Wire) : Json :=
  .obj (Members.compact
    [("role", some w.role.toJson),
      ("content", some ((w.content.map .str).getD .null)),
      ("reasoning", w.reasoning.map .bool),
      ("tool_calls", w.toolCalls.map fun calls => .arr (calls.map ToolCall.toJson)),
      ("name", w.name.map .str),
      ("tool_call_id", w.callId.map .str)])

/-- Reads a message at its place; it needs the fields that its role asks for. -/
def decodeAt (place : Decode.Place) : Decode Message := fun v =>
  match Wire.decodeAt place v with
  | .error e => .error e
  | .ok w =>
    match ofWire w with
    | .ok m => .ok m
    | .error e => .error (.refused e.message)

/-- Reads a message. -/
def decode : Decode Message := decodeAt .alone

/-- A message in JSON. -/
def toJson (m : Message) : Json := m.toWire.toJson

end Message

end Parley.Chat
