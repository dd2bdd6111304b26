/-
Tool servers: how to start one, the tools that it advertises and what it answers to a call.
-/
import Parley.Http.Request
import Parley.Tool.Description

namespace Parley.Mcp

open Json

/-! ## Starting a server -/

/-- How to start a tool server. -/
structure Server where
  command : String
  args : List String
  env : Dictionary String
  cwd : Option String
  deriving DecidableEq, Repr

namespace Server

/-- Reads how a server is started. -/
def decode : Decode Server :=
  Fields.decode
    (Server.mk <$> Fields.required "command" Decode.string
      <*> Fields.defaulted ["args"] (Decode.list Decode.string) []
      <*> Fields.defaulted ["env"] Http.decodeTexts []
      <*> Fields.optional ["cwd"] Decode.string)

/-- How a server is started, in JSON. -/
def toJson (s : Server) : Json :=
  .obj (Members.compact
    [("command", some (.str s.command)), ("args", some (.arr (s.args.map .str))),
      ("env", some (Http.textsToJson s.env)), ("cwd", s.cwd.map .str)])

end Server

/-! ## Advertised tools -/

/-- A tool as its server advertises it. -/
structure RemoteTool where
  name : String
  description : Option String
  inputSchema : Json
  deriving DecidableEq, Repr

namespace RemoteTool

/-- The schema of a tool that shows none. -/
def emptySchema : Json := .obj [("type", .str "object")]

/-- Reads a tool as it is advertised. -/
def decode : Decode RemoteTool :=
  Fields.decode
    (RemoteTool.mk <$> Fields.required "name" Decode.string
      <*> Fields.optional ["description"] Decode.string
      <*> Fields.defaulted ["inputSchema"] Decode.any emptySchema)

/-- An advertised tool in JSON. -/
def toJson (t : RemoteTool) : Json :=
  .obj (Members.compact
    [("name", some (.str t.name)), ("description", t.description.map .str),
      ("inputSchema", some t.inputSchema)])

end RemoteTool

/-- A part of the list of advertised tools, and where the next part starts. -/
structure Page where
  tools : List RemoteTool
  nextCursor : Option String
  deriving DecidableEq, Repr

/-- Reads a page. -/
def Page.decode : Decode Page :=
  Fields.decode
    (Page.mk <$> Fields.defaulted ["tools"] (Decode.list RemoteTool.decode) []
      <*> Fields.optional ["nextCursor"] Decode.string)

/-- The cursor of the next page, unless this one is the last. -/
def Page.next? (p : Page) : Option String :=
  p.nextCursor.filter fun c => !c.isEmpty

/-! ## Results of calls -/

/-- A part of what a call gave. -/
inductive Content where
  | text (text : String)
  | image (data : String)
  | audio (data : String)
  | resource (text blob : Option String)
  /-- A part of some other kind. -/
  | unsupported
  deriving DecidableEq, Repr

namespace Content

/-- The fields of an image or a sound. -/
def media (make : String → Content) : Decode Content :=
  Fields.decode
    ((fun data _ => make data) <$> Fields.required "data" Decode.string
      <*> Fields.optional ["mimeType"] Decode.string)

/-- Reads the contents of a resource. -/
def decodeResource : Decode Content :=
  Fields.decode
    ((fun _ text blob => Content.resource text blob) <$> Fields.optional ["uri"] Decode.string
      <*> Fields.optional ["text"] Decode.string
      <*> Fields.optional ["blob"] Decode.string)

/-- The fields of a part of the given type; of one that is not known none are read. -/
def form : String → Option (Decode Content)
  | "text" => some (Fields.decode (.text <$> Fields.required "text" Decode.string))
  | "image" => some (media .image)
  | "audio" => some (media .audio)
  | "resource" => some (Fields.decode (id <$> Fields.required "resource" decodeResource))
  | _ => some (Fields.decode (pure .unsupported))

/-- Reads a part of a result, told apart by its type. -/
def decode : Decode Content := Decode.tagged "type" form

/-- What the model gets to see: a text as it is, other data as it is encoded. -/
def payload? : Content → Option String
  | .text t => some t
  | .image d | .audio d => some d
  | .resource t b => t.or b
  | .unsupported => none

end Content

/-- What a call of a tool gave. -/
structure CallResult where
  content : List Content
  isError : Bool
  deriving DecidableEq, Repr

/-- Reads the result of a call. -/
def CallResult.decode : Decode CallResult :=
  Fields.decode
    (CallResult.mk <$> Fields.defaulted ["content"] (Decode.list Content.decode) []
      <*> Fields.defaulted ["isError"] Decode.bool false)

/-- All that the model gets to see of the result. -/
def CallResult.payloads (r : CallResult) : List String :=
  r.content.filterMap Content.payload?

end Parley.Mcp
