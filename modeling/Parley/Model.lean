/-
The catalogue of the language models that an agent can be bound to.
-/
import Parley.Definition.Error
import Parley.Json.Basic

namespace Parley

open Json

namespace Model

/-- What may be set when a model is defined. -/
inductive Attribute where
  | device
  | quantization
  | mode
  | apiKey
  deriving DecidableEq, Repr

/-- The name of an attribute, as components are given it. -/
def Attribute.name : Attribute → String
  | .device => "device"
  | .quantization => "quantization"
  | .mode => "mode"
  | .apiKey => "api_key"

/-- The attributes in the order in which they are passed on. -/
def Attribute.all : List Attribute := [.device, .quantization, .mode, .apiKey]

/-- The attributes that are set. -/
structure Attributes where
  device : Option Nat
  quantization : Option String
  mode : Option String
  apiKey : Option String
  deriving DecidableEq, Repr

namespace Attributes

/-- No attribute at all. -/
def none : Attributes := ⟨.none, .none, .none, .none⟩

/-- The value of an attribute, if it is set. -/
def get? (as : Attributes) : Attribute → Option Json
  | .device => as.device.map Json.ofNat
  | .quantization => as.quantization.map .str
  | .mode => as.mode.map .str
  | .apiKey => as.apiKey.map .str

end Attributes

end Model

/-- A language model: its name here, the type of the component that runs it, its name there, the
message that the system gives it by default and the attributes that it has to have. -/
structure Model where
  name : String
  componentType : String
  modelId : String
  systemMessage : Option String
  required : List Model.Attribute
  deriving DecidableEq, Repr

namespace Model

/-- The default message of the models of one family. -/
def qwenSystemMessage : String :=
  "You are Qwen, created by Alibaba Cloud. You are a helpful assistant."

/-- A model of that family. -/
def qwen (name modelId : String) : Model :=
  ⟨name, "tvm_language_model", modelId, some qwenSystemMessage, []⟩

/-- All models. -/
def catalogue : List Model :=
  [qwen "qwen3-0.6b" "Qwen/Qwen3-0.6B", qwen "qwen3-1.7b" "Qwen/Qwen3-1.7B",
    qwen "qwen3-4b" "Qwen/Qwen3-4B", qwen "qwen3-8b" "Qwen/Qwen3-8B",
    ⟨"gpt-4o", "openai", "gpt-4o", none, [.apiKey]⟩]

/-- The model of a name. -/
def find (name : String) : Except Definition.Error Model :=
  match catalogue.find? fun m => m.name = name with
  | some m => .ok m
  | none => .error (.unsupportedModel name)

/-- What the component is defined with: the model and all attributes that are set. -/
def componentAttrs (m : Model) (as : Attributes) : Except Definition.Error Json :=
  match m.required.find? fun a => (as.get? a).isNone with
  | some a => .error (.missingModelAttribute m.name a.name)
  | none =>
    .ok (.obj (("model", .str m.modelId) ::
      Attribute.all.filterMap fun a => (as.get? a).map (a.name, ·)))

end Model

end Parley
