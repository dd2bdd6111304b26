/-
The format of the messages of a chat, member by member (`InFormat`), and that a message is read from
an object just when the object is in the format. A reader also knows spellings that the format does
not have: a record written as a list, and a role written as an object with one member. `Usual` leaves
these aside.

The format has two kinds of rules. Which values a member may have is the same for every role and
comes from the readers of the fields (`Wire.ReadFrom`). Which members there have to be depends on the
role, and on whether the message asks for tools (`ofWire_ok_iff`).
-/
import Parley.Proofs.Chat.Wire
import Parley.Proofs.Json.Admission

namespace Parley

open Json

namespace Json

/-- A text. -/
def IsText (v : Json) : Prop := ∃ s, v = .str s

/-- A value that is no list, and whose members have distinct names if it is an object. -/
structure Named (v : Json) : Prop where
  noList : ∀ vs, v ≠ .arr vs
  distinct : ∀ ms, v = .obj ms → (ms.map Prod.fst).Nodup

end Json

namespace ToolCall

/-! ## Calls -/

/-- Arguments are an object or the text of one, or nothing: `null` or a blank text. -/
def IsArguments (v : Json) : Prop :=
  v = .null ∨ (∃ ms, v = .obj ms) ∨
    ∃ s, v = .str s ∧ (Text.isBlankText s = true ∨ ∃ ms, parse? s = some (.obj ms))

/-- The members that name a tool and its arguments. -/
structure FunctionFormat (ms : Members) : Prop where
  name : ∃ s, ms.lookup "name" = some (.str s)
  arguments : IsArguments (ms.value "arguments")

/-- The members of a call. -/
structure Format (ms : Members) : Prop where
  id : ∃ s, ms.lookup "id" = some (.str s)
  kind : ∀ v, ms.lookup "type" = some v → IsText v
  function : ∃ fs, ms.lookup "function" = some (.obj fs) ∧ FunctionFormat fs

/-- A call in which no record is a list. -/
structure Usual (v : Json) : Prop extends Named v where
  function : ∀ ms, v = .obj ms → ∀ f, ms.lookup "function" = some f → Named f

variable {v : Json}

theorem admits_arguments_iff : Decode.Admits decodeArguments v ↔ IsArguments v := by
  unfold Decode.Admits IsArguments
  cases v with
  | null => simp [decodeArguments]
  | obj ms => simp [decodeArguments]
  | bool | num | arr => simp [decodeArguments]
  | str s =>
    unfold decodeArguments
    cases hb : Text.isBlankText s with
    | true => simp [hb]
    | false =>
      cases hp : parse? s with
      | none => simp [hb, hp]
      | some u => cases u <;> simp [hb, hp]

/-- Arguments that are absent are as good as `null`. -/
theorem isArguments_value_iff {ms : Members} {k : String} :
    IsArguments (ms.value k) ↔ ∀ v, ms.lookup k = some v → IsArguments v := by
  unfold Members.value
  cases ms.lookup k with
  | none => simp [IsArguments]
  | some v => simp

theorem admits_function_iff (hv : Named v) :
    Decode.Admits decodeFunction v ↔ ∃ ms, v = .obj ms ∧ FunctionFormat ms := by
  cases v with
  | obj ms =>
    have hn := hv.distinct ms rfl
    have hfields := ((Fields.readWhen_required hn "name" Decode.string).map Prod.mk).seq
      (Fields.readWhen_defaulted hn "arguments" decodeArguments [])
    rw [show Decode.Admits decodeFunction (.obj ms) ↔ _ from hfields.admits_iff]
    simp only [Decode.admits_string_iff, admits_arguments_iff, ← isArguments_value_iff]
    constructor
    · rintro ⟨⟨_, hl, s, rfl⟩, hargs⟩
      exact ⟨ms, rfl, ⟨s, hl⟩, hargs⟩
    · rintro ⟨_, ⟨⟩, ⟨s, hl⟩, hargs⟩
      exact ⟨⟨_, hl, s, rfl⟩, hargs⟩
  | arr vs => exact absurd rfl (hv.noList vs)
  | null | bool | num | str =>
    constructor
    · rintro ⟨_, ⟨⟩⟩
    · rintro ⟨_, ⟨⟩, -⟩

theorem admits_iff (hv : Usual v) : Decode.Admits decode v ↔ ∃ ms, v = .obj ms ∧ Format ms := by
  cases v with
  | obj ms =>
    have hn := hv.distinct ms rfl
    have hfields := (((Fields.readWhen_required hn "id" Decode.string).map
      (fun id kind (f : String × Arguments) => ToolCall.mk id kind f.1 f.2)).seq
      (Fields.readWhen_defaulted hn "type" Decode.string defaultKind)).seq
      (Fields.readWhen_required hn "function" decodeFunction)
    rw [show Decode.Admits decode (.obj ms) ↔ _ from hfields.admits_iff]
    simp only [Decode.admits_string_iff]
    constructor
    · rintro ⟨⟨⟨_, hl, s, rfl⟩, hkind⟩, f, hlf, hf⟩
      obtain ⟨fs, rfl, hfs⟩ := (admits_function_iff (hv.function ms rfl f hlf)).1 hf
      exact ⟨ms, rfl, ⟨s, hl⟩, hkind, fs, hlf, hfs⟩
    · rintro ⟨_, ⟨⟩, ⟨s, hl⟩, hkind, fs, hlf, hfs⟩
      have hf := (admits_function_iff (hv.function ms rfl _ hlf)).2 ⟨fs, rfl, hfs⟩
      exact ⟨⟨⟨_, hl, s, rfl⟩, hkind⟩, _, hlf, hf⟩
  | arr vs => exact absurd rfl (hv.noList vs)
  | null | bool | num | str =>
    constructor
    · rintro ⟨_, ⟨⟩⟩
    · rintro ⟨_, ⟨⟩, -⟩

/-! ### Members that do not count -/

/-- The fields of a function, of which each value counts. -/
def functionFields : List (String × (Json → Json → Prop)) := [("name", Eq), ("arguments", Eq)]

/-- The fields of a call. -/
def fields : List (String × (Json → Json → Prop)) :=
  [("id", Eq), ("type", Eq), ("function", SameRecord functionFields)]

theorem keeps_function : decodeFunction.Keeps (SameRecord functionFields) :=
  Decode.keeps_record fun _ _ h =>
    ((h.field (by simp [functionFields]) (Decode.keeps_eq _) _ _).map _).seq
      (h.field (by simp [functionFields]) (Decode.keeps_eq _) _ _)

theorem keeps_decode : decode.Keeps (SameRecord fields) :=
  Decode.keeps_record fun _ _ h =>
    (((h.field (by simp [fields]) (Decode.keeps_eq _) _ _).map _).seq
      (h.field (by simp [fields]) (Decode.keeps_eq _) _ _)).seq
      (h.field (by simp [fields]) keeps_function _ _)

theorem symm_functionFields : ∀ f ∈ functionFields, ∀ v w, f.2 v w → f.2 w v := by
  simp [functionFields, eq_comm]

theorem symm_fields : ∀ f ∈ fields, ∀ v w, f.2 v w → f.2 w v := by
  simp only [fields, List.forall_mem_cons]
  exact ⟨fun _ _ => Eq.symm, fun _ _ => Eq.symm, SameRecord.symm symm_functionFields, nofun⟩

end ToolCall

namespace Chat

/-- A role is read from its name, if the spelling as an object is left aside. -/
theorem Role.decode_eq_ok_iff {v : Json} (hv : ∀ m, v ≠ .obj [m]) {r : Role} :
    Role.decode v = .ok r ↔ v = .str r.name := by
  unfold Role.decode Role.decodeAt
  rw [Decode.choice_eq_ok_iff (by decide) hv]
  constructor
  · rintro ⟨name, rfl, hname⟩
    obtain ⟨r', -, hr⟩ := List.mem_map.1 hname
    cases hr
    rfl
  · rintro rfl
    refine ⟨r.name, rfl, List.mem_map_of_mem (f := fun r : Role => (r.name, r)) ?_⟩
    cases r <;> simp

namespace Message

/-! ## The fields of a message -/

/-- The fields of a wire form are those that an object holds; what it lacks counts as `null`. -/
structure Wire.ReadFrom (w : Wire) (ms : Members) : Prop where
  role : ∃ r, ms.lookup "role" = some r ∧ Role.decode r = .ok w.role
  content : Decode.string.nullable ((ms.lookup "content").getD .null) = .ok w.content
  reasoning : Decode.bool.nullable ((ms.lookup "reasoning").getD .null) = .ok w.reasoning
  toolCalls : (Decode.list ToolCall.decode).nullable ((ms.lookup "tool_calls").getD .null) =
    .ok w.toolCalls
  name : Decode.string.nullable ((ms.lookup "name").getD .null) = .ok w.name
  callId : Decode.string.nullable ((ms.lookup "tool_call_id").getD .null) = .ok w.callId

theorem Wire.readFrom {w : Wire} {ms : Members} (h : Wire.decodeAt .alone (.obj ms) = .ok w) :
    w.ReadFrom ms := by
  -- the fields come off one by one, the last of them first
  obtain ⟨_, callId, h₅, hcallId, rfl⟩ := (Fields.took_of_decode h).seq
  obtain ⟨_, name, h₄, hname, rfl⟩ := h₅.seq
  obtain ⟨_, calls, h₃, hcalls, rfl⟩ := h₄.seq
  obtain ⟨_, reasoning, h₂, hreasoning, rfl⟩ := h₃.seq
  obtain ⟨_, content, h₁, hcontent, rfl⟩ := h₂.seq
  obtain ⟨role, hrole, rfl⟩ := h₁.map
  exact ⟨Fields.took_required hrole, Fields.took_optional hcontent, Fields.took_optional hreasoning,
    Fields.took_optional hcalls, Fields.took_optional hname, Fields.took_optional hcallId⟩

theorem decode_ok {ms : Members} {m : Message} (h : decode (.obj ms) = .ok m) :
    ∃ w : Wire, w.ReadFrom ms ∧ ofWire w = .ok m := by
  unfold decode decodeAt at h
  cases hw : Wire.decodeAt .alone (.obj ms) with
  | error e => simp [hw] at h
  | ok w =>
    refine ⟨w, Wire.readFrom hw, ?_⟩
    simp only [hw] at h
    cases ho : ofWire w with
    | error e => simp [ho] at h
    | ok x => simpa [ho] using h

/-- In an object with distinct names the fields are read from wherever they stand. -/
theorem Wire.ReadFrom.decodeAt {w : Wire} {ms : Members} (hn : (ms.map Prod.fst).Nodup)
    (h : w.ReadFrom ms) : Wire.decodeAt .alone (.obj ms) = .ok w := by
  obtain ⟨v, hl, hv⟩ := h.role
  have hrole : (Fields.required "role" (Role.decodeAt .alone)).Gives (.named ms) w.role :=
    Fields.gives_of_member hn hl hv
  have hcontent : (Fields.nullable "content" Decode.string).Gives (.named ms) w.content :=
    Fields.gives_of_value hn h.content
  have hreasoning : (Fields.optional ["reasoning"] Decode.bool).Gives (.named ms) w.reasoning :=
    Fields.gives_of_value hn h.reasoning
  have hcalls : (Fields.optional ["tool_calls"] (Decode.list ToolCall.decode)).Gives (.named ms)
      w.toolCalls := Fields.gives_of_value hn h.toolCalls
  have hname : (Fields.optional ["name"] Decode.string).Gives (.named ms) w.name :=
    Fields.gives_of_value hn h.name
  have hcallId : (Fields.optional ["tool_call_id"] Decode.string).Gives (.named ms) w.callId :=
    Fields.gives_of_value hn h.callId
  exact ((((((hrole.map Wire.mk).seq hcontent).seq hreasoning).seq hcalls).seq hname).seq
    hcallId).decode

theorem decode_eq_ok_iff {ms : Members} (hn : (ms.map Prod.fst).Nodup) {m : Message} :
    decode (.obj ms) = .ok m ↔ ∃ w : Wire, w.ReadFrom ms ∧ ofWire w = .ok m := by
  constructor
  · exact decode_ok
  · rintro ⟨w, hw, ho⟩
    unfold decode decodeAt
    simp only [hw.decodeAt hn, ho]

/-! ## What a role asks for -/

/-- The fields ask for tools. -/
def Wire.Asks (w : Wire) : Prop := w.role = .assistant ∧ w.toolCalls ≠ none

theorem ofWire_ok_iff (w : Wire) : (∃ m, ofWire w = .ok m) ↔
    (¬ w.Asks → w.content ≠ none) ∧ (w.role = .tool → w.name ≠ none ∧ w.callId ≠ none) := by
  obtain ⟨role, content, reasoning, calls, name, callId⟩ := w
  unfold Wire.Asks ofWire Wire.text
  cases role with
  | system | user => cases content <;> simp [Except.map]
  | assistant => cases calls <;> cases content <;> simp [Except.map]
  | tool => cases name <;> cases callId <;> cases content <;> simp [Except.map]

theorem toolCalls_of_ofWire {w : Wire} {m : Message} (h : ofWire w = .ok m) :
    (∃ calls, m = .toolCalls calls) ↔ w.Asks := by
  obtain ⟨role, content, reasoning, calls, name, callId⟩ := w
  unfold Wire.Asks
  unfold ofWire Wire.text at h
  cases role with
  | system | user =>
    cases content with
    | none => cases h
    | some c =>
      cases h
      simp
  | assistant =>
    cases calls with
    | some calls =>
      cases h
      simp
    | none =>
      cases content with
      | none => cases h
      | some c =>
        cases h
        simp
  | tool =>
    cases name <;> cases callId <;> cases content <;> cases h
    simp

/-! ## The format -/

/-- A message of the assistant with calls. -/
structure CallsTools (ms : Members) : Prop where
  role : ms.lookup "role" = some (.str "assistant")
  calls : ms.value "tool_calls" ≠ .null

/-- The members of a message. -/
structure InFormat (ms : Members) : Prop where
  role : ∃ name ∈ ["system", "user", "assistant", "tool"], ms.lookup "role" = some (.str name)
  content : ms.value "content" = .null ∨ IsText (ms.value "content")
  name : ms.value "name" = .null ∨ IsText (ms.value "name")
  callId : ms.value "tool_call_id" = .null ∨ IsText (ms.value "tool_call_id")
  reasoning : ms.value "reasoning" = .null ∨ ∃ b, ms.value "reasoning" = .bool b
  calls : ms.value "tool_calls" = .null ∨ ∃ vs, ms.value "tool_calls" = .arr vs ∧
    ∀ v ∈ vs, ∃ cs, v = .obj cs ∧ ToolCall.Format cs
  /-- Who asks for no tools says something. -/
  text : ¬ CallsTools ms → IsText (ms.value "content")
  /-- A result tells which call of which tool it answers. -/
  answered : ms.lookup "role" = some (.str "tool") →
    IsText (ms.value "name") ∧ IsText (ms.value "tool_call_id")

/-- A message with distinct names in which no record is a list and the role is not an object with
one member. -/
structure Usual (ms : Members) : Prop where
  distinct : (ms.map Prod.fst).Nodup
  role : ∀ m, ms.lookup "role" ≠ some (.obj [m])
  calls : ∀ vs, ms.value "tool_calls" = .arr vs → ∀ v ∈ vs, ToolCall.Usual v

section Format

variable {ms : Members} {w : Wire}

theorem admits_text_iff {v : Json} :
    Decode.Admits Decode.string.nullable v ↔ v = .null ∨ IsText v := by
  rw [Decode.admits_nullable_iff, Decode.admits_string_iff]
  rfl

theorem admits_flag_iff {v : Json} :
    Decode.Admits Decode.bool.nullable v ↔ v = .null ∨ ∃ b, v = .bool b := by
  rw [Decode.admits_nullable_iff, Decode.admits_bool_iff]

/-- Which calls are read depends on each of them alone. -/
theorem Usual.admits_calls (hu : Usual ms) :
    Decode.Admits (Decode.list ToolCall.decode).nullable (ms.value "tool_calls") ↔
      ms.value "tool_calls" = .null ∨ ∃ vs, ms.value "tool_calls" = .arr vs ∧
        ∀ v ∈ vs, ∃ cs, v = .obj cs ∧ ToolCall.Format cs := by
  rw [Decode.admits_nullable_iff, Decode.admits_list_iff]
  refine or_congr_right <| exists_congr fun vs => and_congr_right fun hvs => ?_
  exact forall₂_congr fun v hv => ToolCall.admits_iff (hu.calls vs hvs v hv)

theorem Wire.ReadFrom.role_name (hu : Usual ms) (h : w.ReadFrom ms) :
    ms.lookup "role" = some (.str w.role.name) := by
  obtain ⟨v, hl, hv⟩ := h.role
  rw [hl, (Role.decode_eq_ok_iff fun m hm => hu.role m (hm ▸ hl)).1 hv]

theorem Wire.ReadFrom.callsTools_iff (hu : Usual ms) (h : w.ReadFrom ms) :
    CallsTools ms ↔ w.Asks := by
  have hcalls : w.toolCalls = none ↔ ms.value "tool_calls" = .null :=
    Decode.nullable_none_iff h.toolCalls
  have hrole : ms.lookup "role" = some (.str "assistant") ↔ w.role = .assistant := by
    rw [h.role_name hu]
    cases w.role <;> decide
  constructor
  · rintro ⟨hr, hc⟩
    exact ⟨hrole.1 hr, fun hn => hc (hcalls.1 hn)⟩
  · rintro ⟨hr, hc⟩
    exact ⟨hrole.2 hr, fun hn => hc (hcalls.2 hn)⟩

/-- A value that may be `null` is a text just when it is read as one. -/
theorem isText_iff {v : Json} {s : Option String} (h : Decode.string.nullable v = .ok s) :
    IsText v ↔ s ≠ none := by
  cases s with
  | none =>
    obtain rfl := Fields.nullable_eq_none_iff.1 h
    simp [IsText]
  | some s =>
    obtain rfl := Decode.string_eq_ok_iff.1 (Fields.of_nullable h)
    simp [IsText]

theorem Wire.ReadFrom.isTool_iff (hu : Usual ms) (h : w.ReadFrom ms) :
    ms.lookup "role" = some (.str "tool") ↔ w.role = .tool := by
  rw [h.role_name hu]
  cases w.role <;> decide

/-- The fields that were read make a message just when the object is in the format. -/
theorem Wire.ReadFrom.inFormat_iff (hu : Usual ms) (h : w.ReadFrom ms) :
    InFormat ms ↔ ∃ m, ofWire w = .ok m := by
  rw [ofWire_ok_iff, ← h.callsTools_iff hu, ← h.isTool_iff hu, ← isText_iff h.content,
    ← isText_iff h.name, ← isText_iff h.callId]
  constructor
  · intro hf
    exact ⟨hf.text, hf.answered⟩
  · rintro ⟨htext, hanswered⟩
    refine ⟨⟨w.role.name, ?_, h.role_name hu⟩, admits_text_iff.1 ⟨_, h.content⟩,
      admits_text_iff.1 ⟨_, h.name⟩, admits_text_iff.1 ⟨_, h.callId⟩,
      admits_flag_iff.1 ⟨_, h.reasoning⟩, hu.admits_calls.1 ⟨_, h.toolCalls⟩, htext, hanswered⟩
    cases w.role <;> decide

theorem InFormat.readFrom (hu : Usual ms) (h : InFormat ms) : ∃ w : Wire, w.ReadFrom ms := by
  obtain ⟨name, hname, hl⟩ := h.role
  have hr : ∃ r, Role.decode (.str name) = .ok r := by
    simp only [List.mem_cons, List.not_mem_nil, or_false] at hname
    rcases hname with rfl | rfl | rfl | rfl <;> exact ⟨_, rfl⟩
  obtain ⟨role, hr⟩ := hr
  obtain ⟨content, hcontent⟩ := admits_text_iff.2 h.content
  obtain ⟨reasoning, hreasoning⟩ := admits_flag_iff.2 h.reasoning
  obtain ⟨calls, hcalls⟩ := hu.admits_calls.2 h.calls
  obtain ⟨name, hname⟩ := admits_text_iff.2 h.name
  obtain ⟨callId, hcallId⟩ := admits_text_iff.2 h.callId
  exact ⟨⟨role, content, reasoning, calls, name, callId⟩, ⟨_, hl, hr⟩, hcontent, hreasoning,
    hcalls, hname, hcallId⟩

end Format

/-! ## Members that do not count -/

/-- The fields of a message. Of `tool_calls` those members of a call count that are its fields. -/
def fields : List (String × (Json → Json → Prop)) :=
  [("role", Eq), ("content", Eq), ("reasoning", Eq),
    ("tool_calls", SameItems (SameRecord ToolCall.fields)), ("name", Eq), ("tool_call_id", Eq)]

theorem symm_fields : ∀ f ∈ fields, ∀ v w, f.2 v w → f.2 w v := by
  have heq (v w : Json) : v = w → w = v := Eq.symm
  simp only [fields, List.forall_mem_cons]
  exact ⟨heq, heq, heq, SameItems.symm (SameRecord.symm ToolCall.symm_fields), heq, heq, nofun⟩

theorem refl_fields : ∀ f ∈ fields, ∀ v, f.2 v v := by
  have hcalls (v : Json) : SameItems (SameRecord ToolCall.fields) v v := .inl rfl
  simp [fields, hcalls]

theorem Wire.keeps_decode : (Wire.decodeAt .alone).Keeps (SameRecord fields) :=
  Decode.keeps_record fun _ _ h =>
    have eq {α : Type} {d : Decode α} {k : String} (hk : (k, Eq) ∈ fields) (x y : Option α) :=
      h.field hk (Decode.keeps_eq d) x y
    ((((((eq (by simp [fields]) _ _).map _).seq (eq (by simp [fields]) _ _)).seq
      (eq (by simp [fields]) _ _)).seq
      (h.field (by simp [fields]) ToolCall.keeps_decode.list.nullable _ _)).seq
      (eq (by simp [fields]) _ _)).seq (eq (by simp [fields]) _ _)

/-- A message is read from its fields alone, whatever order they come in. -/
theorem decode_of_sameMembers {ms ns : Members} (h : SameMembers fields ms ns) {m : Message}
    (hm : decode (.obj ms) = .ok m) : decode (.obj ns) = .ok m := by
  unfold decode decodeAt at hm ⊢
  cases hw : Wire.decodeAt .alone (.obj ms) with
  | error e => simp [hw] at hm
  | ok w =>
    rw [Wire.keeps_decode _ _ (.inr ⟨ms, ns, rfl, rfl, h⟩) w hw]
    rwa [hw] at hm

/-- A message is read from just the objects in the format. It is a request for tools when the
assistant says it with calls, and it depends on nothing but the values of its fields. -/
theorem decode_ok_iff_inFormat (ms : Members) (hu : Usual ms) :
    ((∃ m, decode (.obj ms) = .ok m) ↔ InFormat ms) ∧
    (∀ m, decode (.obj ms) = .ok m → ((∃ calls, m = .toolCalls calls) ↔ CallsTools ms)) ∧
    ∀ ns, SameMembers fields ms ns → ∀ m, decode (.obj ns) = .ok m ↔ decode (.obj ms) = .ok m := by
  refine ⟨⟨?_, fun hf => ?_⟩, fun m hm => ?_, fun ns hsame m => ⟨fun hm => ?_, fun hm => ?_⟩⟩
  · rintro ⟨m, hm⟩
    obtain ⟨w, hw, ho⟩ := decode_ok hm
    exact (hw.inFormat_iff hu).2 ⟨m, ho⟩
  · obtain ⟨w, hw⟩ := hf.readFrom hu
    obtain ⟨m, ho⟩ := (hw.inFormat_iff hu).1 hf
    exact ⟨m, (decode_eq_ok_iff hu.distinct).2 ⟨w, hw, ho⟩⟩
  · obtain ⟨w, hw, ho⟩ := decode_ok hm
    rw [hw.callsTools_iff hu, toolCalls_of_ofWire ho]
  · exact decode_of_sameMembers (hsame.symm symm_fields) hm
  · exact decode_of_sameMembers hsame hm

/-- A call of the clock, with a text for its arguments. -/
def clockCall (id arguments : String) : Json :=
  .obj [("id", .str id), ("function", .obj [("name", .str "clock"), ("arguments", .str arguments)])]

theorem usual_clockCall (id arguments : String) : ToolCall.Usual (clockCall id arguments) := by
  refine ⟨⟨nofun, fun _ h => ?_⟩, fun _ h f hf => ?_⟩
  · cases h
    simp
  · cases h
    cases hf
    refine ⟨nofun, fun _ h => ?_⟩
    cases h
    simp

/-- A message with calls is read as one, in another order too and with a member that no message
has. The arguments of the first call are a blank text, those of the second the text of an object. -/
theorem clock_call_in_format :
    let calls := [clockCall "c1" " ", clockCall "c2" "\x7b\"zone\": \"utc\"\x7d"]
    let ms := [("role", .str "assistant"), ("content", .null), ("tool_calls", .arr calls)]
    let ns := [("usage", .num (.int 3)), ("tool_calls", .arr calls), ("role", .str "assistant"),
      ("content", .null)]
    InFormat ms ∧ CallsTools ms ∧
      decode (.obj ns) = .ok (.toolCalls
        [.new "c1" "clock" [], .new "c2" "clock" [("zone", .str "utc")]]) := by
  intro calls ms ns
  have hu : Usual ms := by
    refine ⟨by decide, fun m h => ?_, fun vs h v hv => ?_⟩
    · cases h
    obtain rfl : calls = vs := Json.arr.inj h
    obtain ⟨id, arguments, rfl⟩ : ∃ id arguments, v = clockCall id arguments := by
      rcases List.mem_cons.1 hv with rfl | hv
      · exact ⟨_, _, rfl⟩
      · exact ⟨_, _, List.mem_singleton.1 hv⟩
    exact usual_clockCall id arguments
  have hsame : SameMembers fields ms ns :=
    sameMembers_of_perm (by decide) (by decide) refl_fields (· != "usage")
      (by simp [fields]) (by decide +kernel)
  have hm : decode (.obj ms) = .ok (.toolCalls
      [.new "c1" "clock" [], .new "c2" "clock" [("zone", .str "utc")]]) := by
    decide +kernel
  obtain ⟨hformat, hasks, hns⟩ := decode_ok_iff_inFormat ms hu
  exact ⟨hformat.1 ⟨_, hm⟩, (hasks _ hm).1 ⟨_, rfl⟩, (hns ns hsame _).2 hm⟩

end Message

end Chat

end Parley
