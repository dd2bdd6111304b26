/-
What can be read back of a call from the message about it. A value is written into the message as
text, and the message is written into a request; a failure takes the same way with its own text,
whatever that quotes. Reading undoes both layers (`batch_recoverable`), because the writer of texts
escapes all that a reader could take for the end of one (`parse?_of_spells`). The inner layer asks
for a value that a reader can take up (`Plain`). The outer one asks for nothing: the members of a
result are texts, so a result itself is always such a value.
-/
import Parley.Proofs.Agent.Receipt
import Parley.Proofs.Json.Reading

namespace Parley.Agent

open Chat Turn Tool Json

/-- The failure of a call, however it failed. -/
def failure? (c : ToolCall) : Completion → Option Tool.Error
  | .returned (.ok _) => none
  | .returned (.error e) => some e
  | .brokenDown reason => some (lost c reason)

/-! ## The content -/

/-- What can be read of a call from the text that the model is told. -/
structure ReadsBack (c : ToolCall) (ending : Completion) (content : String) : Prop where
  /-- The value, with the members of its objects in their order. -/
  value : ∀ v, ending = .returned (.ok v) → Plain Parser.maxDepth v → parse? content = some v
  failure : ∀ e, failure? c ending = some e →
    parse? content = some (.obj [("error", .str e.message)])

theorem parse?_failureContent (e : Tool.Error) :
    parse? (failureContent e) = some (.obj [("error", .str e.message)]) := by
  have hplain : Plain Parser.maxDepth (.obj [("error", .str e.message)]) :=
    .obj (List.nodup_singleton _) (by simpa using .str)
  exact parse?_of_spells hplain (spells_text _)

theorem content_of_failure {c : ToolCall} {ending : Completion} {e : Tool.Error}
    (h : failure? c ending = some e) : (Outcome.of c ending).content = failureContent e := by
  cases ending with
  | brokenDown reason =>
    cases h
    rfl
  | returned result =>
    cases result with
    | ok v => cases h
    | error f =>
      cases h
      unfold Outcome.of
      dsimp only
      split <;> rfl

theorem readsBack_content (c : ToolCall) (ending : Completion) :
    ReadsBack c ending (Outcome.of c ending).content where
  value v h hv := by
    subst h
    exact parse?_of_spells hv (spells_text v)
  failure e h := by
    rw [content_of_failure h]
    exact parse?_failureContent e

/-! ## The message -/

/-- A request holds a message, and the message is read from what it holds, or from any text of that,
as it was. -/
def HoldsReadable (r : Host.Request) (m : Message) : Prop :=
  ∃ vs, r.items? "messages" = some vs ∧ ∃ v ∈ vs, Message.decode v = .ok m ∧
    ∀ text, Spells v text → parse? text = some v

theorem plain_toolResult (name callId content : String) :
    Plain Parser.maxDepth (Message.toolResult name callId content).toJson := by
  have hmembers : (Message.toolResult name callId content).toJson =
      .obj [("role", .str "tool"), ("content", .str content), ("name", .str name),
        ("tool_call_id", .str callId)] := rfl
  rw [hmembers]
  have hnames : ["role", "content", "name", "tool_call_id"].Nodup := by decide
  refine .obj hnames fun m hm => ?_
  simp only [List.mem_cons, List.not_mem_nil, or_false] at hm
  rcases hm with rfl | rfl | rfl | rfl <;> exact .str

theorem holdsReadable_of_mem {t : Turn} {name callId content : String}
    (h : .toolResult name callId content ∈ t.agent.history.messages) :
    HoldsReadable t.request (.toolResult name callId content) :=
  ⟨_, request_messages t, _, List.mem_map_of_mem h, Message.decode_toJson .alone _,
    fun _ => parse?_of_spells (plain_toolResult name callId content)⟩

/-- What becomes of a call in the conversation: a result that tells of it, and that every request
holds which is made with the result in the history. -/
structure Recoverable (c : ToolCall) (ending : Completion) (m : Message) : Prop where
  told : ∃ content, m = .toolResult c.name c.id content ∧ ReadsBack c ending content
  held : ∀ t : Turn, m ∈ t.agent.history.messages → HoldsReadable t.request m

theorem recoverable_resultOf (c : ToolCall) (ending : Completion) :
    Recoverable c ending (resultOf c (.of c ending)) where
  told := ⟨_, rfl, readsBack_content c ending⟩
  held _ := holdsReadable_of_mem

/-- Every call of a batch, whether it gave a value, failed or broke down, can be recovered from the
message that its turn appends about it. -/
theorem batch_recoverable (t : Turn) (calls : List ToolCall) (hp : t.phase = .dispatch calls) :
    ∃ ms, t.advance.agent.history.messages = t.agent.history.messages ++ ms ∧
      List.Forall₂ (fun c m => Recoverable c.1 (t.agent.perform t.world c.2 c.1).completion m)
        calls.zipIdx ms := by
  refine ⟨resultsOf (calls.zip (t.agent.dispatch t.world calls).1), ?_, ?_⟩
  · rw [advance_of_dispatch hp, record_messages]
  · rw [zip_outcomes, resultsOf, List.map_map, List.forall₂_map_right_iff, List.forall₂_same]
    exact fun c _ => recoverable_resultOf c.1 _

/-- An agent with a tool that quotes a text in a record, and one that fails with such a text. -/
def quotingAgent : Agent :=
  fresh (.qwen "small" "Qwen")
    [.constant "clock" (.obj [("said", .str "\"noon\"\n"), ("at", .arr [.num (.int 12)])]),
      .function ⟨"oracle", "", .none, none⟩ fun _ _ =>
        .returned (.error (.invalidArguments "say \"please\"\t"))]

/-- Both texts are read back as they were. -/
theorem quoting_batch_recoverable :
    ∃ (t : Turn) (a b : String), t.phase = .dispatch [.new "1" "clock" [], .new "2" "oracle" []] ∧
      t.advance.agent.history.messages =
        t.agent.history.messages ++ [.toolResult "clock" "1" a, .toolResult "oracle" "2" b] ∧
      parse? a = some (.obj [("said", .str "\"noon\"\n"), ("at", .arr [.num (.int 12)])]) ∧
      parse? b = some (.obj [("error", .str "Invalid tool arguments: say \"please\"\t")]) ∧
      HoldsReadable t.advance.request (.toolResult "clock" "1" a) := by
  let t : Turn := ⟨quotingAgent, .scripted [], ⟨true, false⟩,
    .dispatch [.new "1" "clock" [], .new "2" "oracle" []], []⟩
  obtain ⟨ms, hms, hall⟩ := batch_recoverable t _ rfl
  obtain _ | ⟨hclock, _ | ⟨horacle, ⟨⟩⟩⟩ := hall
  obtain ⟨a, rfl, ha⟩ := hclock.told
  obtain ⟨b, rfl, hb⟩ := horacle.told
  have hplain : Plain Parser.maxDepth
      (.obj [("said", .str "\"noon\"\n"), ("at", .arr [.num (.int 12)])]) := by
    refine .obj (by decide) fun m hm => ?_
    simp only [List.mem_cons, List.not_mem_nil, or_false] at hm
    rcases hm with rfl | rfl
    · exact .str
    · exact .arr (by simpa using .num (by decide))
  exact ⟨t, a, b, rfl, hms, ha.value _ rfl hplain, hb.failure _ rfl,
    hclock.held t.advance (by simp [hms, ToolCall.new])⟩

end Parley.Agent
