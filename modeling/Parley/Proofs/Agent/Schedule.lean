/-
Batches of calls as they really run: a task for each call, all under way at the same time. The
tasks ask their questions outside in any interleaving, come to their ends in any order, and are
joined by their places in the batch. `Batch.Step` is one step of one of the tasks.

Every schedule comes to an end, and all schedules lead to the same outcomes, messages, events and
next request, which are those of running the batch at once. Only the order in which the questions
were asked is left to the schedule. What carries the proof is that no step of a task changes how
it will end (`Stems`), whatever other tasks do.
-/
import Parley.Proofs.Agent.Script
import Mathlib.Logic.Relation

namespace Parley.Agent

open Chat Turn Relation

/-! ## Tasks -/

/-- What a call asks outside. -/
inductive Question where
  | request (r : Host.Request)
  | session (asked : List Mcp.Asked)

namespace Question

/-- The request to the host. -/
def request? : Question → Option Host.Request
  | .request r => some r
  | .session _ => none

/-- The session with a tool server. -/
def session? : Question → Option (List Mcp.Asked)
  | .request _ => none
  | .session s => some s

end Question

/-- The task of a call. -/
inductive Task where
  /-- The questions that the task has still to ask, and how it will end. -/
  | running (questions : List Question) (c : Tool.Completion)
  | finished (c : Tool.Completion)
  /-- The batch has got to know how the task ended. -/
  | joined (c : Tool.Completion)

namespace Task

/-- The task that does what a call does. -/
def of (i : Tool.Invocation) : Task :=
  .running (i.requests.map .request ++ i.sessions.map .session) i.completion

/-- How the task ends. -/
def completion : Task → Tool.Completion
  | .running _ c | .finished c | .joined c => c

/-- What the task has still to ask. -/
def questions : Task → List Question
  | .running qs _ => qs
  | .finished _ | .joined _ => []

/-- How the task ended, if the batch knows. -/
def joined? : Task → Option Tool.Completion
  | .joined c => some c
  | .running _ _ | .finished _ => none

/-- The steps that the task has still to take. -/
def left : Task → Nat
  | .running qs _ => qs.length + 2
  | .finished _ => 1
  | .joined _ => 0

/-- The steps that some tasks have still to take. -/
def leftOf : List Task → Nat
  | [] => 0
  | t :: ts => t.left + leftOf ts

theorem leftOf_append (ts us : List Task) : leftOf (ts ++ us) = leftOf ts + leftOf us := by
  induction ts with
  | nil => exact (Nat.zero_add _).symm
  | cons t ts ih =>
    show t.left + leftOf (ts ++ us) = t.left + leftOf ts + leftOf us
    omega

/-- A step of a task, and what it asks in that step. -/
inductive Step : Task → List Question → Task → Prop
  | asks {q : Question} {qs : List Question} {c : Tool.Completion} :
    Step (.running (q :: qs) c) [q] (.running qs c)
  | finishes {c : Tool.Completion} : Step (.running [] c) [] (.finished c)
  | joins {c : Tool.Completion} : Step (.finished c) [] (.joined c)

section Steps

variable {t u : Task} {qs : List Question}

theorem Step.completion_eq (h : Step t qs u) : u.completion = t.completion := by
  cases h <;> rfl

theorem Step.questions_eq (h : Step t qs u) : t.questions = qs ++ u.questions := by
  cases h <;> rfl

theorem Step.left_lt (h : Step t qs u) : u.left < t.left := by
  cases h <;> simp [left]

/-- A task goes on until it is joined. -/
theorem step_of_not_joined (h : t.joined? = none) : ∃ qs u, Step t qs u := by
  cases t with
  | running qs c =>
    cases qs with
    | nil => exact ⟨_, _, .finishes⟩
    | cons q qs => exact ⟨_, _, .asks⟩
  | finished c => exact ⟨_, _, .joins⟩
  | joined c => cases h

theorem of_joined {c : Tool.Completion} (h : t.joined? = some c) :
    t.completion = c ∧ t.questions = [] := by
  cases t with
  | running | finished => cases h
  | joined => cases h; exact ⟨rfl, rfl⟩

end Steps

theorem exists_not_joined {ts : List Task} (h : ts.mapM joined? = none) :
    ∃ t ∈ ts, t.joined? = none := by
  induction ts with
  | nil => cases h
  | cons t ts ih =>
    rw [List.mapM_cons] at h
    cases ht : t.joined? with
    | none => exact ⟨t, List.mem_cons_self, ht⟩
    | some c =>
      cases hts : ts.mapM joined? with
      | none =>
        obtain ⟨u, hu, hj⟩ := ih hts
        exact ⟨u, List.mem_cons_of_mem _ hu, hj⟩
      | some cs =>
        rw [ht, hts] at h
        cases h

theorem all_joined {ts : List Task} {cs : List Tool.Completion} (h : ts.mapM joined? = some cs) :
    cs = ts.map completion ∧ ts.flatMap questions = [] := by
  induction ts generalizing cs with
  | nil =>
    cases h
    exact ⟨rfl, rfl⟩
  | cons t ts ih =>
    rw [List.mapM_cons] at h
    obtain ⟨c, ht, h⟩ := Option.bind_eq_some_iff.1 h
    obtain ⟨cs', hts, h⟩ := Option.bind_eq_some_iff.1 h
    cases h
    obtain ⟨rfl, hq⟩ := of_joined ht
    obtain ⟨rfl, hqs⟩ := ih hts
    refine ⟨rfl, ?_⟩
    rw [List.flatMap_cons, hq, hqs]
    rfl

end Task

/-! ## Batches -/

/-- A batch under way: its tasks in the order of the calls, and all that was asked so far. -/
structure Batch where
  tasks : List Task
  asked : List Question

/-- The calls of a batch, each in its place. -/
def invocations (a : Agent) (w : World) (calls : List ToolCall) : List Tool.Invocation :=
  calls.zipIdx.map fun c => a.perform w c.2 c.1

namespace Batch

/-- A batch with all its tasks under way. -/
def spawn (is : List Tool.Invocation) : Batch := ⟨is.map Task.of, []⟩

/-- How the tasks ended, by their places, once all are joined. -/
def joined? (b : Batch) : Option (List Tool.Completion) := b.tasks.mapM Task.joined?

/-- The steps that the tasks have still to take. -/
def left (b : Batch) : Nat := Task.leftOf b.tasks

/-- One of the tasks takes a step. -/
inductive Step : Batch → Batch → Prop
  | task {before after : List Task} {t u : Task} {asked qs : List Question} :
    Task.Step t qs u → Step ⟨before ++ t :: after, asked⟩ ⟨before ++ u :: after, asked ++ qs⟩

/-- Every step brings the batch nearer to its end, so every schedule ends. -/
theorem Step.left_lt {b b' : Batch} (h : Step b b') : b'.left < b.left := by
  cases h with
  | @task before after t u asked qs h =>
    have := h.left_lt
    show Task.leftOf (before ++ u :: after) < Task.leftOf (before ++ t :: after)
    rw [Task.leftOf_append, Task.leftOf_append]
    show _ + (u.left + _) < _ + (t.left + _)
    omega

/-- A batch goes on until all its tasks are joined. -/
theorem step_of_not_joined {b : Batch} (h : b.joined? = none) : ∃ b', Step b b' := by
  obtain ⟨tasks, asked⟩ := b
  obtain ⟨t, ht, hj⟩ := Task.exists_not_joined h
  obtain ⟨before, after, rfl⟩ := List.append_of_mem ht
  obtain ⟨qs, u, hs⟩ := Task.step_of_not_joined hj
  exact ⟨_, .task hs⟩

theorem completions_of_joined {b : Batch} {cs : List Tool.Completion} (h : b.joined? = some cs) :
    cs = b.tasks.map Task.completion ∧ b.tasks.flatMap Task.questions = [] :=
  Task.all_joined h

/-- The batch comes from some calls: each task will end as its call does, and what was asked and
what is still to be asked are together the questions of the calls. -/
structure Stems (is : List Tool.Invocation) (b : Batch) : Prop where
  completions : b.tasks.map Task.completion = is.map Tool.Invocation.completion
  questions : (b.asked ++ b.tasks.flatMap Task.questions).Perm
    (is.flatMap fun i => (Task.of i).questions)

theorem stems_spawn (is : List Tool.Invocation) : Stems is (spawn is) where
  completions := by
    unfold spawn
    rw [List.map_map]
    rfl
  questions := by
    unfold spawn
    rw [List.flatMap_map]
    rfl

theorem Stems.step {is : List Tool.Invocation} {b b' : Batch} (h : Stems is b) (hs : Step b b') :
    Stems is b' := by
  obtain ⟨hc, hq⟩ := h
  cases hs with
  | @task before after t u asked qs hs =>
    refine ⟨?_, List.Perm.trans ?_ hq⟩
    · rw [← hc]
      simp [hs.completion_eq]
    · -- what the task asks now moves from the questions to come to those that were asked
      simp only [List.flatMap_append, List.flatMap_cons, hs.questions_eq, List.append_assoc]
      exact (List.perm_append_comm_assoc _ _ _).append_left asked

theorem Stems.reach {is : List Tool.Invocation} {b : Batch}
    (h : ReflTransGen Step (spawn is) b) : Stems is b := by
  induction h with
  | refl => exact stems_spawn is
  | tail _ hs ih => exact ih.step hs

/-- A batch that is joined tells how each call ends, and has asked all their questions. -/
theorem joined_of_reach {is : List Tool.Invocation} {b : Batch} {cs : List Tool.Completion}
    (h : ReflTransGen Step (spawn is) b) (hj : b.joined? = some cs) :
    cs = is.map Tool.Invocation.completion ∧
      b.asked.Perm (is.flatMap fun i => (Task.of i).questions) := by
  obtain ⟨hc, hq⟩ := Stems.reach h
  obtain ⟨rfl, hn⟩ := completions_of_joined hj
  rw [hn, List.append_nil] at hq
  exact ⟨hc, hq⟩

/-- Every schedule can be brought to its end. -/
theorem exists_joined (b : Batch) : ∃ b' cs, ReflTransGen Step b b' ∧ b'.joined? = some cs := by
  cases hj : b.joined? with
  | some cs => exact ⟨b, cs, .refl, hj⟩
  | none =>
    obtain ⟨b₁, hs⟩ := step_of_not_joined hj
    have := hs.left_lt
    obtain ⟨b', cs, hr, hj'⟩ := exists_joined b₁
    exact ⟨b', cs, .head hs hr, hj'⟩
termination_by b.left

end Batch

/-! ## The turn behind a batch -/

/-- The world when the tasks of some calls have asked their questions. -/
def worldBehind (w : World) (calls : List ToolCall) (qs : List Question) : World :=
  { w with
    serial := w.serial + calls.length
    log := w.log ++ qs.filterMap Question.request?
    sessions := w.sessions ++ qs.filterMap Question.session? }

/-- The turn when its batch is joined. -/
def Turn.conclude (t : Turn) (calls : List ToolCall) (b : Batch) (cs : List Tool.Completion) :
    Turn :=
  { t with world := worldBehind t.world calls b.asked }.record
    (calls.zip (List.zipWith Outcome.of calls cs))

theorem record_world (t : Turn) (w : World) (results : List (ToolCall × Outcome)) :
    { t with world := w }.record results = { t.record results with world := w } := by
  unfold record
  dsimp only
  split <;> rfl

theorem record_messages (t : Turn) (results : List (ToolCall × Outcome)) :
    (t.record results).agent.history.messages = t.agent.history.messages ++ resultsOf results := by
  unfold record
  dsimp only
  split <;> rfl

theorem advance_of_dispatch {t : Turn} {calls : List ToolCall} (hp : t.phase = .dispatch calls) :
    t.advance = { t with world := (t.agent.dispatch t.world calls).2 }.record
      (calls.zip (t.agent.dispatch t.world calls).1) := by
  unfold advance
  simp only [hp]

/-- What a batch does, call by call. -/
theorem dispatch_eq (a : Agent) (w : World) (calls : List ToolCall) :
    a.dispatch w calls =
      (calls.zipIdx.map fun c => Outcome.of c.1 (a.perform w c.2 c.1).completion,
        w.notingBatch (invocations a w calls)) := by
  unfold dispatch invocations
  dsimp only
  rw [List.map_map, List.map_map]
  rfl

/-- The outcomes of a batch are the ends of its calls, place by place. -/
theorem dispatch_outcomes (a : Agent) (w : World) (calls : List ToolCall) :
    (a.dispatch w calls).1 = List.zipWith Outcome.of calls
      ((invocations a w calls).map Tool.Invocation.completion) := by
  have hc : calls.zipIdx.map Prod.fst = calls := List.zipIdx_map_fst 0 calls
  conv => rhs; arg 2; rw [← hc]
  unfold invocations
  rw [List.map_map, List.zipWith_map, List.zipWith_self, dispatch_eq]
  rfl

theorem zip_outcomes (a : Agent) (w : World) (calls : List ToolCall) :
    calls.zip (a.dispatch w calls).1 = calls.zipIdx.map fun c =>
      (c.1, Outcome.of c.1 (a.perform w c.2 c.1).completion) := by
  have hc : calls.zipIdx.map Prod.fst = calls := List.zipIdx_map_fst 0 calls
  conv => lhs; arg 1; rw [← hc]
  rw [dispatch_eq]
  exact List.zip_map'

theorem questions_requests (is : List Tool.Invocation) :
    (is.flatMap fun i => (Task.of i).questions).filterMap Question.request? =
      is.flatMap Tool.Invocation.requests := by
  rw [List.filterMap_flatMap]
  congr 1
  funext i
  simp [Task.of, Task.questions, List.filterMap_map, Function.comp_def, Question.request?]

theorem questions_sessions (is : List Tool.Invocation) :
    (is.flatMap fun i => (Task.of i).questions).filterMap Question.session? =
      is.flatMap Tool.Invocation.sessions := by
  rw [List.filterMap_flatMap]
  congr 1
  funext i
  simp [Task.of, Task.questions, List.filterMap_map, Function.comp_def, Question.session?]

/-- A turn behind a batch is the turn that runs the batch at once, but for the order in which the
outside was asked. -/
structure Concludes (t : Turn) (calls : List ToolCall) (b : Batch) (cs : List Tool.Completion) :
    Prop where
  outcomes : List.zipWith Outcome.of calls cs = (t.agent.dispatch t.world calls).1
  agent : (t.conclude calls b cs).agent = t.advance.agent
  events : (t.conclude calls b cs).pending = t.advance.pending
  phase : (t.conclude calls b cs).phase = t.advance.phase
  request : (t.conclude calls b cs).agent.inferenceRequest t.options =
    t.advance.agent.inferenceRequest t.options
  /-- One result for each call, in its place, with its name, its identity and its outcome. -/
  results : ∃ ms, (t.conclude calls b cs).agent.history.messages =
      t.agent.history.messages ++ ms ∧ ms.length = calls.length ∧
    ∀ i c, calls[i]? = some c → ms[i]? = some (Message.toolResult c.name c.id
      (Outcome.of c (t.agent.perform t.world i c).completion).content)
  log : (t.conclude calls b cs).world.log.Perm t.advance.world.log
  sessions : (t.conclude calls b cs).world.sessions.Perm t.advance.world.sessions

theorem results_at (a : Agent) (w : World) (calls : List ToolCall) {i : Nat} {c : ToolCall}
    (h : calls[i]? = some c) :
    (resultsOf (calls.zip (a.dispatch w calls).1))[i]? = some (.toolResult c.name c.id
      (Outcome.of c (a.perform w i c).completion).content) := by
  unfold resultsOf
  rw [zip_outcomes, List.map_map, List.getElem?_map, List.getElem?_zipIdx, h, Nat.zero_add]
  rfl

/-- All schedules of a batch come to an end, and to the same end. -/
theorem schedule_irrelevant (t : Turn) (calls : List ToolCall) (hp : t.phase = .dispatch calls)
    (b : Batch)
    (hb : ReflTransGen Batch.Step (.spawn (invocations t.agent t.world calls)) b) :
    (∃ b' cs, ReflTransGen Batch.Step b b' ∧ b'.joined? = some cs) ∧
      (∀ b', Batch.Step b b' → b'.left < b.left) ∧
      ∀ cs, b.joined? = some cs → Concludes t calls b cs := by
  refine ⟨Batch.exists_joined b, fun b' hs => hs.left_lt, fun cs hj => ?_⟩
  obtain ⟨rfl, hq⟩ := Batch.joined_of_reach hb hj
  -- both turns record the same results, in worlds that differ in the order of the questions
  have ho := (dispatch_outcomes t.agent t.world calls).symm
  have ha : t.advance = { t.record (calls.zip (t.agent.dispatch t.world calls).1) with
      world := (t.agent.dispatch t.world calls).2 } := by
    rw [advance_of_dispatch hp, record_world]
  have hc : t.conclude calls b ((invocations t.agent t.world calls).map
      Tool.Invocation.completion) =
      { t.record (calls.zip (t.agent.dispatch t.world calls).1) with
        world := worldBehind t.world calls b.asked } := by
    unfold Turn.conclude
    rw [ho, record_world]
  constructor
  case outcomes => exact ho
  case agent => rw [hc, ha]
  case events => rw [hc, ha]
  case phase => rw [hc, ha]
  case request => rw [hc, ha]
  case results =>
    refine ⟨resultsOf (calls.zip (t.agent.dispatch t.world calls).1), ?_, ?_, ?_⟩
    · rw [hc]
      exact record_messages t _
    · simp [resultsOf, dispatch]
    · exact fun i c h => results_at t.agent t.world calls h
  case log =>
    rw [hc, ha, dispatch_eq]
    refine List.Perm.append_left t.world.log ?_
    rw [← questions_requests]
    exact hq.filterMap _
  case sessions =>
    rw [hc, ha, dispatch_eq]
    refine List.Perm.append_left t.world.sessions ?_
    rw [← questions_sessions]
    exact hq.filterMap _

/-- Two calls of one identity, of which the second is of no tool and is joined first. -/
theorem second_call_first :
    ∃ t : Turn, t.phase = .dispatch [.new "1" "clock" [], .new "1" "nowhere" []] ∧
      ∃ b cs, ReflTransGen Batch.Step (.spawn (invocations t.agent t.world
          [.new "1" "clock" [], .new "1" "nowhere" []])) b ∧ b.joined? = some cs ∧
        Concludes t [.new "1" "clock" [], .new "1" "nowhere" []] b cs := by
  have first {t u : Task} {qs : List Question} (h : Task.Step t qs u) (v : Task)
      (asked : List Question) : Batch.Step ⟨[t, v], asked⟩ ⟨[u, v], asked ++ qs⟩ :=
    @Batch.Step.task [] [v] t u asked qs h
  have second {t u : Task} {qs : List Question} (h : Task.Step t qs u) (v : Task)
      (asked : List Question) : Batch.Step ⟨[v, t], asked⟩ ⟨[v, u], asked ++ qs⟩ :=
    @Batch.Step.task [v] [] t u asked qs h
  refine ⟨⟨fresh (.qwen "small" "Qwen") [.constant "clock" (.str "noon")], .scripted [],
    ⟨true, false⟩, .dispatch [.new "1" "clock" [], .new "1" "nowhere" []], []⟩, rfl, ?_⟩
  have hr : ReflTransGen Batch.Step
      (.spawn (invocations (fresh (.qwen "small" "Qwen") [.constant "clock" (.str "noon")])
        (.scripted []) [.new "1" "clock" [], .new "1" "nowhere" []]))
      ⟨[.joined (.returned (.ok (.str "noon"))),
        .joined (.returned (.error (.notFound "nowhere")))], []⟩ :=
    .head (second .finishes _ _) (.head (second .joins _ _)
      (.head (first .finishes _ _) (.head (first .joins _ _) .refl)))
  exact ⟨_, _, hr, rfl, (schedule_irrelevant _ _ rfl _ hr).2.2 _ rfl⟩

end Parley.Agent
