/-
Sessions that are under way at the same time. Every listing and every call has a task of its own,
which connects, shakes hands, asks its one question and closes the session; the steps of all tasks
come in any interleaving, and each answer of a server is good or bad on its own (`Pool.Step`).

What carries the proof is that a step takes what it asks from what the task has still to ask, and
changes nothing of what the task will return (`Stage.Step.ahead_eq`). At the start that is what the
operation does when it is run at once.
-/
import Parley.Proofs.Mcp.Operation
import Mathlib.Logic.Relation

namespace Parley.Mcp

open Relation

/-! ## Jobs -/

/-- An operation to be done with a server, and what comes of connecting to the server for it. -/
structure Job where
  operation : Operation
  server : Server
  connection : Except Error Session

def Asked.leavesOpen (before : Bool) : Asked → Bool
  | .connect _ => true
  | .refused | .close => false
  | .handshake | .list | .call _ _ => before

/-- Whether a session is open behind all that was asked for it. -/
def isOpen (asked : List Asked) : Bool := asked.foldl Asked.leavesOpen false

theorem isOpen_append (xs ys : List Asked) :
    isOpen (xs ++ ys) = ys.foldl Asked.leavesOpen (isOpen xs) :=
  List.foldl_append

theorem Operation.leavesOpen_question (op : Operation) (b : Bool) :
    op.question.leavesOpen b = b := by
  cases op <;> rfl

namespace Job

def result (j : Job) : Except Error Answer := (j.operation.run j.connection j.server).1

def asked (j : Job) : List Asked := (j.operation.run j.connection j.server).2

/-- The ways a job can go: what it returns, and what is asked for it. A session that was opened is
closed at the end, and what comes of closing it is not looked at. -/
inductive Goes (j : Job) : Except Error Answer → List Asked → Prop
  | refused {e : Error} :
    j.connection = .error e → Goes j (.error e) [.connect j.server, .refused]
  | unready {s : Session} {e : Error} :
    j.connection = .ok s → s.handshake = .error e →
    Goes j (.error e) [.connect j.server, .handshake, .close]
  | served {s : Session} :
    j.connection = .ok s → s.handshake = .ok () →
    Goes j (j.operation.answer s) [.connect j.server, .handshake, j.operation.question, .close]

theorem goes (j : Job) : j.Goes j.result j.asked := by
  unfold result asked Operation.run inSession
  cases hc : j.connection with
  | error e => exact .refused hc
  | ok s =>
    dsimp only
    cases hh : s.handshake with
    | error e => exact .unready hc hh
    | ok u => exact .served hc hh

theorem Goes.not_isOpen {j : Job} {r : Except Error Answer} {asked : List Asked}
    (h : j.Goes r asked) : isOpen asked = false := by
  cases h <;> rfl

end Job

/-! ## Tasks -/

/-- How far a task has come. -/
inductive Stage where
  | idle
  | opened (s : Session)
  | greeted (s : Session)
  /-- The result is there, and the session still to be closed. -/
  | settled (s : Session) (r : Except Error Answer)
  | returned (r : Except Error Answer)

namespace Stage

def session? : Stage → Option Session
  | .opened s | .greeted s | .settled s _ => some s
  | .idle | .returned _ => none

def left : Stage → Nat
  | .idle => 4
  | .opened _ => 3
  | .greeted _ => 2
  | .settled _ _ => 1
  | .returned _ => 0

/-- What the task will return, and what it has still to ask. -/
def ahead (j : Job) : Stage → Except Error Answer × List Asked
  | .idle => (j.result, j.asked)
  | .opened s =>
    match s.handshake with
    | .error e => (.error e, [.handshake, .close])
    | .ok () => (j.operation.answer s, [.handshake, j.operation.question, .close])
  | .greeted s => (j.operation.answer s, [j.operation.question, .close])
  | .settled _ r => (r, [.close])
  | .returned r => (r, [])

/-- A step of the task for a job, and what it asks in that step. -/
inductive Step (j : Job) : Stage → List Asked → Stage → Prop
  | refused {e : Error} :
    j.connection = .error e → Step j .idle [.connect j.server, .refused] (.returned (.error e))
  | connects {s : Session} :
    j.connection = .ok s → Step j .idle [.connect j.server] (.opened s)
  | unready {s : Session} {e : Error} :
    s.handshake = .error e → Step j (.opened s) [.handshake] (.settled s (.error e))
  | greets {s : Session} :
    s.handshake = .ok () → Step j (.opened s) [.handshake] (.greeted s)
  | asks {s : Session} :
    Step j (.greeted s) [j.operation.question] (.settled s (j.operation.answer s))
  | closes {s : Session} {r : Except Error Answer} :
    s.close = .ok () → Step j (.settled s r) [.close] (.returned r)
  /-- The failure is only noted. -/
  | closeFails {s : Session} {r : Except Error Answer} {e : Error} :
    s.close = .error e → Step j (.settled s r) [.close] (.returned r)

section Steps

variable {j : Job} {st st' : Stage} {qs : List Asked}

theorem Step.left_lt (h : Step j st qs st') : st'.left < st.left := by
  cases h <;> simp [left]

/-- What a step asks is the next of what the task has to ask. -/
theorem Step.ahead_eq (h : Step j st qs st') :
    st.ahead j = ((st'.ahead j).1, qs ++ (st'.ahead j).2) := by
  cases h with
  | refused hc =>
    unfold ahead Job.result Job.asked Operation.run inSession
    rw [hc]
    rfl
  | @connects s hc =>
    -- what is still to be asked depends on a handshake that has not been made yet
    unfold ahead Job.result Job.asked Operation.run inSession
    rw [hc]
    dsimp only
    cases s.handshake <;> rfl
  | unready hh | greets hh => simp only [ahead, hh, List.cons_append, List.nil_append]
  | asks | closes | closeFails => rfl

theorem Step.leavesOpen (h : Step j st qs st') :
    qs.foldl Asked.leavesOpen st.session?.isSome = st'.session?.isSome := by
  cases h with
  | asks => exact j.operation.leavesOpen_question true
  | refused | connects | unready | greets | closes | closeFails => rfl

theorem step_or_returned (j : Job) (st : Stage) :
    (∃ qs st', Step j st qs st') ∨ ∃ r, st = .returned r := by
  cases st with
  | idle =>
    cases hc : j.connection with
    | error e => exact .inl ⟨_, _, .refused hc⟩
    | ok s => exact .inl ⟨_, _, .connects hc⟩
  | opened s =>
    cases hh : s.handshake with
    | error e => exact .inl ⟨_, _, .unready hh⟩
    | ok u => exact .inl ⟨_, _, .greets hh⟩
  | greeted s => exact .inl ⟨_, _, .asks⟩
  | settled s r =>
    cases hc : s.close with
    | error e => exact .inl ⟨_, _, .closeFails hc⟩
    | ok u => exact .inl ⟨_, _, .closes hc⟩
  | returned r => exact .inr ⟨r, rfl⟩

end Steps

end Stage

structure Task where
  job : Job
  stage : Stage

namespace Task

/-- What was asked for a task agrees with the stage it has come to. -/
structure Agrees (t : Task) (qs : List Asked) : Prop where
  asked : t.job.asked = qs ++ (t.stage.ahead t.job).2
  result : t.job.result = (t.stage.ahead t.job).1
  holds : isOpen qs = t.stage.session?.isSome

theorem agrees_idle (j : Job) : Agrees ⟨j, .idle⟩ [] := ⟨rfl, rfl, rfl⟩

theorem Agrees.step {j : Job} {st st' : Stage} {ps qs : List Asked}
    (h : Agrees ⟨j, st⟩ ps) (hs : st.Step j qs st') : Agrees ⟨j, st'⟩ (ps ++ qs) where
  asked := by
    rw [h.asked, hs.ahead_eq, List.append_assoc]
  result := by
    rw [h.result, hs.ahead_eq]
  holds := by
    rw [isOpen_append, h.holds]
    exact hs.leavesOpen

/-- The steps that some tasks may still take. -/
def leftOf : List Task → Nat
  | [] => 0
  | t :: ts => t.stage.left + leftOf ts

theorem leftOf_append (ts us : List Task) : leftOf (ts ++ us) = leftOf ts + leftOf us := by
  induction ts with
  | nil => exact (Nat.zero_add _).symm
  | cons t ts ih =>
    show t.stage.left + leftOf (ts ++ us) = t.stage.left + leftOf ts + leftOf us
    omega

end Task

/-! ## Interleavings -/

/-- Jobs under way: a task for each in its place, and all that was asked so far, with the place of
the task that asked it. -/
structure Pool where
  tasks : List Task
  log : List (Nat × Asked)

namespace Pool

def of (jobs : List Job) : Pool := ⟨jobs.map (⟨·, .idle⟩), []⟩

/-- What was asked by the task at a place. -/
def askedAt (p : Pool) (i : Nat) : List Asked :=
  p.log.filterMap fun e => if e.1 = i then some e.2 else none

def left (p : Pool) : Nat := Task.leftOf p.tasks

def IsOver (p : Pool) : Prop := ∀ t ∈ p.tasks, ∃ r, t.stage = .returned r

/-- One of the tasks takes a step. -/
inductive Step : Pool → Pool → Prop
  | task {before after : List Task} {j : Job} {st st' : Stage} {log : List (Nat × Asked)}
    {qs : List Asked} :
    st.Step j qs st' → Step ⟨before ++ ⟨j, st⟩ :: after, log⟩
      ⟨before ++ ⟨j, st'⟩ :: after, log ++ qs.map (before.length, ·)⟩

abbrev Reaches : Pool → Pool → Prop := ReflTransGen Step

theorem Step.left_lt {p p' : Pool} (h : Step p p') : p'.left < p.left := by
  cases h with
  | task h =>
    have := h.left_lt
    simp only [left, Task.leftOf_append, Task.leftOf]
    omega

theorem step_or_isOver (p : Pool) : (∃ p', Step p p') ∨ p.IsOver := by
  by_cases h : p.IsOver
  · exact .inr h
  · obtain ⟨tasks, log⟩ := p
    unfold IsOver at h
    simp only [Classical.not_forall] at h
    obtain ⟨⟨j, st⟩, ht, hr⟩ := h
    obtain ⟨before, after, rfl⟩ := List.append_of_mem ht
    rcases Stage.step_or_returned j st with ⟨qs, st', hs⟩ | hr'
    · exact .inl ⟨_, .task hs⟩
    · exact absurd hr' hr

/-- Every schedule can be brought to its end. -/
theorem exists_isOver (p : Pool) : ∃ p', Reaches p p' ∧ p'.IsOver := by
  rcases p.step_or_isOver with ⟨p₁, hs⟩ | h
  · have := hs.left_lt
    obtain ⟨p', hr, ho⟩ := exists_isOver p₁
    exact ⟨p', .head hs hr, ho⟩
  · exact ⟨p, .refl, h⟩
termination_by p.left

/-! ### The invariant -/

theorem askedAt_append (tasks : List Task) (log : List (Nat × Asked)) (n : Nat) (qs : List Asked)
    (i : Nat) : askedAt ⟨tasks, log ++ qs.map (n, ·)⟩ i =
      askedAt ⟨tasks, log⟩ i ++ if n = i then qs else [] := by
  unfold askedAt
  rw [List.filterMap_append, List.filterMap_map]
  congr 1
  show qs.filterMap (fun q => if n = i then some q else none) = _
  by_cases hn : n = i <;> simp [hn]

theorem getElem?_replaced {before after : List Task} {t u v : Task} {i : Nat}
    (h : (before ++ u :: after)[i]? = some v) :
    i = before.length ∧ v = u ∨ i ≠ before.length ∧ (before ++ t :: after)[i]? = some v := by
  by_cases hi : i = before.length
  · subst hi
    simp at h
    exact .inl ⟨rfl, h.symm⟩
  · refine .inr ⟨hi, ?_⟩
    rw [← h, List.getElem?_append, List.getElem?_append]
    split
    · rfl
    · obtain ⟨k, hk⟩ : ∃ k, i - before.length = k + 1 := ⟨i - before.length - 1, by omega⟩
      rw [hk]
      rfl

/-- What was asked at each place agrees with the task at that place, and nothing else was asked. -/
structure Agrees (jobs : List Job) (p : Pool) : Prop where
  jobs : p.tasks.map Task.job = jobs
  places : ∀ e ∈ p.log, e.1 < p.tasks.length
  tasks : ∀ i (t : Task), p.tasks[i]? = some t → t.Agrees (p.askedAt i)

theorem agrees_of (jobs : List Job) : Agrees jobs (of jobs) where
  jobs := by simp [of, Function.comp_def]
  places e he := by cases he
  tasks i t ht := by
    obtain ⟨j, -, rfl⟩ := Option.map_eq_some_iff.1 ((List.getElem?_map ..).symm.trans ht)
    exact Task.agrees_idle j

theorem Agrees.step {jobs : List Job} {p p' : Pool} (h : Agrees jobs p) (hs : Step p p') :
    Agrees jobs p' := by
  obtain ⟨hj, hp, ht⟩ := h
  cases hs with
  | @task before after j st st' log qs hs =>
    refine ⟨?_, ?_, ?_⟩
    · rw [← hj]
      simp
    · intro e he
      rcases List.mem_append.1 he with he | he
      · simpa using hp e he
      · obtain ⟨q, -, rfl⟩ := List.mem_map.1 he
        simp
    · intro i t hi
      rw [askedAt_append]
      -- only the task that took the step has asked more
      rcases getElem?_replaced (t := ⟨j, st⟩) hi with ⟨rfl, rfl⟩ | ⟨hne, hi⟩
      · rw [if_pos rfl]
        exact (ht _ _ (by simp)).step hs
      · rw [if_neg (Ne.symm hne), List.append_nil]
        exact ht i t hi

theorem Agrees.reach {jobs : List Job} {p : Pool} (h : Reaches (of jobs) p) : Agrees jobs p := by
  induction h with
  | refl => exact agrees_of jobs
  | tail _ hs ih => exact ih.step hs

/-! ### Scopes -/

/-- The sessions of some jobs under way are scoped. -/
structure Scoped (p : Pool) (jobs : List Job) : Prop where
  /-- There is a task for each job, and nothing is asked but by one of the tasks. -/
  tasks : p.tasks.map Task.job = jobs
  places : ∀ e ∈ p.log, e.1 < jobs.length
  /-- What was asked for a job is the first part of what is asked for it when it is run alone. -/
  asks : ∀ i j, jobs[i]? = some j → p.askedAt i <+: j.asked
  /-- A session is open just while its task holds it. -/
  holds : ∀ i (t : Task), p.tasks[i]? = some t → isOpen (p.askedAt i) = t.stage.session?.isSome
  /-- A task that has returned gives what comes of its job, has asked all there is to ask for it,
  and has left no session open. -/
  returned : ∀ i j r, p.tasks[i]? = some ⟨j, .returned r⟩ →
    r = j.result ∧ p.askedAt i = j.asked ∧ isOpen (p.askedAt i) = false
  /-- Every step brings the tasks nearer to their ends, and all of them can be brought there. -/
  nears : ∀ p', Step p p' → p'.left < p.left
  ends : ∃ p', Reaches p p' ∧ p'.IsOver

/-- Sessions are scoped, in every interleaving. -/
theorem scoped_of_reaches {jobs : List Job} {p : Pool} (h : Reaches (of jobs) p) :
    p.Scoped jobs := by
  obtain ⟨hj, hp, ht⟩ := Agrees.reach h
  constructor
  case tasks => exact hj
  case places => simpa [← hj] using hp
  case asks =>
    intro i j hi
    rw [← hj, List.getElem?_map] at hi
    obtain ⟨t, hi', rfl⟩ := Option.map_eq_some_iff.1 hi
    exact ⟨_, (ht i t hi').asked.symm⟩
  case holds => exact fun i t hi => (ht i t hi).holds
  case returned =>
    intro i j r hi
    obtain ⟨ha, hr, ho⟩ := ht i _ hi
    exact ⟨hr.symm, (ha.trans (List.append_nil _)).symm, ho⟩
  case nears => exact fun p' hs => hs.left_lt
  case ends => exact p.exists_isOver

end Pool

end Parley.Mcp
