/-
The history of a conversation: messages in order, of which only the first may be the system's. It
grows by appending and shrinks only by a reset, which keeps the system's message.
-/
import Parley.Chat.Message

namespace Parley.Chat

/-- The messages of a conversation so far. -/
structure History where
  messages : List Message
  deriving DecidableEq, Repr

/-- Why a message is not taken. -/
inductive HistoryError where
  | misplacedSystemMessage
  deriving DecidableEq, Repr

/-- The text that reports the failure. -/
def HistoryError.message : HistoryError → String
  | .misplacedSystemMessage => "a system message may only appear first in the history"

namespace History

/-- A conversation before its first turn. -/
def new (system : Option String) : History :=
  ⟨system.toList.map Message.system⟩

/-- Appends a message; the system's is taken by an empty history only. -/
def push (h : History) (m : Message) : Except HistoryError History :=
  if m.isSystem && !h.messages.isEmpty then .error .misplacedSystemMessage
  else .ok ⟨h.messages ++ [m]⟩

/-- The text of the system's message. -/
def systemMessage? (h : History) : Option String :=
  match h.messages with
  | .system c :: _ => some c
  | _ => none

/-- Drops all messages but the system's. -/
def reset (h : History) : History :=
  new h.systemMessage?

/-- The latest message. -/
def last? (h : History) : Option Message := h.messages.getLast?

/-- The number of messages. -/
def size (h : History) : Nat := h.messages.length

/-- Whether there is no message. -/
def isEmpty (h : History) : Bool := h.messages.isEmpty

/-- All messages in JSON, the earliest first. -/
def toJson (h : History) : Json := .arr (h.messages.map Message.toJson)

/-! ## What is kept -/

/-- The system's message stands first or not at all. -/
structure WF (h : History) : Prop where
  tail : ∀ m ∈ h.messages.tail, m.isSystem = false

theorem new_wf (system : Option String) : (new system).WF := by
  cases system <;> exact ⟨by simp [new]⟩

theorem reset_wf (h : History) : h.reset.WF := new_wf _

theorem push_wf {h g : History} {m : Message} (hw : h.WF) (hp : h.push m = .ok g) : g.WF := by
  unfold push at hp
  split at hp
  · cases hp
  · rename_i hm
    cases hp
    refine ⟨fun x hx => ?_⟩
    rcases hms : h.messages with _ | ⟨a, as⟩
    · rw [hms] at hx
      simp at hx
    · rw [hms] at hx hm
      simp only [List.cons_append, List.tail_cons, List.mem_append, List.mem_singleton] at hx
      rcases hx with hx | rfl
      · exact hw.tail x (by rw [hms]; exact hx)
      · simpa using hm

end History

end Parley.Chat
