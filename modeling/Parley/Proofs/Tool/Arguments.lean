/-
Arguments as a text. A backend may send the arguments of a call as an object or as the text of one.
Any text of the object will do, with whatever blanks between its tokens: the two calls are read
alike, in whatever record they stand, and a call that is accepted has the arguments in the order in
which the object gives them (`decode_fill_of_spells`).
-/
import Parley.Proofs.Chat.Wire
import Parley.Proofs.Json.Reading
import Parley.Proofs.Json.Renaming

namespace Parley.ToolCall

open Json Fields

/-! ## The text of an object -/

theorem isBlankText_of_spells {ms : Members} {s : String} (h : Spells (.obj ms) s) :
    Text.isBlankText s = false := by
  obtain ⟨cs, blank, hcs, -, hs⟩ := h
  have htoken : ['{'] ∈ (Json.obj ms).tokens := by
    rcases ms with _ | ⟨⟨k, v⟩, ms⟩ <;> exact List.mem_cons_self
  have hbrace : '{' ∈ s.toList := by
    rw [hs]
    exact List.mem_append_left _ (hcs.mem htoken (List.mem_singleton_self _))
  rw [Text.isBlankText, List.all_eq_false]
  exact ⟨'{', hbrace, by decide⟩

/-- The text of an object gives the arguments that the object gives. -/
theorem decodeArguments_of_spells {ms : Members} {s : String}
    (hm : Plain Parser.maxDepth (.obj ms)) (hs : Spells (.obj ms) s) :
    decodeArguments (.str s) = .ok ms := by
  unfold decodeArguments
  simp only [isBlankText_of_spells hs, parse?_of_spells hm hs]
  rfl

/-! ## Calls that lack their arguments -/

/-- The members of a call around its arguments: those in front of the function and behind it, and
those of the function in front of the arguments and behind them. -/
structure Frame where
  before : Members
  lead : Members
  trail : Members
  after : Members

namespace Frame

/-- The function with its arguments. -/
def function (f : Frame) (arguments : Json) : Json :=
  .obj (f.lead ++ ("arguments", arguments) :: f.trail)

/-- The call with its arguments. -/
def fill (f : Frame) (arguments : Json) : Json :=
  .obj (f.before ++ ("function", f.function arguments) :: f.after)

/-- The frame that a call is written with. -/
def written (id kind name : String) : Frame where
  before := [("id", .str id), ("type", .str kind)]
  lead := [("name", .str name)]
  trail := []
  after := []

theorem fill_written (c : ToolCall) :
    (written c.id c.kind c.name).fill (.obj c.arguments) = c.toJson := rfl

variable {f : Frame} {u v : Json}

/-- A call is read alike with arguments that their reader does not tell apart. -/
theorem decode_fill (h : decodeArguments u = decodeArguments v) :
    decode (f.fill u) = decode (f.fill v) := by
  have hfunction : decodeFunction (f.function u) = decodeFunction (f.function v) := by
    refine Alike.decode ((Alike.map _ ?name).seq ?arguments)
    case name => exact alike_member (by simp)
    case arguments => exact alike_member fun _ => h
  refine Alike.decode (((Alike.map _ ?id).seq ?kind).seq ?function)
  case id | kind => exact alike_member (by simp)
  case function => exact alike_member fun _ => hfunction

/-- A call that is accepted has what the reader of the arguments makes of them. -/
theorem decodeArguments_of_decode {c : ToolCall} (h : decode (f.fill v) = .ok c) :
    decodeArguments v = .ok c.arguments := by
  obtain ⟨_, called, hrest, hcalled, rfl⟩ := (took_of_decode h).seq
  obtain ⟨_, arguments, hname, harguments, hpair⟩ := (took_of_decode (took_member hcalled)).seq
  obtain ⟨_, _, hid, -, rfl⟩ := hrest.seq
  obtain ⟨_, -, rfl⟩ := hid.map
  obtain ⟨_, -, rfl⟩ := hname.map
  rw [took_member harguments, hpair]

end Frame

/-! ## Both ways to send them -/

/-- Arguments may be sent as any text of their object. Whatever record the call stands in, it is
read alike; if it is accepted, it has the arguments in the order of the object; and it is accepted
in the record that calls are written with. -/
theorem decode_fill_of_spells {m : Arguments} {s : String}
    (hm : Plain Parser.maxDepth (.obj m)) (hs : Spells (.obj m) s) :
    (∀ f : Frame, decode (f.fill (.str s)) = decode (f.fill (.obj m))) ∧
      (∀ (f : Frame) (c : ToolCall), decode (f.fill (.str s)) = .ok c → c.arguments = m) ∧
      ∀ c : ToolCall, c.arguments = m →
        decode ((Frame.written c.id c.kind c.name).fill (.str s)) = .ok c := by
  have hread : decodeArguments (.str s) = decodeArguments (.obj m) := decodeArguments_of_spells hm hs
  refine ⟨fun f => Frame.decode_fill hread, fun f c hc => ?_, ?_⟩
  · have hc := Frame.decodeArguments_of_decode hc
    rw [hread] at hc
    cases hc
    rfl
  · rintro c rfl
    rw [Frame.decode_fill hread, Frame.fill_written, decode_toJson]

/-- A call with a text that has blanks everywhere, a quote, a backslash, a control character and a
letter beyond ASCII in its strings, and the largest and the smallest integer. -/
theorem decode_fill_of_spells_padded :
    let inner : Members := [("low", .num (.int (-9223372036854775808))),
      ("high", .arr [.num (.int 18446744073709551615), .null])]
    let m : Arguments := [("z", .obj inner), ("a", .str "say \"é\"\\\n")]
    let s := "\n\x7b\n\"z\"\n:\n\x7b\n\"low\"\n:\n-9223372036854775808\n,\n\"high\"\n:" ++
      "\n[\n18446744073709551615\n,\nnull\n]\n\x7d\n,\n\"a\"\n:\n\"say \\\"é\\\"\\\\\\n\"\n\x7d\t "
    Plain Parser.maxDepth (.obj m) ∧ Spells (.obj m) s ∧
      decode ((Frame.written "c1" "function" "say").fill (.str s)) =
        .ok ⟨"c1", "function", "say", m⟩ := by
  intro inner m s
  have hinner : Plain 126 (.obj inner) := by
    refine .obj (by decide) ?_
    simpa [inner] using ⟨.num (by decide), .arr (by simpa using ⟨.num (by decide), .null⟩)⟩
  have hm : Plain Parser.maxDepth (.obj m) := .obj (by decide) (by simpa [m] using ⟨hinner, .str⟩)
  have hblank : IsBlank ['\n'] := by decide
  have hs : Spells (.obj m) s := ⟨_, ['\t', ' '], spaced_flatMap hblank _, by decide, by decide⟩
  exact ⟨hm, hs, (decode_fill_of_spells hm hs).2.2 ⟨"c1", "function", "say", m⟩ rfl⟩

end Parley.ToolCall
