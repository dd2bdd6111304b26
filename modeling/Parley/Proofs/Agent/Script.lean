/-
Turns and the scripts that they run on. Every script and every valid agent give a turn a course
(`course_exists`). The course fixes what the turn shows and says; of the script it depends on no
more than the items that were read, so a script that goes on in another way behind them makes no
difference (`performedIn_playing`).
-/
import Parley.Proofs.Agent.Course
import Parley.Proofs.Agent.Inference

namespace Parley

/-! ## Scripts -/

/-- The world with another script. -/
def World.playing (w : World) (rounds : List Round) : World := { w with rounds }

/-- A new world whose host streams a script and can do nothing else. -/
def World.scripted (rounds : List Round) : World where
  host := ⟨fun _ _ _ _ => .ok (), fun _ _ => .ok (), fun _ c _ => .error (.call c "not offered"),
    fun _ _ m _ => .error (.call m "not offered")⟩
  connector := fun _ _ => .error (.transport "any" "no server")
  rounds := rounds
  freshId := fun _ => "component"
  serial := 0
  defined := 0
  log := []
  sessions := []

/-- A tool that takes no parameters and gives always the same value. -/
def Tool.constant (name : String) (v : Json) : Tool :=
  .function ⟨name, "", .none, none⟩ fun _ _ => .returned (.ok v)

/-- An agent with some tools in a new conversation. -/
def Agent.fresh (m : Model) (tools : List Tool) : Agent :=
  ⟨m, ⟨"component", m.componentType, true⟩, .new m.systemMessage,
    (Tool.Registry.empty.registerAll tools).2⟩

namespace Agent

open Chat Turn

/-! ## Every script gives a course -/

section Existence

variable {a : Agent} {w : World} {o : RunOptions}

/-- The calls of a batch with what came of them. -/
theorem results_exist (a : Agent) (w : World) (calls : List ToolCall) :
    ∃ results : List (ToolCall × Outcome),
      results.map Prod.fst = calls ∧ results.map Prod.snd = (a.dispatch w calls).1 := by
  have hl : (a.dispatch w calls).1.length = calls.length := by simp [dispatch]
  exact ⟨calls.zip (a.dispatch w calls).1, List.map_fst_zip hl.ge, List.map_snd_zip hl.le⟩

theorem running_rounds (hv : a.isValid = true) {round : Round} {rest : List Round}
    (hw : w.rounds = round :: rest) (calls : List ToolCall) :
    (a.running o w calls).rounds = rest :=
  (stream_round hv hw).2

/-- Every script gives a course. -/
theorem course_exists (o : RunOptions) (rounds : List Round) (a : Agent) (w : World)
    (hv : a.isValid = true) (hw : w.rounds = rounds) :
    ∃ c : Course, c.ServedBy rounds ∧ c.PerformedIn o a w := by
  induction rounds generalizing a w with
  | nil => exact ⟨.refused _, .inr ⟨rfl, rfl⟩, trivial⟩
  | cons round rest ih =>
    cases round with
    | error e => exact ⟨.refused e, .inl ⟨rest, rfl⟩, trivial⟩
    | ok items =>
      -- each round takes one entry of the script, whatever it reads of it
      obtain ⟨read, unread, texts, verdict, rfl, hr⟩ := reads_exists items
      cases verdict with
      | ends e => exact ⟨.ended read texts e, ⟨unread, rest, rfl, hr⟩, trivial⟩
      | asks calls =>
        obtain ⟨results, rfl, ho⟩ := results_exist a (a.askingFor o w) calls
        cases hf : fatalOf results with
        | some e => exact ⟨.aborted read texts results e, ⟨unread, rest, rfl, hr⟩, ho, hf⟩
        | none =>
          obtain ⟨next, hs, hp⟩ := ih (a.saying (batchSaid results))
            (a.running o w (results.map Prod.fst)) hv (running_rounds hv hw _)
          exact ⟨.batch read texts results next, ⟨unread, rest, rfl, hr, hs⟩, ho, hf, hp⟩

end Existence

/-! ## What is not read -/

section Unread

variable {a : Agent} {w : World} {o : RunOptions}

/-- A valid agent that asks for a round takes it from the script. -/
theorem askingFor_eq (hv : a.isValid = true) :
    a.askingFor o w = (w.noting (a.asking o a.history.messages)).playing w.rounds.tail := by
  unfold isValid at hv
  cases hw : w.rounds with
  | nil =>
    unfold askingFor Component.stream World.stream
    simp only [hv, hw, if_true]
    unfold World.playing
    rw [List.tail_nil, ← hw]
    rfl
  | cons round rest =>
    unfold askingFor Component.stream World.stream
    simp only [hv, hw, if_true]
    rfl

theorem askingFor_playing (hv : a.isValid = true) (rounds : List Round) :
    a.askingFor o (w.playing rounds) = (a.askingFor o w).playing rounds.tail := by
  rw [askingFor_eq hv, askingFor_eq hv]
  rfl

theorem running_playing (hv : a.isValid = true) (rounds : List Round) (calls : List ToolCall) :
    a.running o (w.playing rounds) calls = (a.running o w calls).playing rounds.tail := by
  unfold running
  rw [askingFor_playing hv]
  rfl

theorem dispatch_playing (hv : a.isValid = true) (rounds : List Round) (calls : List ToolCall) :
    (a.dispatch (a.askingFor o (w.playing rounds)) calls).1 =
      (a.dispatch (a.askingFor o w) calls).1 := by
  rw [askingFor_playing hv]
  rfl

/-- What came of the calls does not depend on the script. -/
theorem performedIn_playing (c : Course) (a : Agent) (w : World) (rounds : List Round)
    (hv : a.isValid = true) : c.PerformedIn o a (w.playing rounds) ↔ c.PerformedIn o a w := by
  induction c generalizing a w rounds with
  | refused | ended => exact Iff.rfl
  | aborted read texts results e =>
    unfold Course.PerformedIn
    rw [dispatch_playing hv]
  | batch read texts results next ih =>
    unfold Course.PerformedIn
    rw [dispatch_playing hv, running_playing hv, ih (a.saying (batchSaid results)) _ _ hv]

/-- What is asked outside does not depend on the script. -/
theorem worldAfter_playing (c : Course) (a : Agent) (w : World) (rounds : List Round)
    (hv : a.isValid = true) :
    ∃ rest, c.worldAfter o a (w.playing rounds) = (c.worldAfter o a w).playing rest := by
  induction c generalizing a w rounds with
  | refused | ended => exact ⟨_, askingFor_playing hv rounds⟩
  | aborted read texts results e => exact ⟨_, running_playing hv rounds _⟩
  | batch read texts results next ih =>
    unfold Course.worldAfter
    rw [running_playing hv]
    exact ih (a.saying (batchSaid results)) _ _ hv

end Unread

/-! ## Requests for inference -/

section Requests

variable {a : Agent} {w : World} {o : RunOptions}

theorem askingFor_inferences (hv : a.isValid = true) :
    (a.askingFor o w).inferences = w.inferences ++ [a.asking o a.history.messages] := by
  rw [askingFor_eq hv]
  show (w.log ++ [_]).filter _ = _
  rw [List.filter_append]
  rfl

/-- The host is asked for one round of inference for each conversation of the course. -/
theorem worldAfter_inferences (c : Course) (a : Agent) (w : World) (hv : a.isValid = true) :
    (c.worldAfter o a w).inferences =
      w.inferences ++ (c.conversations a.history.messages).map (a.asking o) := by
  induction c generalizing a w with
  | refused | ended => exact askingFor_inferences hv
  | aborted read texts results e =>
    show (a.dispatch _ _).2.inferences = _
    rw [dispatch_inferences, askingFor_inferences hv]
    rfl
  | batch read texts results next ih =>
    show (next.worldAfter o _ _).inferences = _
    rw [ih (a.saying (batchSaid results)) _ hv]
    show (a.dispatch _ _).2.inferences ++ _ = _
    rw [dispatch_inferences, askingFor_inferences hv, List.append_assoc]
    rfl

end Requests

/-! ## The turn as a whole -/

theorem nothing_behind_error {e : Error} {after : List (Except Error Event)} :
    ∀ (es : List Event) (f : Option Error) (before : List (Except Error Event)),
      es.map .ok ++ f.toList.map .error = before ++ .error e :: after → after = []
  | [], none, [], h => by cases h
  | [], none, _ :: _, h => by cases h
  | [], some f, [], h => by
    cases h
    rfl
  | [], some f, _ :: before, h => by
    have ht := (List.cons.inj h).2
    exact absurd ht.symm (List.append_ne_nil_of_right_ne_nil before (List.cons_ne_nil _ _))
  | _ :: _, _, [], h => by cases h
  | _ :: es, f, _ :: before, h => nothing_behind_error es f before (List.cons.inj h).2

/-- A turn goes as a course says. -/
structure Follows (a : Agent) (w : World) (o : RunOptions) (message : String) (c : Course)
    (u : Turn) : Prop where
  /-- The rounds of the script start with what the course read of them. -/
  served : c.ServedBy w.rounds
  /-- The calls have the outcomes that the tools give. -/
  performed : c.PerformedIn o (a.saying [.user message]) w
  /-- The turn shows the items of the course and is over. -/
  shown : (Turn.new a w o message).exhaust = (c.items, u)
  finished : u.phase = .done ∧ u.pending = []
  /-- Whoever polls sees the same items one by one. -/
  polled : ∀ n, ((Turn.new a w o message).takeEvents n).1 = c.items.take n
  closed : ∀ n, c.items.length < n → (Turn.new a w o message).takeEvents n = (c.items, u)
  /-- A failure is the last item. -/
  failed : ∀ before e after, c.items = before ++ .error e :: after → after = []
  /-- The conversation grows by the messages of the course behind that of the user. -/
  said : u.agent = a.saying (.user message :: c.messages)
  /-- The host is asked for the rounds of the course. -/
  asked : u.world.inferences = w.inferences ++
    (c.conversations (a.history.messages ++ [.user message])).map (a.asking o)
  /-- Nothing depends on what the course did not read. -/
  unread : ∀ rounds, c.ServedBy rounds → ∃ rest,
    (Turn.new a (w.playing rounds) o message).exhaust =
      (c.items, { u with world := u.world.playing rest })

theorem advance_new {a : Agent} (hv : a.isValid = true) (w : World) (o : RunOptions)
    (message : String) :
    (Turn.new a w o message).advance = ⟨a.saying [.user message], w, o, .infer, []⟩ := by
  unfold Turn.new advance
  simp only [hv, if_true]
  exact append_taken .infer (.inl rfl)

theorem drains_new (c : Course) (a : Agent) (w : World) (o : RunOptions) (message : String)
    (hv : a.isValid = true) (hs : c.ServedBy w.rounds)
    (hp : c.PerformedIn o (a.saying [.user message]) w) :
    Drains (Turn.new a w o message) c.items ⟨a.saying (.user message :: c.messages),
      c.worldAfter o (a.saying [.user message]) w, o, .done, []⟩ := by
  have hne : (a.saying [.user message]).history.messages ≠ [] :=
    List.append_ne_nil_of_right_ne_nil _ (List.cons_ne_nil _ _)
  have hd := drains_of_course o c (a.saying [.user message]) w hv hne hs hp
  rw [saying_saying, ← advance_new hv] at hd
  exact Drains.advance rfl rfl hd

/-- Every turn of a valid agent follows a course, whatever the script. -/
theorem turn_follows_course (a : Agent) (w : World) (o : RunOptions) (message : String)
    (hv : a.isValid = true) : ∃ c u, Follows a w o message c u := by
  obtain ⟨c, hs, hp⟩ := course_exists o w.rounds (a.saying [.user message]) w hv rfl
  have hd := drains_new c a w o message hv hs hp
  refine ⟨c, _, hs, hp, exhaust_eq hd, ⟨rfl, rfl⟩, fun n => (takeEvents_take n _ _ hd).1,
    fun n hn => takeEvents_of_drains n _ _ hd hn, fun _ _ _ h => nothing_behind_error _ _ _ h, rfl,
    worldAfter_inferences c (a.saying [.user message]) w hv, fun rounds hs' => ?_⟩
  have hp' := (performedIn_playing c (a.saying [.user message]) w rounds hv).2 hp
  have hd' := drains_new c a (w.playing rounds) o message hv hs' hp'
  obtain ⟨rest, hr⟩ := worldAfter_playing (o := o) c (a.saying [.user message]) w rounds hv
  rw [hr] at hd'
  exact ⟨rest, exhaust_eq hd'⟩

/-- A turn with a batch of one call. -/
theorem turn_with_batch_follows_course :
    (fresh (.qwen "small" "Qwen") [.constant "clock" (.str "noon")]).isValid = true ∧
    ∃ c u, Follows (fresh (.qwen "small" "Qwen") [.constant "clock" (.str "noon")])
      (.scripted [.ok [.ok (Delta.mk (some .toolCalls) (.toolCalls [.new "1" "clock" []])).toJson],
        .ok [.ok (Delta.mk (some .stop) (.assistant "It is noon." none)).toJson]])
      ⟨true, false⟩ "What time is it?" c u ∧
      c.items = [.ok (.toolCall (.new "1" "clock" []) true),
        .ok (.toolResult (.toolResult "clock" "1" "\"noon\"")),
        .ok (.outputText "It is noon." false)] := by
  refine ⟨rfl, ?_⟩
  obtain ⟨c, u, h⟩ := turn_follows_course
    (fresh (.qwen "small" "Qwen") [.constant "clock" (.str "noon")])
    (.scripted [.ok [.ok (Delta.mk (some .toolCalls) (.toolCalls [.new "1" "clock" []])).toJson],
      .ok [.ok (Delta.mk (some .stop) (.assistant "It is noon." none)).toJson]])
    ⟨true, false⟩ "What time is it?" rfl
  exact ⟨c, u, h, (congrArg Prod.fst h.shown).symm⟩

end Agent

end Parley
