/-
The integers of a compiled output path. Reading makes no number of its own except the step of a
slice that shows none, which is one: all other indices, bounds and steps are tokens of the text
(`spelled_of_parse`). So the bound on the tokens bounds them all, and no text that keeps to it is
turned down for its digits (`integers_bounded`).

Reading is a recursion of eleven functions on one fuel. What it keeps is said for all of them
together (`Reads`), and proved function by function.
-/
import Parley.Proofs.OutputPath.Token

namespace Parley.OutputPath

open OutputPath.Parser

/-! ## What is kept -/

section Kept

variable {α β : Type} (p : Int → Prop)

def Within (e : Expr) : Prop := ∀ i ∈ e.integers, p i

def AllWithin (es : List Expr) : Prop := ∀ i ∈ Expr.integersOfList es, p i

def MembersWithin (ms : List (String × Expr)) : Prop := ∀ i ∈ Expr.integersOfMembers ms, p i

def PartsWithin (parts : List (Option Int)) : Prop := ∀ o ∈ parts, ∀ i ∈ o, p i

def Spelled (ts : List Token) : Prop := ∀ i, .number i ∈ ts → p i

/-- What a step reads is as wanted, and so are the numbers behind it. -/
def Yields (q : α → Prop) (s : Parser.Step α) : Prop :=
  ∀ x rest, s = some (x, rest) → q x ∧ Spelled p rest

variable {p} {q : α → Prop} {t : Token} {ts : List Token} {a b e : Expr}

theorem Spelled.tail (h : Spelled p (t :: ts)) : Spelled p ts :=
  fun i hi => h i (List.mem_cons_of_mem t hi)

theorem Spelled.head {i : Int} (h : Spelled p (.number i :: ts)) : p i :=
  h i List.mem_cons_self

theorem yields_none : Yields p q none := by
  intro x rest h
  cases h

theorem yields_some {x : α} (hx : q x) (h : Spelled p ts) : Yields p q (some (x, ts)) := by
  rintro _ _ ⟨⟩
  exact ⟨hx, h⟩

theorem Yields.map {q' : β → Prop} {s : Parser.Step α} (h : Yields p q s) {f : α → β}
    (hf : ∀ x, q x → q' (f x)) : Yields p q' (s.map fun x => (f x.1, x.2)) := by
  intro y r hy
  obtain ⟨⟨x, rest⟩, hs, he⟩ := Option.map_eq_some_iff.1 hy
  cases he
  obtain ⟨hx, hr⟩ := h x rest hs
  exact ⟨hf x hx, hr⟩

theorem forall_mem_none (i : Int) (hi : i ∈ (none : Option Int)) : p i :=
  absurd hi (Option.not_mem_none i)

theorem within_nil (he : e.integers = []) : Within p e := by
  intro i hi
  rw [he] at hi
  exact absurd hi List.not_mem_nil

theorem within_of_append (ha : Within p a) (hb : Within p b)
    (he : e.integers = a.integers ++ b.integers) : Within p e := by
  intro i hi
  rw [he, List.mem_append] at hi
  exact hi.elim (ha i) (hb i)

end Kept

/-- What is read with some fuel holds only numbers of the text. -/
structure Reads (p : Int → Prop) (fuel : Nat) : Prop where
  expr : ∀ bound ts, Spelled p ts → Yields p (Within p) (Parser.expr fuel bound ts)
  trailing : ∀ bound e ts, Within p e → Spelled p ts →
    Yields p (Within p) (Parser.trailing fuel bound e ts)
  leading : ∀ ts, Spelled p ts → Yields p (Within p) (Parser.leading fuel ts)
  following : ∀ e ts, Within p e → Spelled p ts →
    Yields p (Within p) (Parser.following fuel e ts)
  bracketed : ∀ ts, Spelled p ts → Yields p (Within p) (Parser.bracketed fuel ts)
  projection : ∀ bound e ts, Within p e → Spelled p ts →
    Yields p (Within p) (Parser.projection fuel bound e ts)
  memberValues : ∀ e ts, Within p e → Spelled p ts →
    Yields p (Within p) (Parser.memberValues fuel e ts)
  filter : ∀ e ts, Within p e → Spelled p ts → Yields p (Within p) (Parser.filter fuel e ts)
  projected : ∀ bound ts, Spelled p ts → Yields p (Within p) (Parser.projected fuel bound ts)
  afterDot : ∀ bound ts, Spelled p ts → Yields p (Within p) (Parser.afterDot fuel bound ts)
  list : ∀ close ts, Spelled p ts → Yields p (AllWithin p) (Parser.list fuel close ts)
  members : ∀ ts, Spelled p ts → Yields p (MembersWithin p) (Parser.members fuel ts)

section Functions

variable {p : Int → Prop} {n bound : Nat} {e : Expr} {ts : List Token}

theorem PartsWithin.concat {parts : List (Option Int)} {part : Option Int} (h : PartsWithin p parts)
    (hp : ∀ i ∈ part, p i) : PartsWithin p (parts ++ [part]) := by
  intro o ho
  rcases List.mem_append.1 ho with ho | ho
  · exact h o ho
  · rw [List.mem_singleton.1 ho]
    exact hp

theorem yields_sliceParts (done : List (Option Int)) (part : Option Int)
    (hd : PartsWithin p done) (hp : ∀ i ∈ part, p i) (h : Spelled p ts) :
    Yields p (PartsWithin p) (sliceParts done part ts) := by
  fun_induction sliceParts done part ts with
  | case1 | case2 =>
    rename_i ih
    refine ih hd (fun i hi => ?_) h.tail
    cases hi
    exact h.head
  | case3 | case5 | case9 | case10 => exact yields_none
  | case4 => exact yields_some (hd.concat hp) h.tail
  | case6 | case7 | case8 =>
    rename_i ih
    exact ih (hd.concat hp) forall_mem_none h.tail

theorem Reads.expr_succ (h : Reads p n) (hs : Spelled p ts) :
    Yields p (Within p) (Parser.expr (n + 1) bound ts) := by
  unfold Parser.expr
  cases hl : Parser.leading n ts with
  | none => exact yields_none
  | some x =>
    obtain ⟨ha, hr⟩ := h.leading ts hs x.1 x.2 hl
    exact h.trailing bound x.1 x.2 ha hr

theorem Reads.trailing_succ (h : Reads p n) (he : Within p e) (hs : Spelled p ts) :
    Yields p (Within p) (Parser.trailing (n + 1) bound e ts) := by
  unfold Parser.trailing
  split
  · cases hf : Parser.following n e ts with
    | none => exact yields_none
    | some x =>
      obtain ⟨ha, hr⟩ := h.following e ts he hs x.1 x.2 hf
      exact h.trailing bound x.1 x.2 ha hr
  · exact yields_some he hs

theorem Reads.leading_succ (h : Reads p n) (hs : Spelled p ts) :
    Yields p (Within p) (Parser.leading (n + 1) ts) := by
  unfold Parser.leading
  split
  · exact yields_some (within_nil rfl) hs.tail
  · exact yields_some (within_nil rfl) hs.tail
  · split
    · exact yields_none
    · exact yields_some (within_nil rfl) hs.tail
  · exact h.memberValues _ _ (within_nil rfl) hs.tail
  · exact yields_some (within_nil rfl) hs.tail
  · split
    · exact h.bracketed _ hs.tail
    · exact h.bracketed _ hs.tail
    · exact h.projection _ _ _ (within_nil rfl) hs.tail.tail.tail
    · exact (h.list _ _ hs.tail).map (f := Expr.list) fun es hes => hes
  · exact h.projection _ _ _ (within_nil rfl) hs.tail
  · exact (h.members _ hs.tail).map (f := Expr.object) fun ms hms => hms
  · exact (h.expr _ _ hs.tail).map (f := Expr.reference _) fun e he => he
  · exact (h.expr _ _ hs.tail).map (f := Expr.not) fun e he => he
  · exact h.filter _ _ (within_nil rfl) hs.tail
  · split
    · rename_i e r he
      obtain ⟨ha, hr⟩ := h.expr _ _ hs.tail _ _ he
      exact yields_some ha hr.tail
    · exact yields_none
  · exact yields_none

theorem Reads.following_succ (h : Reads p n) (he : Within p e) (hs : Spelled p ts) :
    Yields p (Within p) (Parser.following (n + 1) e ts) := by
  have both {f : Expr → Expr → Expr} (hf : ∀ a b, (f a b).integers = a.integers ++ b.integers)
      (b : Expr) (hb : Within p b) : Within p (f e b) := within_of_append he hb (hf e b)
  unfold Parser.following
  split
  · exact h.memberValues _ _ he hs.tail.tail
  · exact (h.afterDot _ _ hs.tail).map (f := Expr.chain e) (both fun _ _ => rfl)
  · split
    · exact (h.bracketed _ hs.tail).map (f := Expr.chain e) (both fun _ _ => rfl)
    · exact (h.bracketed _ hs.tail).map (f := Expr.chain e) (both fun _ _ => rfl)
    · exact h.projection _ _ _ he hs.tail.tail.tail
    · exact yields_none
  · exact (h.expr _ _ hs.tail).map (f := Expr.or e) (both fun _ _ => rfl)
  · exact (h.expr _ _ hs.tail).map (f := Expr.and e) (both fun _ _ => rfl)
  · exact (h.expr _ _ hs.tail).map (f := Expr.chain e) (both fun _ _ => rfl)
  · split
    · exact (h.list _ _ hs.tail).map (f := Expr.apply _) fun es hes => hes
    · exact yields_none
  · exact h.projection _ _ _ he hs.tail
  · exact h.filter _ _ he hs.tail
  · split
    · exact yields_none
    · exact (h.expr _ _ hs.tail).map (f := Expr.compare _ e) (both fun _ _ => rfl)
  · exact yields_none

theorem within_slice {start stop : Option Int} {step : Int} (ha : ∀ i ∈ start, p i)
    (hb : ∀ i ∈ stop, p i) (hs : p step) : Within p (.slice start stop step) := by
  intro i hi
  change i ∈ start.toList ++ stop.toList ++ [step] at hi
  rcases List.mem_append.1 hi with hi | hi
  · rcases List.mem_append.1 hi with hi | hi
    · exact ha i (Option.mem_toList.1 hi)
    · exact hb i (Option.mem_toList.1 hi)
  · rw [List.mem_singleton.1 hi]
    exact hs

/-- A slice that shows no step has one of one. -/
theorem Reads.bracketed_succ (h : Reads p n) (one : p 1) (hs : Spelled p ts) :
    Yields p (Within p) (Parser.bracketed (n + 1) ts) := by
  have hparts := yields_sliceParts [] none (List.forall_mem_nil _) forall_mem_none hs
  unfold Parser.bracketed
  split
  · rename_i i r hp
    obtain ⟨ha, hr⟩ := hparts _ _ hp
    refine yields_some (fun j hj => ?_) hr
    rw [List.mem_singleton.1 hj]
    exact ha _ List.mem_cons_self i rfl
  · rename_i start stop r hp
    obtain ⟨ha, hr⟩ := hparts _ _ hp
    exact h.projection _ _ _ (within_slice (ha start (by simp)) (ha stop (by simp)) one) hr
  · rename_i start stop step r hp
    obtain ⟨ha, hr⟩ := hparts _ _ hp
    refine h.projection _ _ _ (within_slice (ha start (by simp)) (ha stop (by simp)) ?_) hr
    cases step with
    | none => exact one
    | some i => exact ha (some i) (by simp) i rfl
  · exact yields_none

theorem Reads.projection_succ (h : Reads p n) (he : Within p e) (hs : Spelled p ts) :
    Yields p (Within p) (Parser.projection (n + 1) bound e ts) := by
  unfold Parser.projection
  exact (h.projected _ _ hs).map (f := Expr.project e) fun b hb => within_of_append he hb rfl

theorem Reads.memberValues_succ (h : Reads p n) (he : Within p e) (hs : Spelled p ts) :
    Yields p (Within p) (Parser.memberValues (n + 1) e ts) := by
  unfold Parser.memberValues
  exact h.projection _ _ _ he hs

theorem Reads.filter_succ (h : Reads p n) (he : Within p e) (hs : Spelled p ts) :
    Yields p (Within p) (Parser.filter (n + 1) e ts) := by
  unfold Parser.filter
  split
  · rename_i condition r hc
    obtain ⟨ha, hr⟩ := h.expr _ _ hs _ _ hc
    refine (h.projected _ _ hr.tail).map (f := fun b => Expr.project e (Expr.guarded condition b)) ?_
    intro b hb
    have hguarded : Within p (.guarded condition b) := within_of_append ha hb rfl
    exact within_of_append he hguarded rfl
  · exact yields_none

theorem Reads.projected_succ (h : Reads p n) (hs : Spelled p ts) :
    Yields p (Within p) (Parser.projected (n + 1) bound ts) := by
  unfold Parser.projected
  split
  · exact h.afterDot _ _ hs.tail
  · exact h.expr _ _ hs
  · exact h.expr _ _ hs
  · split
    · exact yields_some (within_nil rfl) hs
    · exact yields_none

theorem Reads.afterDot_succ (h : Reads p n) (hs : Spelled p ts) :
    Yields p (Within p) (Parser.afterDot (n + 1) bound ts) := by
  unfold Parser.afterDot
  split
  · exact (h.list _ _ hs.tail).map (f := Expr.list) fun es hes => hes
  all_goals first | exact h.expr _ _ hs | exact yields_none

theorem allWithin_cons {es : List Expr} (he : Within p e) (hes : AllWithin p es) :
    AllWithin p (e :: es) :=
  fun i hi => (List.mem_append.1 hi).elim (he i) (hes i)

theorem membersWithin_cons {k : String} {ms : List (String × Expr)} (he : Within p e)
    (hms : MembersWithin p ms) : MembersWithin p ((k, e) :: ms) :=
  fun i hi => (List.mem_append.1 hi).elim (he i) (hms i)

theorem Reads.list_succ {close : Token} (h : Reads p n) (hs : Spelled p ts) :
    Yields p (AllWithin p) (Parser.list (n + 1) close ts) := by
  cases ts with
  | nil => simp [Parser.list, yields_none]
  | cons t ts =>
    unfold Parser.list
    split
    · exact yields_some (List.forall_mem_nil p) hs.tail
    · split
      · exact yields_none
      · rename_i e r he
        obtain ⟨ha, hr⟩ := h.expr _ _ hs _ _ he
        split
        · split
          · exact yields_none
          · exact (h.list _ _ hr.tail).map (f := List.cons e) fun _ => allWithin_cons ha
        · exact (h.list _ _ hr).map (f := List.cons e) fun _ => allWithin_cons ha

theorem Reads.members_succ (h : Reads p n) (hs : Spelled p ts) :
    Yields p (MembersWithin p) (Parser.members (n + 1) ts) := by
  unfold Parser.members
  dsimp only
  split
  -- a name is one in quotes or not
  case h_1 | h_2 =>
    split
    · rename_i e r he
      obtain ⟨ha, hr⟩ := h.expr _ _ hs.tail.tail _ _ he
      exact yields_some (membersWithin_cons ha (List.forall_mem_nil p)) hr.tail
    · rename_i e r he
      obtain ⟨ha, hr⟩ := h.expr _ _ hs.tail.tail _ _ he
      exact (h.members _ hr.tail).map (f := List.cons (_, e)) fun _ => membersWithin_cons ha
    · exact yields_none
  case h_3 => exact yields_none

/-- Whatever the fuel, the numbers of what is read are those of the text, or one. -/
theorem reads (one : p 1) (fuel : Nat) : Reads p fuel := by
  induction fuel with
  | zero =>
    constructor <;> intros <;>
      simp [Parser.expr, Parser.trailing, Parser.leading, Parser.following, Parser.bracketed,
        Parser.projection, Parser.memberValues, Parser.filter, Parser.projected, Parser.afterDot,
        Parser.list, Parser.members, yields_none]
  | succ n ih =>
    constructor
    case expr => exact fun _ _ hs => ih.expr_succ hs
    case trailing => exact fun _ _ _ he hs => ih.trailing_succ he hs
    case leading => exact fun _ hs => ih.leading_succ hs
    case following => exact fun _ _ he hs => ih.following_succ he hs
    case bracketed => exact fun _ hs => ih.bracketed_succ one hs
    case projection => exact fun _ _ _ he hs => ih.projection_succ he hs
    case memberValues => exact fun _ _ he hs => ih.memberValues_succ he hs
    case filter => exact fun _ _ he hs => ih.filter_succ he hs
    case projected => exact fun _ _ hs => ih.projected_succ hs
    case afterDot => exact fun _ _ hs => ih.afterDot_succ hs
    case list => exact fun _ _ hs => ih.list_succ hs
    case members => exact fun _ hs => ih.members_succ hs

end Functions

/-- The numbers of an expression are those of its tokens, or one. -/
theorem spelled_of_parse {p : Int → Prop} {ts : List Token} {e : Expr} (one : p 1)
    (hs : Spelled p ts) (h : Parser.parse? ts = some e) : Within p e := by
  unfold Parser.parse? at h
  split at h
  · rename_i e' he
    cases h
    exact ((reads one _).expr 0 ts hs _ _ he).1
  · cases h

/-! ## Compiled paths -/

theorem compile_eq_ok_iff {s : String} {p : OutputPath} :
    compile s = .ok p ↔ integerBeyondMax? s = none ∧
      ∃ ts e, Token.scan s = some ts ∧ Parser.parse? ts = some e ∧ p = ⟨s, e⟩ := by
  unfold compile
  cases integerBeyondMax? s with
  | some ds => simp
  | none =>
    cases hts : Token.scan s with
    | none => simp
    | some ts =>
      cases he : Parser.parse? ts with
      | none => simp [he]
      | some e => simp [he, eq_comm]

theorem within_of_compile {s : String} {p : OutputPath} (h : compile s = .ok p) :
    Within (fun i => i.natAbs ≤ integerMax) p.expr := by
  obtain ⟨hnone, ts, e, hts, he, rfl⟩ := compile_eq_ok_iff.1 h
  have hs : Spelled (fun i => i.natAbs ≤ integerMax) ts :=
    (integerBeyondMax_eq_none_iff hts).1 hnone
  exact spelled_of_parse (by decide) hs he

/-- All integers of a compiled path keep to the bound; and a text whose own integers keep to it
is not turned down for its digits, wherever else it has some. -/
theorem integers_bounded (s : String) :
    (∀ p, compile s = .ok p → ∀ i ∈ p.expr.integers, i.natAbs ≤ integerMax) ∧
      ∀ ts e, Token.scan s = some ts → Parser.parse? ts = some e →
        (∀ i, .number i ∈ ts → i.natAbs ≤ integerMax) →
          integerBeyondMax? s = none ∧ compile s = .ok ⟨s, e⟩ := by
  constructor
  · exact fun p hp => within_of_compile hp
  · intro ts e hts he hs
    have hnone := (integerBeyondMax_eq_none_iff hts).2 hs
    exact ⟨hnone, compile_eq_ok_iff.2 ⟨hnone, ts, e, hts, he, rfl⟩⟩

/-- The integers of an index and a slice, up to the bound itself. -/
theorem cuts_path_bounded :
    let s := "items[-3].rows[1:1073741824:2]"
    let e : Expr := .chain (.chain (.field "items") (.index (-3)))
      (.chain (.field "rows") (.project (.slice (some 1) (some 1073741824) 2) .current))
    compile s = .ok ⟨s, e⟩ ∧ e.integers = [-3, 1, 1073741824, 2] ∧
      ∀ i ∈ e.integers, i.natAbs ≤ integerMax := by
  intro s e
  obtain ⟨hbounded, hallowed⟩ := integers_bounded s
  let tokens : List Token :=
    [.name "items", .openBracket, .number (-3), .closeBracket, .dot, .name "rows", .openBracket,
      .number 1, .colon, .number 1073741824, .colon, .number 2, .closeBracket]
  have hscan : Token.scan s = some tokens := by decide +kernel
  have hparse : Parser.parse? tokens = some e := by cbv
  have hnumbers (i : Int) (hi : .number i ∈ tokens) : i.natAbs ≤ integerMax := by
    simp only [tokens, List.mem_cons, Token.number.injEq, reduceCtorEq, false_or, List.not_mem_nil,
      or_false] at hi
    rcases hi with rfl | rfl | rfl | rfl <;> decide
  obtain ⟨-, hcompile⟩ := hallowed tokens e hscan hparse hnumbers
  exact ⟨hcompile, rfl, hbounded _ hcompile⟩

/-- Digits in names and in quotes are no integers, and the bound itself is allowed. -/
example : integerBeyondMax? "a9999999999.\"9999999999\"[1073741824]" = none := by decide

end Parley.OutputPath
