/-
Reading back the records that the library writes. A record is written as an object in which every
name stands once and absent fields are left out (`Members.compact`); whatever order its fields are
read in, each of them gives back the value that it was written from.

The other way round, a record that is accepted has for each of its fields a member, or lacks it, and
the reader of the field accepts what it has (`Fields.Took`).
-/
import Parley.Json.Decode
import Mathlib.Data.List.Forall2
import Mathlib.Data.List.Nodup

namespace Parley.Json

/-! ## Members -/

namespace Members

theorem mem_names_of_lookup {α : Type} {ms : List (String × α)} {k : String} {v : α}
    (h : ms.lookup k = some v) : k ∈ ms.map Prod.fst := by
  induction ms with
  | nil => cases h
  | cons m ms ih =>
    rw [List.lookup_cons] at h
    split at h
    · rename_i hk
      rw [beq_iff_eq] at hk
      simp [hk]
    · exact List.mem_cons_of_mem _ (ih h)

theorem names_compact_sublist (ms : List (String × Option Json)) :
    ((compact ms).map Prod.fst).Sublist (ms.map Prod.fst) := by
  induction ms with
  | nil => exact .slnil
  | cons m ms ih =>
    obtain ⟨k, v⟩ := m
    cases v with
    | none => exact ih.cons k
    | some v => exact ih.cons_cons k

/-- Leaving out absent members repeats no name. -/
theorem nodup_compact {ms : List (String × Option Json)} (h : (ms.map Prod.fst).Nodup) :
    ((compact ms).map Prod.fst).Nodup :=
  (names_compact_sublist ms).nodup h

/-- The value of a member is the one that it was written from. -/
theorem lookup_compact {ms : List (String × Option Json)} (h : (ms.map Prod.fst).Nodup)
    (k : String) : (compact ms).lookup k = (ms.lookup k).join := by
  induction ms with
  | nil => rfl
  | cons m ms ih =>
    obtain ⟨l, v⟩ := m
    rw [List.map_cons, List.nodup_cons] at h
    rcases v with _ | v
    · show (compact ms).lookup k = _
      rw [ih h.2, List.lookup_cons]
      split
      · rename_i hk
        rw [beq_iff_eq] at hk
        subst hk
        cases hl : ms.lookup k with
        | none => rfl
        | some w => exact absurd (mem_names_of_lookup hl) h.1
      · rfl
    · show ((l, v) :: compact ms).lookup k = _
      rw [List.lookup_cons, List.lookup_cons, ih h.2]
      split <;> rfl

end Members

/-! ## Fields -/

/-- What a record gives for a field: the values of the members that have one of its names, or the
item in its place. -/
def Record.given (names : List String) (place : Nat) : Record → List Json
  | .named ms => (ms.filter fun m => names.contains m.1).map Prod.snd
  | .positional vs => vs[place]?.toList

/-- What a value that is a record gives for a field, the first if there are several. -/
def part (names : List String) (place : Nat) : Json → Option Json
  | .obj ms => (ms.find? fun m => names.contains m.1).map Prod.snd
  | .arr vs => vs[place]?
  | _ => none

/-- What the absence of a field means in a record. -/
def Record.absence {α : Type} (inObject inList : Option α) : Record → Option α
  | .named _ => inObject
  | .positional _ => inList

namespace Fields

open Decode

variable {α β : Type}

/-! ### One field -/

theorem map_occurrences (names : List String) (ms : Members) :
    (occurrences names ms).map Prod.snd = (ms.filter fun m => names.contains m.1).map Prod.snd := by
  have hms : ms.filter (fun m => names.contains m.1) =
      (ms.zipIdx.filter fun m => names.contains m.1.1).map Prod.fst := by
    conv_lhs => rw [← List.zipIdx_map_fst 0 ms, List.filter_map]
    rfl
  rw [hms, occurrences, List.map_map, List.map_map]
  rfl

theorem given_cons (names : List String) (first : Nat) (m : String × Json) (ms : Members) :
    (Record.named (m :: ms)).given names first =
      if names.contains m.1 then m.2 :: (Record.named ms).given names first
      else (Record.named ms).given names first := by
  simp only [Record.given, List.filter_cons]
  split <;> rfl

/-- The member of a name is the first of those that were given. -/
theorem head?_given (k : String) (ms : Members) (first : Nat) :
    ((Record.named ms).given [k] first).head? = ms.lookup k := by
  induction ms with
  | nil => rfl
  | cons m ms ih =>
    obtain ⟨l, v⟩ := m
    rw [given_cons, List.lookup_cons]
    by_cases hl : l = k
    · simp [hl]
    · simp [hl, beq_false_of_ne (Ne.symm hl), ih]

theorem given_of_nodup {ms : Members} (hn : (ms.map Prod.fst).Nodup) (k : String) (first : Nat) :
    (Record.named ms).given [k] first = (ms.lookup k).toList := by
  induction ms with
  | nil => rfl
  | cons m ms ih =>
    obtain ⟨l, v⟩ := m
    obtain ⟨hl, hn⟩ := List.nodup_cons.1 hn
    rw [given_cons, List.lookup_cons, ih hn]
    by_cases hk : l = k
    · -- the name does not come again behind the member
      have hno : ms.lookup k = none := by
        cases h : ms.lookup k with
        | none => rfl
        | some u => exact absurd (hk ▸ Members.mem_names_of_lookup h) hl
      simp [hk, hno]
    · simp [hk, beq_false_of_ne (Ne.symm hk)]

/-- A field is read when it was given once, or not at all and its absence has a meaning. -/
theorem read_field_iff {names : List String} {d : Decode α} {inObject inList : Option α} {a : α}
    {r : Record} {first : Nat} :
    (field names d inObject inList).read r first = .ok a ↔
      (r.given names first = [] ∧ r.absence inObject inList = some a) ∨
        ∃ v, r.given names first = [v] ∧ d v = .ok a := by
  cases r with
  | named ms =>
    simp only [Record.given, Record.absence, ← map_occurrences, field]
    rcases occurrences names ms with _ | ⟨⟨i, v⟩, _ | ⟨⟨j, u⟩, more⟩⟩
    · cases inObject <;> simp
    · cases hd : d v <;> simp [hd]
    · -- a field that was given twice is refused, whatever its values are
      cases hd : d v <;> simp [hd]
  | positional vs =>
    simp only [Record.given, Record.absence, field]
    cases vs[first]? with
    | none => cases inList <;> simp
    | some v => cases hd : d v <;> simp [hd]

theorem read_required_iff {name : String} {d : Decode α} {a : α} {r : Record} {first : Nat} :
    (required name d).read r first = .ok a ↔ ∃ v, r.given [name] first = [v] ∧ d v = .ok a := by
  have hn : r.absence (Option.none : Option α) none ≠ some a := by cases r <;> exact nofun
  simp [required, read_field_iff, hn]

theorem read_defaulted_iff {names : List String} {d : Decode α} {default a : α} {r : Record}
    {first : Nat} : (defaulted names d default).read r first = .ok a ↔
      (r.given names first = [] ∧ default = a) ∨ ∃ v, r.given names first = [v] ∧ d v = .ok a := by
  have hd : r.absence (some default) (some default) = some default := by cases r <;> rfl
  simp [defaulted, read_field_iff, hd]

/-! ### Fields that are read anywhere -/

/-- The fields give a value of a record, wherever they stand among its fields. -/
def Gives (fs : Fields α) (r : Record) (a : α) : Prop :=
  ∀ first, fs.read r first = .ok a

theorem gives_pure (a : α) (r : Record) : (pure a : Fields α).Gives r a := fun _ => rfl

theorem Gives.seq {f : Fields (α → β)} {x : Fields α} {r : Record} {g : α → β} {a : α}
    (hf : f.Gives r g) (hx : x.Gives r a) : (f <*> x).Gives r (g a) := by
  intro first
  show join (f.read r first) (x.read r (first + f.width)) = _
  rw [hf, hx]
  rfl

theorem Gives.map {x : Fields α} {r : Record} {a : α} (g : α → β) (hx : x.Gives r a) :
    (g <$> x).Gives r (g a) :=
  (gives_pure g r).seq hx

theorem Gives.decode {fs : Fields α} {ms : Members} {a : α} (h : fs.Gives (.named ms) a) :
    fs.decode (.obj ms) = .ok a := by
  show unlocated (fs.read (.named ms) 0) = _
  rw [h]
  rfl

/-- A field that was given once gives what its reader makes of the value. -/
theorem gives_field {names : List String} {d : Decode α} {inObject inList : Option α} {ms : Members}
    {v : Json} {a : α} (hg : ∀ first, (Record.named ms).given names first = [v])
    (hd : d v = .ok a) : (field names d inObject inList).Gives (.named ms) a :=
  fun first => read_field_iff.2 (.inr ⟨v, hg first, hd⟩)

/-- A field that was not given gives its default. -/
theorem gives_field_absent {names : List String} {d : Decode α} {inList : Option α} {ms : Members}
    {a : α} (hg : ∀ first, (Record.named ms).given names first = []) :
    (field names d (some a) inList).Gives (.named ms) a :=
  fun first => read_field_iff.2 (.inl ⟨hg first, rfl⟩)

/-- Members that no name of a field belongs to make no difference to it. -/
theorem gives_append {names : List String} {d : Decode α} {inObject inList : Option α}
    {ms others : Members} {a : α} (h : (field names d inObject inList).Gives (.named ms) a)
    (ho : ∀ m ∈ others, m.1 ∉ names) :
    (field names d inObject inList).Gives (.named (ms ++ others)) a := by
  intro first
  have hgiven : (Record.named (ms ++ others)).given names first =
      (Record.named ms).given names first := by
    have hnone : others.filter (fun m => names.contains m.1) = [] :=
      List.filter_eq_nil_iff.2 fun m hm => by simpa using ho m hm
    simp only [Record.given, List.filter_append, hnone, List.append_nil]
  rw [read_field_iff, hgiven]
  exact read_field_iff.1 (h first)

section Compact

variable {k : String} {others : List String} {ms : List (String × Option Json)}

/-- A record that was written names each of its fields at most once, and by the first name. -/
theorem given_compact (hn : (ms.map Prod.fst).Nodup) (ho : ∀ l ∈ others, l ∉ ms.map Prod.fst)
    (first : Nat) : (Record.named (Members.compact ms)).given (k :: others) first =
      ((ms.lookup k).join).toList := by
  have hfilter : (Members.compact ms).filter (fun m => (k :: others).contains m.1) =
      (Members.compact ms).filter (fun m => [k].contains m.1) := by
    refine List.filter_congr fun m hm => ?_
    have hm' : m.1 ∈ ms.map Prod.fst :=
      (Members.names_compact_sublist ms).mem (List.mem_map_of_mem hm)
    have hno : m.1 ∉ others := fun hl => ho _ hl hm'
    simp [hno]
  rw [← Members.lookup_compact hn, ← given_of_nodup (Members.nodup_compact hn) k first]
  exact congrArg (List.map Prod.snd) hfilter

variable (hn : (ms.map Prod.fst).Nodup)

include hn

/-- A field that was written is read back from the member that holds it. -/
theorem gives_written {d : Decode α} {inObject inList : Option α} {v : Json} {a : α}
    (ho : ∀ l ∈ others, l ∉ ms.map Prod.fst) (hl : ms.lookup k = some (some v))
    (hd : d v = .ok a) : (field (k :: others) d inObject inList).Gives (.named (Members.compact ms)) a :=
  gives_field (v := v) (fun first => by rw [given_compact hn ho, hl]; rfl) hd

/-- A required field is read back from the member that holds it. -/
theorem gives_required {d : Decode α} {v : Json} {a : α} (hl : ms.lookup k = some (some v))
    (hd : d v = .ok a) : (required k d).Gives (.named (Members.compact ms)) a :=
  gives_written hn nofun hl hd

/-- A field that may be `null` is read back from the member that holds it. -/
theorem gives_nullable {d : Decode α} {v : Json} {a : Option α} (hl : ms.lookup k = some (some v))
    (hd : d.nullable v = .ok a) : (nullable k d).Gives (.named (Members.compact ms)) a :=
  gives_written hn nofun hl hd

/-- A field that is written only when it has a value is read back in either case. -/
theorem gives_optional_alias {d : Decode α} {enc : α → Json} {a : Option α}
    (ho : ∀ l ∈ others, l ∉ ms.map Prod.fst) (hl : ms.lookup k = some (a.map enc))
    (hd : ∀ b ∈ a, d.nullable (enc b) = .ok (some b)) :
    (optional (k :: others) d).Gives (.named (Members.compact ms)) a := by
  cases a with
  | none => exact gives_field_absent fun first => by rw [given_compact hn ho, hl]; rfl
  | some b => exact gives_written hn ho hl (hd b rfl)

theorem gives_optional {d : Decode α} {enc : α → Json} {a : Option α}
    (hl : ms.lookup k = some (a.map enc)) (hd : ∀ b, d.nullable (enc b) = .ok (some b)) :
    (optional [k] d).Gives (.named (Members.compact ms)) a :=
  gives_optional_alias hn nofun hl fun b _ => hd b

end Compact

/-! ## What a record was read from -/

section Reading

variable {r : Record} {first : Nat}

theorem join_ok {f : Except Located (α → β)} {x : Except Located α} {b : β} (h : join f x = .ok b) :
    ∃ g a, f = .ok g ∧ x = .ok a ∧ b = g a := by
  cases f <;> cases x <;> cases h
  exact ⟨_, _, rfl, rfl, rfl⟩

theorem read_seq {f : Fields (α → β)} {x : Fields α} {b : β}
    (h : (f <*> x).read r first = .ok b) :
    ∃ g a, f.read r first = .ok g ∧ x.read r (first + f.width) = .ok a ∧ b = g a :=
  join_ok h

theorem read_map {g : α → β} {x : Fields α} {b : β} (h : (g <$> x).read r first = .ok b) :
    ∃ a, x.read r first = .ok a ∧ b = g a := by
  obtain ⟨_, a, hg, ha, rfl⟩ := read_seq (f := pure g) h
  cases hg
  exact ⟨a, ha, rfl⟩

theorem ok_of_unlocated {x : Except Located α} {a : α} (h : unlocated x = .ok a) : x = .ok a := by
  cases x with
  | error e => cases h
  | ok b =>
    cases h
    rfl

/-- A value that is accepted is a record, and its fields were read from their places on. -/
theorem read_of_decode {fs : Fields α} {v : Json} {a : α} (h : fs.decode v = .ok a) :
    ∃ r, fs.read r 0 = .ok a ∧ ∀ names place, v.part names place = (r.given names place).head? := by
  cases v with
  | obj ms =>
    refine ⟨.named ms, ok_of_unlocated h, fun names place => ?_⟩
    simp only [part, Record.given, List.head?_map, List.head?_filter]
  | arr vs =>
    refine ⟨.positional vs, ok_of_unlocated ?_, fun names place => ?_⟩
    · unfold decode at h
      dsimp only at h
      split at h
      · rename_i b hb
        split at h
        · cases h
        · cases h
          exact hb
      · cases h
    · simp only [part, Record.given, Option.head?_toList]
  | null | bool | num | str => cases h

/-- A record whose first field is required has it. -/
theorem first_of_decode {γ : Type} {g : α → β → γ} {name : String} {d : Decode α} {x : Fields β}
    {v : Json} {c : γ} (h : (g <$> required name d <*> x).decode v = .ok c) :
    ∃ u a b, v.part [name] 0 = some u ∧ d u = .ok a ∧ c = g a b := by
  obtain ⟨r, h₂, hpart⟩ := read_of_decode h
  obtain ⟨_, b, h₁, -, rfl⟩ := read_seq h₂
  obtain ⟨a, ha, rfl⟩ := read_map h₁
  obtain ⟨u, hg, hu⟩ := read_required_iff.1 ha
  refine ⟨u, a, b, ?_, hu, rfl⟩
  rw [hpart, hg]
  rfl

end Reading

/-! ## Records that were accepted -/

/-- Some fields were read from the members of an object. -/
def Took (fs : Fields α) (ms : Members) (a : α) : Prop :=
  ∃ first, fs.read (.named ms) first = .ok a

theorem took_of_decode {fs : Fields α} {ms : Members} {a : α} (h : fs.decode (.obj ms) = .ok a) :
    fs.Took ms a := by
  refine ⟨0, ?_⟩
  show fs.read (.named ms) 0 = _
  have hu : unlocated (fs.read (.named ms) 0) = .ok a := h
  cases hr : fs.read (.named ms) 0 with
  | error e => simp [hr, unlocated] at hu
  | ok b =>
    rw [hr] at hu
    cases hu
    rfl

/-- Fields that were read one behind the other were all read. -/
theorem Took.seq {f : Fields (α → β)} {x : Fields α} {ms : Members} {b : β}
    (h : (f <*> x).Took ms b) : ∃ g a, f.Took ms g ∧ x.Took ms a ∧ b = g a := by
  obtain ⟨first, h⟩ := h
  obtain ⟨g, a, hg, ha, hb⟩ := join_ok h
  exact ⟨g, a, ⟨_, hg⟩, ⟨_, ha⟩, hb⟩

theorem Took.map {g : α → β} {x : Fields α} {ms : Members} {b : β} (h : (g <$> x).Took ms b) :
    ∃ a, x.Took ms a ∧ b = g a := by
  obtain ⟨_, a, ⟨_, hg⟩, ha, hb⟩ := Took.seq (f := pure g) h
  cases hg
  exact ⟨a, ha, hb⟩

/-- A field was read from its member, or is absent. -/
theorem took_field {k : String} {d : Decode α} {inObject inList : Option α} {ms : Members} {a : α}
    (h : (field [k] d inObject inList).Took ms a) :
    (ms.lookup k = none ∧ inObject = some a) ∨ ∃ v, ms.lookup k = some v ∧ d v = .ok a := by
  obtain ⟨first, h⟩ := h
  rw [← head?_given k ms first]
  rcases read_field_iff.1 h with ⟨hg, ha⟩ | ⟨v, hg, hv⟩
  · rw [hg]
    exact .inl ⟨rfl, ha⟩
  · rw [hg]
    exact .inr ⟨v, rfl, hv⟩

/-- A field that a member was given for was read from that member. -/
theorem took_member {k : String} {d : Decode α} {inObject inList : Option α}
    {lead trail : Members} {v : Json} {a : α}
    (h : (field [k] d inObject inList).Took (lead ++ (k, v) :: trail) a) : d v = .ok a := by
  obtain ⟨first, h⟩ := h
  have hv : v ∈ (Record.named (lead ++ (k, v) :: trail)).given [k] first := by
    simp [Record.given]
  rcases read_field_iff.1 h with ⟨hg, -⟩ | ⟨w, hg, hw⟩
  · rw [hg] at hv
    cases hv
  · rw [hg] at hv
    rwa [List.mem_singleton.1 hv]

theorem took_required {k : String} {d : Decode α} {ms : Members} {a : α}
    (h : (required k d).Took ms a) : ∃ v, ms.lookup k = some v ∧ d v = .ok a := by
  rcases took_field h with ⟨-, hn⟩ | h
  · cases hn
  · exact h

theorem nullable_eq_none_iff {d : Decode α} {v : Json} : d.nullable v = .ok none ↔ v = .null := by
  have hn (x : Except Fault α) : x.map some ≠ .ok none := by
    cases x <;> exact fun h => by cases h
  constructor
  · intro h
    cases v with
    | null => rfl
    | bool | num | str | arr | obj => exact absurd h (hn _)
  · rintro rfl
    rfl

theorem nullable_eq_some_iff {d : Decode α} {v : Json} {a : α} :
    d.nullable v = .ok (some a) ↔ v ≠ .null ∧ d v = .ok a := by
  have hs (x : Except Fault α) : x.map some = .ok (some a) ↔ x = .ok a := by
    cases x <;> simp [Except.map]
  cases v with
  | null =>
    constructor
    · intro h
      cases h
    · intro h
      exact absurd rfl h.1
  | bool | num | str | arr | obj =>
    refine (hs _).trans ⟨fun h => ⟨?_, h⟩, And.right⟩
    exact nofun

theorem of_nullable {d : Decode α} {v : Json} {a : α} (h : d.nullable v = .ok (some a)) :
    d v = .ok a :=
  (nullable_eq_some_iff.1 h).2

/-- A field that may be absent was read as if its absence were `null`. -/
theorem took_optional {k : String} {d : Decode α} {inList : Option (Option α)} {ms : Members}
    {a : Option α} (h : (field [k] d.nullable (some none) inList).Took ms a) :
    d.nullable ((ms.lookup k).getD .null) = .ok a := by
  rcases took_field h with ⟨hl, hn⟩ | ⟨v, hl, hd⟩
  · cases hn
    rw [hl]
    rfl
  · rw [hl]
    exact hd

/-- What is written for a field that may be absent are its members, unless they are `null`. -/
theorem filter_took_optional {k : String} {d : Decode α} {enc : α → Json} {ms : Members}
    {a : Option α} (henc : ∀ v b, d v = .ok b → v = enc b) (h : (optional [k] d).Took ms a) :
    ms.filter (fun m => m.1 == k && !m.2.isNull) = Members.compact [(k, a.map enc)] := by
  obtain ⟨first, h⟩ := h
  have hms : ms.filter (fun m => m.1 == k && !m.2.isNull) =
      (ms.filter fun m => [k].contains m.1).filter fun m => !m.2.isNull := by
    rw [List.filter_filter]
    refine List.filter_congr fun m _ => ?_
    rw [Bool.and_comm, List.contains_cons, List.contains_nil, Bool.or_false]
  have hname : ∀ m ∈ ms.filter (fun m => [k].contains m.1), m.1 = k := fun m hm => by
    simpa using (List.mem_filter.1 hm).2
  rw [hms]
  rcases read_defaulted_iff.1 h with ⟨hg, rfl⟩ | ⟨v, hg, hv⟩
  · rw [List.map_eq_nil_iff.1 hg]
    rfl
  · obtain ⟨⟨l, _⟩, hm, rfl⟩ := List.map_eq_singleton_iff.1 hg
    obtain rfl : l = k := hname _ (hm ▸ List.mem_singleton_self _)
    rw [hm]
    cases a with
    | none =>
      cases nullable_eq_none_iff.1 hv
      rfl
    | some b =>
      obtain ⟨hnull, hb⟩ := nullable_eq_some_iff.1 hv
      cases henc _ b hb
      have hn : (enc b).isNull = false := by
        cases he : enc b with
        | null => exact absurd he hnull
        | bool | num | str | arr | obj => rfl
      simp [hn, Members.compact]

end Fields

/-! ## Records of several forms -/

namespace Decode

variable {α : Type} {tag : String} {form : String → Option (Decode α)}

theorem part_erase {names : List String} (h : tag ∉ names) (ms : Members) (place : Nat) :
    (Json.obj (ms.filter fun m => m.1 ≠ tag)).part names place =
      (Json.obj ms).part names (place + 1) := by
  simp only [part, List.find?_filter]
  congr 2
  funext m
  by_cases hm : m.1 = tag
  · simp [hm, h]
  · simp [hm]

/-- A value that is accepted has a form, and its other fields come behind its tag. -/
theorem ok_of_tagged {v : Json} {a : α} (h : Decode.tagged tag form v = .ok a) :
    ∃ name d rest, form name = some d ∧ d rest = .ok a ∧
      ∀ names place, tag ∉ names → rest.part names place = v.part names (place + 1) := by
  unfold Decode.tagged at h
  dsimp only at h
  split at h
  · rename_i ms
    split at h
    · split at h
      · split at h
        · rename_i d hd
          exact ⟨_, d, _, hd, h, fun names place hn => part_erase hn ms place⟩
        · cases h
      · cases h
    · cases h
  · split at h
    · split at h
      · rename_i d hd
        exact ⟨_, d, _, hd, h, fun names place _ => rfl⟩
      · cases h
    · cases h
  · cases h
  · cases h

/-- An object that starts with its tag is read by the form of the tag. -/
theorem tagged_cons {name : String} {d : Decode α} {ms : Members} (hform : form name = some d)
    (hn : tag ∉ ms.map Prod.fst) :
    Decode.tagged tag form (.obj ((tag, .str name) :: ms)) = d (.obj ms) := by
  have hget : Members.get? ((tag, .str name) :: ms) tag = some (.str name) := List.lookup_cons_self
  have hrest : ((tag, .str name) :: ms).filter (fun m => m.1 ≠ tag) = ms := by
    rw [List.filter_cons_of_neg (by simp), List.filter_eq_self.2]
    intro m hm
    have hne : m.1 ≠ tag := fun he => hn (he ▸ List.mem_map_of_mem hm)
    simpa using hne
  simp only [Decode.tagged, hget, hrest, hform]

end Decode

/-! ## Lists -/

namespace Decode

variable {α : Type}

/-- Items are read one by one, and all of them are. -/
theorem mapM_eq_ok_iff {β ε : Type} {f : α → Except ε β} {as : List α} {bs : List β} :
    as.mapM f = .ok bs ↔ List.Forall₂ (fun a b => f a = .ok b) as bs := by
  induction as generalizing bs with
  | nil =>
    constructor
    · rintro ⟨⟩
      exact .nil
    · rintro ⟨⟩
      rfl
  | cons a as ih =>
    rw [List.mapM_cons]
    constructor
    · intro h
      cases ha : f a with
      | error e =>
        rw [ha] at h
        cases h
      | ok b =>
        cases has : as.mapM f with
        | error e =>
          rw [ha, has] at h
          cases h
        | ok bs =>
          rw [ha, has] at h
          cases h
          exact .cons ha (ih.1 has)
    · rintro (_ | ⟨hb, hbs⟩)
      rw [hb, ih.2 hbs]
      rfl

/-- A list whose items are read back is read back. -/
theorem list_map {d : Decode α} {enc : α → Json} (h : ∀ a, d (enc a) = .ok a) (as : List α) :
    Decode.list d (.arr (as.map enc)) = .ok as := by
  refine mapM_eq_ok_iff.2 (List.forall₂_map_left_iff.2 (List.forall₂_same.2 fun a _ => h a))

theorem string_eq_ok_iff {v : Json} {s : String} : string v = .ok s ↔ v = .str s := by
  constructor
  · intro h
    cases v with
    | str =>
      cases h
      rfl
    | null | bool | num | arr | obj => cases h
  · rintro rfl
    rfl

/-- A list of texts is read from the texts that it holds. -/
theorem eq_of_list_string {v : Json} {names : List String} (h : Decode.list string v = .ok names) :
    v = .arr (names.map .str) := by
  cases v with
  | arr vs =>
    have hvs : List.Forall₂ (fun v name => string v = .ok name) vs names := mapM_eq_ok_iff.1 h
    simp only [string_eq_ok_iff, ← List.forall₂_map_right_iff, List.forall₂_eq_eq_eq] at hvs
    rw [hvs]
  | null | bool | num | str | obj => cases h

/-- The members of an object are read one by one, and keep their names. -/
theorem dictionary_eq_ok_iff {d : Decode α} {ms : Members} {es : List (String × α)} :
    dictionary d (.obj ms) = .ok es ↔
      List.Forall₂ (fun m e => m.1 = e.1 ∧ d m.2 = .ok e.2) ms es := by
  have hone (m : String × Json) (e : String × α) :
      (d m.2).map (m.1, ·) = .ok e ↔ m.1 = e.1 ∧ d m.2 = .ok e.2 := by
    obtain ⟨k, a⟩ := e
    cases d m.2 <;> simp [Except.map]
  have hall : dictionary d (.obj ms) = ms.mapM fun m => (d m.2).map (m.1, ·) := rfl
  simp only [hall, mapM_eq_ok_iff, hone]

/-- An object whose members are read back is read back. -/
theorem dictionary_map {d : Decode α} {enc : α → Json} {es : List (String × α)}
    (h : ∀ e ∈ es, d (enc e.2) = .ok e.2) :
    dictionary d (.obj (es.map fun e => (e.1, enc e.2))) = .ok es :=
  dictionary_eq_ok_iff.2 (List.forall₂_map_left_iff.2 (List.forall₂_same.2 fun e he => ⟨rfl, h e he⟩))

end Decode

end Parley.Json
