/-
Which values a reader takes, and which of them it does not tell apart. In an object whose names are
distinct, a field of a record is read from the member of its name, wherever that stands. So two
objects are read as the same if they hold the fields of the record alike; the order of the members
does not matter, nor what other members there are (`SameRecord`).
-/
import Parley.Proofs.Json.Record
import Mathlib.Data.Option.Basic

namespace Parley.Json

/-- The value of a member. A member that is absent counts as `null`. -/
def Members.value (ms : Members) (k : String) : Json := (ms.lookup k).getD .null

/-- Under distinct names the member of a name is the one that is found. -/
theorem lookup_eq_some_iff_mem {α : Type} {es : List (String × α)}
    (hn : (es.map Prod.fst).Nodup) {k : String} {a : α} :
    es.lookup k = some a ↔ (k, a) ∈ es := by
  induction es with
  | nil => simp
  | cons e es ih =>
    obtain ⟨l, b⟩ := e
    obtain ⟨hl, hn⟩ := List.nodup_cons.1 hn
    rw [List.lookup_cons]
    by_cases hk : k = l
    · subst hk
      have hno : (k, a) ∉ es := fun hm => hl (List.mem_map.2 ⟨_, hm, rfl⟩)
      simp [hno, eq_comm]
    · simp [beq_false_of_ne hk, hk, ih hn]

/-! ## Values that are taken -/

namespace Decode

variable {α : Type} {d : Decode α} {v : Json}

/-- A reader takes a value. -/
def Admits (d : Decode α) (v : Json) : Prop := ∃ a, d v = .ok a

theorem admits_string_iff : Admits string v ↔ ∃ s, v = .str s := by
  simp only [Admits, string_eq_ok_iff]

theorem admits_bool_iff : Admits bool v ↔ ∃ b, v = .bool b := by
  constructor
  · rintro ⟨b, h⟩
    cases v with
    | bool b => exact ⟨b, rfl⟩
    | null | num | str | arr | obj => cases h
  · rintro ⟨b, rfl⟩
    exact ⟨b, rfl⟩

theorem admits_nullable_iff : Admits d.nullable v ↔ v = .null ∨ Admits d v := by
  constructor
  · rintro ⟨_ | a, h⟩
    · exact .inl (Fields.nullable_eq_none_iff.1 h)
    · exact .inr ⟨a, Fields.of_nullable h⟩
  · rintro (rfl | ⟨a, h⟩)
    · exact ⟨none, rfl⟩
    · by_cases hv : v = .null
      · exact ⟨none, Fields.nullable_eq_none_iff.2 hv⟩
      · exact ⟨some a, Fields.nullable_eq_some_iff.2 ⟨hv, h⟩⟩

theorem nullable_none_iff {a : Option α} (h : d.nullable v = .ok a) : a = none ↔ v = .null := by
  rw [← Fields.nullable_eq_none_iff (d := d), h, Except.ok.injEq]

/-- A name is read as what it stands for, if the spelling as an object is left aside. -/
theorem choice_eq_ok_iff {place : Place} {names : List (String × α)}
    (hn : (names.map Prod.fst).Nodup) (hv : ∀ m, v ≠ .obj [m]) {a : α} :
    choice place names v = .ok a ↔ ∃ name, v = .str name ∧ (name, a) ∈ names := by
  cases v with
  | str s =>
    have hs : choice place names (.str s) = .ok a ↔ names.lookup s = some a := by
      simp only [choice]
      cases names.lookup s <;> simp
    rw [hs, lookup_eq_some_iff_mem hn]
    simp
  | obj ms =>
    rcases ms with _ | ⟨m, _ | ⟨n, ms⟩⟩
    · simp [choice]
    · exact absurd rfl (hv m)
    · simp [choice]
  | null | bool | num | arr => simp [choice]

theorem exists_forall₂_iff {β γ : Type} {R : β → γ → Prop} {bs : List β} :
    (∃ cs, List.Forall₂ R bs cs) ↔ ∀ b ∈ bs, ∃ c, R b c := by
  induction bs with
  | nil => simp
  | cons b bs ih =>
    rw [List.forall_mem_cons, ← ih]
    constructor
    · rintro ⟨_, _ | ⟨hb, hbs⟩⟩
      exact ⟨⟨_, hb⟩, _, hbs⟩
    · rintro ⟨⟨c, hb⟩, cs, hbs⟩
      exact ⟨c :: cs, .cons hb hbs⟩

theorem admits_list_iff : Admits (list d) v ↔ ∃ vs, v = .arr vs ∧ ∀ u ∈ vs, Admits d u := by
  constructor
  · rintro ⟨as, h⟩
    cases v with
    | arr vs => exact ⟨vs, rfl, exists_forall₂_iff.1 ⟨as, mapM_eq_ok_iff.1 h⟩⟩
    | null | bool | num | str | obj => cases h
  · rintro ⟨vs, rfl, h⟩
    obtain ⟨as, has⟩ := exists_forall₂_iff.2 h
    exact ⟨as, mapM_eq_ok_iff.2 has⟩

end Decode

/-! ## Fields of an object -/

namespace Fields

variable {α β : Type} {ms ns : Members}

/-- A field gives what its reader makes of the member of its name, or the meaning of its absence. -/
theorem gives_of_nodup (hn : (ms.map Prod.fst).Nodup) {k : String} {d : Decode α}
    {inObject inList : Option α} {a : α} (h : (ms.lookup k = none ∧ inObject = some a) ∨
      ∃ v, ms.lookup k = some v ∧ d v = .ok a) :
    (field [k] d inObject inList).Gives (.named ms) a := by
  intro first
  rw [read_field_iff, given_of_nodup hn]
  rcases h with ⟨hl, ha⟩ | ⟨v, hl, hv⟩
  · rw [hl]
    exact .inl ⟨rfl, ha⟩
  · rw [hl]
    exact .inr ⟨v, rfl, hv⟩

theorem gives_of_member (hn : (ms.map Prod.fst).Nodup) {k : String} {d : Decode α}
    {inObject inList : Option α} {v : Json} {a : α} (hl : ms.lookup k = some v)
    (hv : d v = .ok a) : (field [k] d inObject inList).Gives (.named ms) a :=
  gives_of_nodup hn (.inr ⟨v, hl, hv⟩)

/-- A field that may be absent gives what its reader makes of the value, `null` for none. -/
theorem gives_of_value (hn : (ms.map Prod.fst).Nodup) {k : String} {d : Decode α}
    {inList : Option (Option α)} {a : Option α} (h : d.nullable (ms.value k) = .ok a) :
    (field [k] d.nullable (some none) inList).Gives (.named ms) a := by
  refine gives_of_nodup hn ?_
  unfold Members.value at h
  cases hl : ms.lookup k with
  | none =>
    rw [hl] at h
    exact .inl ⟨rfl, congrArg some (Except.ok.inj h)⟩
  | some v =>
    rw [hl] at h
    exact .inr ⟨v, rfl, h⟩

/-- Some fields can be read from an object on a condition, and then wherever they stand among the
fields of a record. -/
structure ReadWhen (fs : Fields α) (ms : Members) (P : Prop) : Prop where
  took : ∀ a, fs.Took ms a → P
  gives : P → ∃ a, fs.Gives (.named ms) a

theorem readWhen_required (hn : (ms.map Prod.fst).Nodup) (k : String) (d : Decode α) :
    (required k d).ReadWhen ms (∃ v, ms.lookup k = some v ∧ Decode.Admits d v) where
  took a h := by
    obtain ⟨v, hl, hv⟩ := took_required h
    exact ⟨v, hl, a, hv⟩
  gives := by
    rintro ⟨v, hl, a, hv⟩
    exact ⟨a, gives_of_member hn hl hv⟩

theorem readWhen_defaulted (hn : (ms.map Prod.fst).Nodup) (k : String) (d : Decode α)
    (default : α) : (defaulted [k] d default).ReadWhen ms
      (∀ v, ms.lookup k = some v → Decode.Admits d v) where
  took a h v hv := by
    rcases took_field h with ⟨hl, -⟩ | ⟨u, hl, hu⟩
    · cases hl ▸ hv
    · cases hl ▸ hv
      exact ⟨a, hu⟩
  gives h := by
    cases hl : ms.lookup k with
    | none => exact ⟨default, gives_of_nodup hn (.inl ⟨hl, rfl⟩)⟩
    | some v =>
      obtain ⟨a, ha⟩ := h v hl
      exact ⟨a, gives_of_member hn hl ha⟩

theorem ReadWhen.seq {f : Fields (α → β)} {x : Fields α} {P Q : Prop} (hf : f.ReadWhen ms P)
    (hx : x.ReadWhen ms Q) : (f <*> x).ReadWhen ms (P ∧ Q) where
  took b hb := by
    obtain ⟨g, a, hg, ha, -⟩ := hb.seq
    exact ⟨hf.took g hg, hx.took a ha⟩
  gives h := by
    obtain ⟨g, hg⟩ := hf.gives h.1
    obtain ⟨a, ha⟩ := hx.gives h.2
    exact ⟨g a, hg.seq ha⟩

theorem ReadWhen.map {x : Fields α} {P : Prop} (g : α → β) (hx : x.ReadWhen ms P) :
    (g <$> x).ReadWhen ms P where
  took b hb := by
    obtain ⟨a, ha, -⟩ := hb.map
    exact hx.took a ha
  gives h := by
    obtain ⟨a, ha⟩ := hx.gives h
    exact ⟨g a, ha.map g⟩

theorem ReadWhen.admits_iff {fs : Fields α} {P : Prop} (h : fs.ReadWhen ms P) :
    Decode.Admits fs.decode (.obj ms) ↔ P := by
  constructor
  · rintro ⟨a, ha⟩
    exact h.took a (took_of_decode ha)
  · intro hP
    obtain ⟨a, ha⟩ := h.gives hP
    exact ⟨a, ha.decode⟩

/-! ## Objects that are not told apart -/

/-- What some fields take from one object they give of the other, too. -/
def Carried (fs : Fields α) (ms ns : Members) : Prop :=
  ∀ a, fs.Took ms a → fs.Gives (.named ns) a

theorem Carried.seq {f : Fields (α → β)} {x : Fields α} (hf : f.Carried ms ns)
    (hx : x.Carried ms ns) : (f <*> x).Carried ms ns := by
  rintro b hb
  obtain ⟨g, a, hg, ha, rfl⟩ := hb.seq
  exact (hf g hg).seq (hx a ha)

theorem Carried.map {x : Fields α} (g : α → β) (hx : x.Carried ms ns) :
    (g <$> x).Carried ms ns := by
  rintro b hb
  obtain ⟨a, ha, rfl⟩ := hb.map
  exact (hx a ha).map g

end Fields

/-- A reader makes the same of values that are related. -/
def Decode.Keeps {α : Type} (d : Decode α) (R : Json → Json → Prop) : Prop :=
  ∀ v w, R v w → ∀ a, d v = .ok a → d w = .ok a

/-- Two lists that hold related items in the same places. -/
def SameItems (R : Json → Json → Prop) (v w : Json) : Prop :=
  v = w ∨ ∃ vs ws, v = .arr vs ∧ w = .arr ws ∧ List.Forall₂ R vs ws

/-- Two objects that hold the given fields alike, in whatever order and whatever else they hold.
Each field comes with what its own values may differ in. -/
structure SameMembers (fields : List (String × (Json → Json → Prop))) (ms ns : Members) :
    Prop where
  left : (ms.map Prod.fst).Nodup
  right : (ns.map Prod.fst).Nodup
  fields : ∀ f ∈ fields, Option.Rel f.2 (ms.lookup f.1) (ns.lookup f.1)

/-- Two values that are the same if they are not two objects that hold the given fields alike. -/
def SameRecord (fields : List (String × (Json → Json → Prop))) (v w : Json) : Prop :=
  v = w ∨ ∃ ms ns, v = .obj ms ∧ w = .obj ns ∧ SameMembers fields ms ns

section Same

variable {R : Json → Json → Prop} {fields : List (String × (Json → Json → Prop))}
  {ms ns : Members}

theorem SameMembers.symm (hsymm : ∀ f ∈ fields, ∀ v w, f.2 v w → f.2 w v)
    (h : SameMembers fields ms ns) : SameMembers fields ns ms where
  left := h.right
  right := h.left
  fields f hf := by
    have hrel := h.fields f hf
    generalize ms.lookup f.1 = v at hrel ⊢
    generalize ns.lookup f.1 = w at hrel ⊢
    cases hrel with
    | some hvw => exact .some (hsymm f hf _ _ hvw)
    | none => exact .none

theorem SameRecord.symm (hsymm : ∀ f ∈ fields, ∀ v w, f.2 v w → f.2 w v) (v w : Json)
    (h : SameRecord fields v w) : SameRecord fields w v := by
  rcases h with rfl | ⟨ms, ns, rfl, rfl, h⟩
  · exact .inl rfl
  · exact .inr ⟨ns, ms, rfl, rfl, h.symm hsymm⟩

theorem SameItems.symm (hsymm : ∀ v w, R v w → R w v) (v w : Json) (h : SameItems R v w) :
    SameItems R w v := by
  rcases h with rfl | ⟨vs, ws, rfl, rfl, h⟩
  · exact .inl rfl
  · exact .inr ⟨ws, vs, rfl, rfl, (h.imp hsymm).flip⟩

/-- Objects with the same members among those of the given names, in whatever order, hold the
fields alike. -/
theorem sameMembers_of_perm (hms : (ms.map Prod.fst).Nodup) (hns : (ns.map Prod.fst).Nodup)
    (hrefl : ∀ f ∈ fields, ∀ v, f.2 v v) (known : String → Bool)
    (hknown : ∀ f ∈ fields, known f.1 = true)
    (hp : (ms.filter fun m => known m.1).Perm (ns.filter fun m => known m.1)) :
    SameMembers fields ms ns where
  left := hms
  right := hns
  fields f hf := by
    have hmem (v : Json) : (f.1, v) ∈ ms ↔ (f.1, v) ∈ ns := by
      simpa [hknown f hf] using hp.mem_iff (a := (f.1, v))
    have hlookup : ms.lookup f.1 = ns.lookup f.1 := Option.ext fun v => by
      rw [lookup_eq_some_iff_mem hms, lookup_eq_some_iff_mem hns, hmem]
    rw [hlookup]
    cases ns.lookup f.1 with
    | none => exact .none
    | some v => exact .some (hrefl f hf v)

namespace Decode

variable {α : Type} {d : Decode α}

theorem keeps_eq (d : Decode α) : d.Keeps Eq := by
  rintro v w rfl a h
  exact h

theorem Keeps.list (h : d.Keeps R) : (list d).Keeps (SameItems R) := by
  rintro v w (rfl | ⟨vs, ws, rfl, rfl, hvw⟩) as has
  · exact has
  · have hread : List.Forall₂ (fun v a => d v = .ok a) vs as := mapM_eq_ok_iff.1 has
    refine mapM_eq_ok_iff.2 ?_
    clear has
    induction hvw generalizing as with
    | nil => exact hread
    | cons hvw _ ih =>
      cases hread with
      | cons ha has => exact .cons (h _ _ hvw _ ha) (ih _ has)

theorem Keeps.nullable (h : d.Keeps (SameItems R)) : d.nullable.Keeps (SameItems R) := by
  rintro v w (rfl | ⟨vs, ws, rfl, rfl, hvw⟩) a ha
  · exact ha
  · cases a with
    | none => cases Fields.nullable_eq_none_iff.1 ha
    | some a =>
      have hd := h _ _ (.inr ⟨vs, ws, rfl, rfl, hvw⟩) a (Fields.of_nullable ha)
      exact Fields.nullable_eq_some_iff.2 ⟨nofun, hd⟩

/-- A record is kept when its fields are. -/
theorem keeps_record {fs : Fields α}
    (h : ∀ ms ns, SameMembers fields ms ns → fs.Carried ms ns) :
    fs.decode.Keeps (SameRecord fields) := by
  rintro v w (rfl | ⟨ms, ns, rfl, rfl, hsame⟩) a ha
  · exact ha
  · exact (h ms ns hsame a (Fields.took_of_decode ha)).decode

end Decode

/-- A field is carried over when its reader makes the same of the values that it may differ in. -/
theorem SameMembers.field (h : SameMembers fields ms ns) {k : String} (hf : (k, R) ∈ fields)
    {α : Type} {d : Decode α} (hd : d.Keeps R) (inObject inList : Option α) :
    (Fields.field [k] d inObject inList).Carried ms ns := by
  intro a ha
  have hrel : Option.Rel R (ms.lookup k) (ns.lookup k) := h.fields (k, R) hf
  refine Fields.gives_of_nodup h.right ?_
  rcases Fields.took_field ha with ⟨hl, hnone⟩ | ⟨v, hl, hv⟩
  · rw [hl] at hrel
    cases hn : ns.lookup k with
    | none => exact .inl ⟨rfl, hnone⟩
    | some w =>
      rw [hn] at hrel
      cases hrel
  · rw [hl] at hrel
    cases hn : ns.lookup k with
    | none =>
      rw [hn] at hrel
      cases hrel
    | some w =>
      rw [hn] at hrel
      cases hrel with
      | some hvw => exact .inr ⟨w, rfl, hd v w hvw a hv⟩

end Same

end Parley.Json
