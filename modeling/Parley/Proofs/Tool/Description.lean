/-
Descriptions of tools, read and written again. What was read is written under the proper names of
its fields, and is read back from there (`Description.decode_toJson`). The model sees the parameters
as they were declared, in the same order and with the same members (`Description.shows_of_decode`).

The schema of a parameter keeps members that it does not know. They stay apart from the two that it
does know (`Property.Sound`), and so no member is written twice or taken for another.
-/
import Parley.Proofs.Json.Renaming
import Parley.Tool.Description

namespace Parley.Tool

open Json Fields

/-! ## One parameter -/

namespace Property

variable {p : Property} {v : Json}

/-- What is known of the schema of a parameter once it was read. -/
structure Sound (p : Property) : Prop where
  kind : p.kind ≠ some .null
  extra : ∀ m ∈ p.extra, m.1 ≠ "type" ∧ m.1 ≠ "description"

/-- Whether a member says no more than its absence does. -/
def isIdle (m : String × Json) : Bool :=
  m.2.isNull && (m.1 == "type" || m.1 == "description")

/-- Two schemas have the same members, up to their order and to idle ones. -/
def Same (given shown : Json) : Prop :=
  ∃ ms ns, given = .obj ms ∧ shown = .obj ns ∧ ns.Perm (ms.filter fun m => !isIdle m)

theorem eq_of_decode (h : decode v = .ok p) :
    ∃ ms, v = .obj ms ∧ (optional ["type"] Decode.any).Took ms p.kind ∧
      (optional ["description"] Decode.string).Took ms p.description ∧
      p.extra = ms.filter fun m => m.1 ≠ "type" && m.1 ≠ "description" := by
  unfold decode at h
  dsimp only at h
  split at h
  · rename_i kind description ms hd
    cases h
    obtain ⟨_, _, hk, hd, he⟩ := (took_of_decode hd).seq
    obtain ⟨_, hk', rfl⟩ := hk.map
    cases he
    exact ⟨ms, rfl, hk', hd, rfl⟩
  · cases h
  · cases h

theorem sound_of_decode (h : decode v = .ok p) : p.Sound := by
  obtain ⟨ms, rfl, hk, -, he⟩ := eq_of_decode h
  constructor
  · intro hn
    rw [hn] at hk
    obtain ⟨hnull, hv⟩ := nullable_eq_some_iff.1 (took_optional hk)
    exact hnull (Except.ok.inj hv)
  · intro m hm
    rw [he] at hm
    simpa using (List.mem_filter.1 hm).2

/-- The members that the schema knows, those that are left out included. -/
def known (p : Property) : List (String × Option Json) :=
  [("type", p.kind), ("description", p.description.map .str)]

theorem nodup_known (p : Property) : (p.known.map Prod.fst).Nodup := by
  show ["type", "description"].Nodup
  decide

theorem mem_known {m : String × Json} (hm : m ∈ Members.compact p.known) :
    m.1 = "type" ∨ m.1 = "description" := by
  have hk : m.1 ∈ ["type", "description"] :=
    (Members.names_compact_sublist p.known).mem (List.mem_map_of_mem hm)
  simpa using hk

theorem decode_toJson (h : p.Sound) : decode p.toJson = .ok p := by
  have hkind : (optional ["type"] Decode.any).Gives (.named (Members.compact p.known)) p.kind := by
    have hl : p.known.lookup "type" = some (p.kind.map id) := by simp [known]
    refine gives_optional_alias p.nodup_known nofun hl fun b hb => ?_
    exact nullable_eq_some_iff.2 ⟨fun hn => h.kind (hn ▸ hb), rfl⟩
  have hdescription : (optional ["description"] Decode.string).Gives
      (.named (Members.compact p.known)) p.description :=
    gives_optional p.nodup_known rfl fun _ => rfl
  -- the other members come behind, and have neither of the two names
  have htypes : ∀ m ∈ p.extra, m.1 ∉ ["type"] := fun m hm => by simpa using (h.extra m hm).1
  have hdescriptions : ∀ m ∈ p.extra, m.1 ∉ ["description"] := fun m hm => by
    simpa using (h.extra m hm).2
  have hread : Fields.decodeObject (Prod.mk <$> optional ["type"] Decode.any
      <*> optional ["description"] Decode.string) (.obj (Members.compact p.known ++ p.extra)) =
      .ok (p.kind, p.description) :=
    Gives.decode (((gives_append hkind htypes).map Prod.mk).seq
      (gives_append hdescription hdescriptions))
  have hfilter : (Members.compact p.known ++ p.extra).filter
      (fun m => m.1 ≠ "type" && m.1 ≠ "description") = p.extra := by
    rw [List.filter_append, List.filter_eq_nil_iff.2, List.nil_append, List.filter_eq_self.2]
    · intro m hm
      simpa using h.extra m hm
    · intro m hm
      rcases mem_known hm with hm | hm <;> simp [hm]
  have hjson : p.toJson = .obj (Members.compact p.known ++ p.extra) := rfl
  simp only [decode, hjson, hread, hfilter]

theorem kept_perm (ms : Members) :
    (ms.filter (fun m => m.1 == "type" && !m.2.isNull) ++
      (ms.filter (fun m => m.1 == "description" && !m.2.isNull) ++
        ms.filter fun m => m.1 ≠ "type" && m.1 ≠ "description")).Perm
      (ms.filter fun m => !isIdle m) := by
  have htype := List.filter_append_perm (fun m => m.1 == "type") (ms.filter fun m => !isIdle m)
  have hdescription := List.filter_append_perm (fun m => m.1 == "description")
    ((ms.filter fun m => !isIdle m).filter fun m => !(m.1 == "type"))
  refine List.Perm.trans ?_ ((hdescription.append_left _).trans htype)
  -- the parts are the same, each found by one filter
  simp only [List.filter_filter]
  have h₁ : ∀ m ∈ ms, (m.1 == "type" && !m.2.isNull) = (m.1 == "type" && !isIdle m) := by
    intro m _
    by_cases hm : m.1 = "type"
    · simp [isIdle, hm]
    · simp [beq_false_of_ne hm]
  have h₂ : ∀ m ∈ ms, (m.1 == "description" && !m.2.isNull) =
      (m.1 == "description" && (!(m.1 == "type") && !isIdle m)) := by
    intro m _
    by_cases hm : m.1 = "description"
    · simp [isIdle, hm]
    · simp [beq_false_of_ne hm]
  have h₃ : ∀ m ∈ ms, (decide (m.1 ≠ "type") && decide (m.1 ≠ "description")) =
      (!(m.1 == "description") && (!(m.1 == "type") && !isIdle m)) := by
    intro m _
    by_cases ht : m.1 = "type" <;> by_cases hd : m.1 = "description" <;> simp [isIdle, ht, hd]
  rw [List.filter_congr h₁, List.filter_congr h₂, List.filter_congr h₃]

/-- What is written has the members of what was read. -/
theorem same_of_decode (h : decode v = .ok p) : Same v p.toJson := by
  obtain ⟨ms, rfl, hk, hd, he⟩ := eq_of_decode h
  refine ⟨ms, _, rfl, rfl, ?_⟩
  have hk' : ms.filter (fun m => m.1 == "type" && !m.2.isNull) =
      Members.compact [("type", p.kind.map id)] :=
    filter_took_optional (fun v b hv => Except.ok.inj hv) hk
  have hd' : ms.filter (fun m => m.1 == "description" && !m.2.isNull) =
      Members.compact [("description", p.description.map .str)] :=
    filter_took_optional (fun v b hv => Decode.string_eq_ok_iff.1 hv) hd
  have hperm := kept_perm ms
  rw [hk', hd', ← he, Option.map_id_apply, ← List.append_assoc] at hperm
  unfold Members.compact at hperm ⊢
  rwa [← List.filterMap_append] at hperm

end Property

/-! ## All parameters -/

namespace Parameters

variable {place : Decode.Place} {p : Parameters} {v : Json}

/-- The properties that the parameters of a tool are given with. -/
def declared (v : Json) : Members :=
  match v.part ["properties"] 1 with
  | some (.obj ms) => ms
  | _ => []

/-- The names of the parameters that a call has to give, as they are given. -/
def demanded (v : Json) : List Json :=
  match v.part ["required"] 2 with
  | some (.arr vs) => vs
  | _ => []

/-- Parameters are shown with the properties that they were given with, and the same demands. -/
structure Shows (v shown : Json) : Prop where
  properties : ∃ ps, shown.get? "properties" = some (.obj ps) ∧
    List.Forall₂ (fun m n => m.1 = n.1 ∧ Property.Same m.2 n.2) (declared v) ps
  required : shown.get? "required" = some (.arr (demanded v))

theorem eq_of_decode (h : decodeAt place v = .ok p) :
    List.Forall₂ (fun m e => m.1 = e.1 ∧ Property.decode m.2 = .ok e.2) (declared v) p.properties ∧
      demanded v = p.required.map .str := by
  obtain ⟨r, h₃, hpart⟩ := read_of_decode h
  obtain ⟨_, required, h₂, hrequired, rfl⟩ := read_seq h₃
  obtain ⟨_, properties, h₁, hproperties, rfl⟩ := read_seq h₂
  obtain ⟨_, -, rfl⟩ := read_map h₁
  unfold declared demanded
  rw [hpart, hpart]
  constructor
  · rcases read_defaulted_iff.1 hproperties with ⟨hg, rfl⟩ | ⟨v, hg, hv⟩
    · change r.given ["properties"] 1 = [] at hg
      rw [hg]
      exact .nil
    · change r.given ["properties"] 1 = [v] at hg
      rw [hg]
      cases v with
      | obj ms => exact Decode.dictionary_eq_ok_iff.1 hv
      | null | bool | num | str | arr => cases hv
  · rcases read_defaulted_iff.1 hrequired with ⟨hg, rfl⟩ | ⟨v, hg, hv⟩
    · change r.given ["required"] 2 = [] at hg
      rw [hg]
      rfl
    · change r.given ["required"] 2 = [v] at hg
      rw [hg, Decode.eq_of_list_string hv]
      rfl

theorem sound_of_decode (h : decodeAt place v = .ok p) : ∀ e ∈ p.properties, e.2.Sound := by
  intro e he
  obtain ⟨i, hi, rfl⟩ := List.mem_iff_getElem.1 he
  obtain ⟨hlen, hall⟩ := List.forall₂_iff_get.1 (eq_of_decode h).1
  exact Property.sound_of_decode (hall i (hlen ▸ hi) hi).2

def members (p : Parameters) : List (String × Option Json) :=
  [("type", some (.str "object")),
    ("properties", some (.obj (p.properties.map fun e => (e.1, e.2.toJson)))),
    ("required", some (.arr (p.required.map .str)))]

theorem nodup_members (p : Parameters) : (p.members.map Prod.fst).Nodup := by
  show ["type", "properties", "required"].Nodup
  decide

theorem decode_toJson (place : Decode.Place) (h : ∀ e ∈ p.properties, e.2.Sound) :
    decodeAt place p.toJson = .ok p := by
  have hn := p.nodup_members
  have htext (name : String) : Decode.string (.str name) = .ok name := rfl
  refine Gives.decode (?_ : Gives _ (.named (Members.compact p.members)) p)
  refine Gives.seq (Gives.seq (Gives.map _ (?type : Gives _ _ ())) ?properties) ?required
  case type => exact gives_written hn nofun rfl rfl
  case properties =>
    refine gives_written hn nofun rfl (Decode.dictionary_map fun e he => ?_)
    exact Property.decode_toJson (h e he)
  case required => exact gives_written hn nofun rfl (Decode.list_map htext _)

theorem shows_of_decode (h : decodeAt place v = .ok p) : Shows v p.toJson := by
  obtain ⟨hproperties, hrequired⟩ := eq_of_decode h
  constructor
  · refine ⟨_, rfl, List.forall₂_map_right_iff.2 ?_⟩
    exact hproperties.imp fun m e he => ⟨he.1, Property.same_of_decode he.2⟩
  · rw [hrequired]
    rfl

end Parameters

/-! ## Descriptions -/

namespace Description

variable {place : Decode.Place} {d : Description} {v : Json}

def aliases : List (String × String) := [("return_type", "return")]

/-- A description in JSON with the proper names of its fields and of those of its parameters. -/
def Proper (v : Json) : Prop :=
  HasNames ["name", "description", "parameters", "return"] v ∧
    ∃ p, v.get? "parameters" = some p ∧ HasNames ["type", "properties", "required"] p

/-- The entry of a tool shows the parameters that its description was given with. -/
structure Shows (v entry : Json) : Prop where
  kind : entry.get? "type" = some (.str "function")
  parameters : ∃ f p, entry.get? "function" = some f ∧ f.get? "parameters" = some p ∧
    Parameters.Shows ((v.part ["parameters"] 2).getD .null) p

structure Sound (d : Description) : Prop where
  properties : ∀ e ∈ d.parameters.properties, e.2.Sound
  returns : d.returns ≠ some .null

/-- It does not matter which of its names a field goes by. -/
theorem decode_properNames (place : Decode.Place) (v : Json) :
    decodeAt place (properNames aliases v) = decodeAt place v := by
  cases v with
  | obj ms =>
    refine Fields.Alike.decode (Alike.seq (Alike.seq (Alike.seq (Alike.map _ ?_) ?_) ?_) ?_)
    all_goals exact alike_field (fun m => contains_properName (by decide) m.1) fun m _ => rfl
  | null | bool | num | str | arr => rfl

theorem parameters_of_decode (h : decodeAt place v = .ok d) :
    d.returns ≠ some .null ∧
      ((v.part ["parameters"] 2 = none ∧ d.parameters = .none) ∨
        ∃ u, v.part ["parameters"] 2 = some u ∧
          Parameters.decodeAt place u = .ok d.parameters) := by
  obtain ⟨r, h₄, hpart⟩ := read_of_decode h
  obtain ⟨_, returns, h₃, hreturns, rfl⟩ := read_seq h₄
  obtain ⟨_, parameters, h₂, hparameters, rfl⟩ := read_seq h₃
  obtain ⟨_, _, h₁, -, rfl⟩ := read_seq h₂
  obtain ⟨_, -, rfl⟩ := read_map h₁
  rw [hpart]
  constructor
  · rintro rfl
    rcases read_defaulted_iff.1 hreturns with ⟨-, hn⟩ | ⟨u, -, hu⟩
    · cases hn
    · obtain ⟨hnull, he⟩ := nullable_eq_some_iff.1 hu
      exact hnull (Except.ok.inj he)
  · rcases read_defaulted_iff.1 hparameters with ⟨hg, rfl⟩ | ⟨u, hg, hu⟩
    · change r.given ["parameters"] 2 = [] at hg
      rw [hg]
      exact .inl ⟨rfl, rfl⟩
    · change r.given ["parameters"] 2 = [u] at hg
      rw [hg]
      exact .inr ⟨u, rfl, hu⟩

theorem sound_of_decode (h : decodeAt place v = .ok d) : d.Sound := by
  obtain ⟨hreturns, ⟨-, hp⟩ | ⟨u, -, hp⟩⟩ := parameters_of_decode h
  · refine ⟨?_, hreturns⟩
    rw [hp]
    exact nofun
  · exact ⟨Parameters.sound_of_decode hp, hreturns⟩

def members (d : Description) : List (String × Option Json) :=
  [("name", some (.str d.name)), ("description", some (.str d.description)),
    ("parameters", some d.parameters.toJson), ("return", d.returns)]

theorem nodup_members (d : Description) : (d.members.map Prod.fst).Nodup := by
  show ["name", "description", "parameters", "return"].Nodup
  decide

/-- A description that was read is read back as it was, wherever it stands. -/
theorem decode_toJson (place : Decode.Place) (h : d.Sound) :
    decodeAt place d.toJson = .ok d := by
  have hn := d.nodup_members
  refine Gives.decode (?_ : Gives _ (.named (Members.compact d.members)) d)
  refine Gives.seq (Gives.seq (Gives.seq (Gives.map Description.mk ?name) ?description) ?parameters)
    ?returns
  case name | description => exact gives_written hn nofun rfl rfl
  case parameters => exact gives_written hn nofun rfl (Parameters.decode_toJson place h.properties)
  case returns =>
    have hl : d.members.lookup "return" = some (d.returns.map id) := by
      rw [Option.map_id]
      rfl
    refine gives_optional_alias hn ?_ hl fun u hu => ?_
    · simp [members]
    · exact nullable_eq_some_iff.2 ⟨fun hnull => h.returns (hnull ▸ hu), rfl⟩

theorem proper_toJson (d : Description) : Proper d.toJson := by
  refine ⟨hasNames_compact d.members, d.parameters.toJson, ?_, hasNames_compact d.parameters.members⟩
  exact (Members.lookup_compact d.nodup_members "parameters").trans rfl

/-- The model sees the parameters that were given. -/
theorem shows_of_decode (h : decodeAt place v = .ok d) : Shows v d.functionSpec := by
  refine ⟨rfl, d.toJson, d.parameters.toJson, rfl,
    (Members.lookup_compact d.nodup_members "parameters").trans rfl, ?_⟩
  obtain ⟨-, ⟨hv, hp⟩ | ⟨u, hv, hp⟩⟩ := parameters_of_decode h
  · rw [hv, hp]
    exact ⟨⟨[], rfl, .nil⟩, rfl⟩
  · rw [hv]
    exact Parameters.shows_of_decode hp

/-- A description on its way from a value to the model and back to a value. -/
structure Survives (v : Json) (d : Description) : Prop where
  proper : Proper d.toJson
  /-- So nothing changes when it is written once more. -/
  kept : decode d.toJson = .ok d
  shown : Shows v d.functionSpec

theorem survives_of_decode (h : decode v = .ok d) : d.Survives v :=
  ⟨d.proper_toJson, decode_toJson .alone (sound_of_decode h), shows_of_decode h⟩

end Description

end Parley.Tool
