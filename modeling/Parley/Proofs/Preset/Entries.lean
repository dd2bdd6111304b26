/-
Entries of a preset. Those whose type is not known count for nothing, whatever they hold and
wherever they stand (`parse_congr`); the others are read one by one in the order of the file, up to
the first that holds no valid definition (`parse_known`).
-/
import Parley.Proofs.Json.Legible
import Parley.Proofs.Tool.Built

namespace Parley.Preset

/-! ## Known types -/

/-- The members of a preset whose type is the name of a known one. -/
def known (ms : Json.Members) : Json.Members :=
  ms.filter fun m =>
    m.2.get? "type" = some (.str "universal") ∨ m.2.get? "type" = some (.str "restapi")

theorem isKnown_iff {v : Json} : isKnown v = true ↔
    v.get? "type" = some (.str "universal") ∨ v.get? "type" = some (.str "restapi") := by
  unfold isKnown
  split
  · rename_i t ht
    simp only [ht, Bool.or_eq_true, decide_eq_true_eq, Option.some.injEq, Json.str.injEq]
    rfl
  · rename_i hne
    simp only [Bool.false_eq_true, false_iff, not_or]
    exact ⟨hne _, hne _⟩

theorem known_sublist (ms : Json.Members) : (known ms).Sublist ms := List.filter_sublist

theorem known_known (ms : Json.Members) : known (known ms) = known ms := by
  unfold known
  rw [List.filter_filter]
  simp only [Bool.and_self]

/-- The entries that are looked at are those of known types. -/
theorem filter_isKnown (ms : Json.Members) :
    (ms.map Prod.snd).filter isKnown = (known ms).map Prod.snd := by
  rw [List.filter_map]
  congr 1
  refine List.filter_congr fun m _ => ?_
  rw [Bool.eq_iff_iff, decide_eq_true_iff]
  exact isKnown_iff

theorem parse_eq {preset content : String} {ms : Json.Members}
    (h : Json.parse? content = some (.obj ms)) :
    parse preset content = ofEntries ((known ms).map Prod.snd) := by
  unfold parse
  rw [h]
  exact congrArg ofEntries (filter_isKnown ms)

/-- Two presets that have the same entries of known types are the same. -/
theorem parse_congr {preset content content' : String} {ms ns : Json.Members}
    (h : Json.parse? content = some (.obj ms)) (h' : Json.parse? content' = some (.obj ns))
    (hsame : known ms = known ns) : parse preset content = parse preset content' := by
  rw [parse_eq h, parse_eq h', hsame]

/-! ## Valid entries and faults -/

/-- An entry holds a definition that can be read and is valid. -/
def Holds (v : Json) (d : Definition) : Prop :=
  Definition.ofJson v = .ok d ∧ d.validate = .ok ()

/-- An entry holds no definition, or one that is not valid, and this is what is wrong with it. -/
def Fails (v : Json) (e : Definition.Error) : Prop :=
  Definition.ofJson v = .error e ∨ ∃ d, Definition.ofJson v = .ok d ∧ d.validate = .error e

theorem ofEntry_eq_ok_iff {v : Json} {d : Definition} : ofEntry v = .ok d ↔ Holds v d := by
  unfold ofEntry Holds
  cases hd : Definition.ofJson v with
  | error e => simp
  | ok d' =>
    cases hv : d'.validate with
    | error e =>
      simp only [hv, reduceCtorEq, Except.ok.injEq, false_iff, not_and]
      rintro rfl
      simp [hv]
    | ok =>
      simp only [hv, Except.ok.injEq]
      constructor
      · rintro rfl
        exact ⟨rfl, hv⟩
      · exact And.left

theorem ofEntry_eq_error_iff {v : Json} {e : Definition.Error} :
    ofEntry v = .error e ↔ Fails v e := by
  unfold ofEntry Fails
  cases hd : Definition.ofJson v with
  | error e' => simp
  | ok d' => cases hv : d'.validate <;> simp [hv]

theorem ofEntries_cons_of_error {v : Json} {e : Definition.Error} (h : ofEntry v = .error e)
    (vs : List Json) : ofEntries (v :: vs) = .error e := by
  rw [ofEntries, h]

theorem ofEntries_cons_eq_error_iff {v : Json} {d : Definition} (h : ofEntry v = .ok d)
    {vs : List Json} {e : Definition.Error} :
    ofEntries (v :: vs) = .error e ↔ ofEntries vs = .error e := by
  rw [ofEntries, h]
  cases ofEntries vs <;> simp

/-- The fault of a preset is that of its first entry that has one. -/
theorem ofEntries_eq_error_iff {vs : List Json} {e : Definition.Error} :
    ofEntries vs = .error e ↔ ∃ pre v post, vs = pre ++ v :: post ∧
      (∀ u ∈ pre, ∃ d, ofEntry u = .ok d) ∧ ofEntry v = .error e := by
  constructor
  · induction vs with
    | nil => rintro ⟨⟩
    | cons u vs ih =>
      intro h
      cases hu : ofEntry u with
      | error d =>
        rw [ofEntries_cons_of_error hu] at h
        cases h
        exact ⟨[], u, vs, rfl, nofun, hu⟩
      | ok d =>
        obtain ⟨pre, v, post, rfl, hpre, hv⟩ := ih ((ofEntries_cons_eq_error_iff hu).1 h)
        exact ⟨u :: pre, v, post, rfl, List.forall_mem_cons.2 ⟨⟨d, hu⟩, hpre⟩, hv⟩
  · rintro ⟨pre, v, post, rfl, hpre, hv⟩
    induction pre with
    | nil => exact ofEntries_cons_of_error hv post
    | cons u pre ih =>
      obtain ⟨⟨d, hu⟩, hpre⟩ := List.forall_mem_cons.1 hpre
      exact (ofEntries_cons_eq_error_iff hu).2 (ih hpre)

/-! ## Presets -/

section Presets

variable {preset content : String} {ms : Json.Members}

theorem parse_eq_ok_iff (h : Json.parse? content = some (.obj ms)) {ds : List Definition} :
    parse preset content = .ok ds ↔ List.Forall₂ (fun m d => Holds m.2 d) (known ms) ds := by
  rw [parse_eq h, ofEntries_eq_ok_iff, List.forall₂_map_left_iff]
  simp only [ofEntry_eq_ok_iff]

theorem parse_eq_error_iff (h : Json.parse? content = some (.obj ms)) {e : Definition.Error} :
    parse preset content = .error e ↔ ∃ pre m post, known ms = pre ++ m :: post ∧
      (∀ n ∈ pre, ∃ d, Holds n.2 d) ∧ Fails m.2 e := by
  rw [parse_eq h, ofEntries_eq_error_iff]
  simp only [ofEntry_eq_ok_iff, ofEntry_eq_error_iff]
  constructor
  · rintro ⟨pre, v, post, hsplit, hpre, hv⟩
    obtain ⟨pre, rest, hms, rfl, hrest⟩ := List.map_eq_append_iff.1 hsplit
    obtain ⟨m, post, rfl, rfl, rfl⟩ := List.map_eq_cons_iff.1 hrest
    exact ⟨pre, m, post, hms, fun n hn => hpre n.2 (List.mem_map_of_mem hn), hv⟩
  · rintro ⟨pre, m, post, hms, hpre, hm⟩
    refine ⟨pre.map Prod.snd, m.2, post.map Prod.snd, ?_, List.forall_mem_map.2 hpre, hm⟩
    rw [hms, List.map_append, List.map_cons]

end Presets

/-- A preset that is an object can be written without its entries of unknown types, and says the
same however that is written. It gives one definition for each of the other entries, in the order of
the file, or fails with what is wrong with the first of them that holds no valid one. -/
theorem parse_known (preset : String) {content : String} {ms : Json.Members}
    (h : Json.parse? content = some (.obj ms)) :
    (∃ content', Json.parse? content' = some (.obj (known ms))) ∧
    (∀ content', Json.parse? content' = some (.obj (known ms)) →
      parse preset content = parse preset content') ∧
    (∀ ds, parse preset content = .ok ds ↔
      List.Forall₂ (fun m d => Holds m.2 d) (known ms) ds) ∧
    (∀ e, parse preset content = .error e ↔ ∃ pre m post, known ms = pre ++ m :: post ∧
      (∀ n ∈ pre, ∃ d, Holds n.2 d) ∧ Fails m.2 e) :=
  ⟨Json.parse?_of_sublist h (known_sublist ms),
    fun _ h' => parse_congr h h' (known_known ms).symm, fun _ => parse_eq_ok_iff h,
    fun _ => parse_eq_error_iff h⟩

/-- An entry with a tool. -/
def clockEntry : String × Json :=
  ("clock", .obj [("type", .str "universal"), ("description", .obj [("name", .str "clock")])])

/-- The tool among entries of another type, of no type and of none that is a text. -/
def assorted : Json.Members :=
  [("graph", .obj [("type", .str "graphql"), ("behavior", .arr [])]), ("note", .str "universal"),
    clockEntry, ("bare", .obj []), ("odd", .obj [("type", .arr [.str "restapi"])])]

theorem assorted_known :
    parse "kit" (Json.obj assorted).text = parse "kit" (Json.obj [clockEntry]).text ∧
      parse "kit" (Json.obj assorted).text =
        .ok [.universal ⟨"clock", "", Tool.Parameters.none, none⟩ ⟨none⟩] := by
  have hparse : Json.parse? (Json.obj assorted).text = some (.obj assorted) := by decide +kernel
  have hknown : known assorted = [clockEntry] := by decide +kernel
  obtain ⟨-, hsame, hok, -⟩ := parse_known "kit" hparse
  rw [hknown] at hsame hok
  refine ⟨hsame _ (by decide +kernel), (hok _).2 (.cons ⟨?_, ?_⟩ .nil)⟩ <;> decide +kernel

end Parley.Preset
