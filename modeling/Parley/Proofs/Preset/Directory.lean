/-
Directories of presets. What a directory is said to have is told by the names of what lies in it
(`mem_available_iff`), and what can be loaded from it by its files (`found_iff`). A preset that can
be loaded is available; one that is available is found unless its name starts with a dot or belongs
to a directory; only the empty path, which leads to no directory, still leads to files
(`available_found_iff`).
-/
import Parley.Preset
import Parley.Proofs.Files

namespace Parley.Preset

variable {fs : Files} {dir preset : String}

/-- The name of the file of a preset. -/
def fileName (preset : String) : String := preset ++ "." ++ extension

/-- A preset is found: loading it does not say that there is none of its name, whatever else may be
wrong with it. -/
def IsFound (fs : Files) (dir preset : String) : Prop :=
  ∀ name, load fs dir preset ≠ .error (.unknownPreset name)

/-! ## What is available -/

/-- Available is what has a file or a directory of its name. -/
theorem mem_available_iff :
    preset ∈ available fs dir ↔ preset ≠ "" ∧ fileName preset ∈ fs.namesIn dir := by
  have hext : '.' ∉ extension.toList := by decide
  unfold available
  rw [List.mem_mergeSort, List.mem_filterMap]
  constructor
  · rintro ⟨name, hname, hstem⟩
    obtain ⟨hne, rfl⟩ := (Files.stem?_eq_some_iff hext).1 hstem
    exact ⟨hne, hname⟩
  · rintro ⟨hne, hname⟩
    exact ⟨_, hname, (Files.stem?_eq_some_iff hext).2 ⟨hne, rfl⟩⟩

/-! ## What is found -/

theorem validate_ne_unknownPreset (d : Definition) (name : String) :
    d.validate ≠ .error (.unknownPreset name) := by
  unfold Definition.validate
  split
  · exact nofun
  split
  · exact nofun
  unfold Definition.compilePath
  split
  · exact nofun
  · split <;> exact nofun

theorem ofEntry_ne_unknownPreset (entry : Json) (name : String) :
    ofEntry entry ≠ .error (.unknownPreset name) := by
  intro h
  unfold ofEntry Definition.ofJson at h
  cases hd : Definition.decode entry with
  | error e =>
    rw [hd] at h
    cases h
  | ok d =>
    rw [hd] at h
    dsimp only at h
    split at h
    · rename_i hv
      cases h
      exact validate_ne_unknownPreset d name hv
    · cases h

theorem ofEntries_ne_unknownPreset (entries : List Json) (name : String) :
    ofEntries entries ≠ .error (.unknownPreset name) := by
  induction entries with
  | nil => exact nofun
  | cons entry entries ih =>
    intro h
    unfold ofEntries at h
    split at h
    · rename_i he
      cases h
      exact ofEntry_ne_unknownPreset entry name he
    · split at h
      · rename_i he
        cases h
        exact ih he
      · cases h

/-- A text that is there is never said to be missing. -/
theorem parse_ne_unknownPreset (preset content name : String) :
    parse preset content ≠ .error (.unknownPreset name) := by
  unfold parse
  split
  · exact ofEntries_ne_unknownPreset _ name
  · exact nofun
  · exact nofun

/-- Found is what has a proper name and a file of it. -/
theorem found_iff : IsFound fs dir preset ↔
    isName preset = true ∧ (fs.read? (Files.join dir (fileName preset))).isSome := by
  unfold IsFound load fileName
  by_cases hname : isName preset
  · rw [if_pos hname]
    cases hread : fs.read? (Files.join dir (preset ++ "." ++ extension)) with
    | none =>
      simp only [hname, Option.isSome_none, Bool.false_eq_true, and_false, iff_false]
      exact fun h => h preset rfl
    | some content =>
      simp only [hname, Option.isSome_some, and_self, iff_true]
      exact parse_ne_unknownPreset preset content
  · rw [if_neg hname]
    simp only [hname, Bool.false_eq_true, false_and, iff_false]
    exact fun h => h preset rfl

/-! ## What is available and what is found -/

theorem isStep_fileName (h : '/' ∉ preset.toList) : Files.IsStep (fileName preset) := by
  have hlist : (fileName preset).toList = preset.toList ++ ".json".toList := by
    simp [fileName, extension]
  have hlong : 5 ≤ (fileName preset).toList.length := by
    rw [hlist, List.length_append]
    exact Nat.le_add_left _ _
  refine ⟨?_, ?_, ?_, ?_⟩
  · rw [hlist, List.mem_append, not_or]
    exact ⟨h, by decide⟩
  all_goals
    intro heq
    rw [heq] at hlong
    exact absurd hlong (by decide)

/-- A name that leads to no other directory is proper unless it is empty or hidden. -/
theorem isName_iff (hslash : '/' ∉ preset.toList) (hback : '\\' ∉ preset.toList) :
    isName preset = true ↔ preset ≠ "" ∧ preset.startsWith "." = false := by
  have hnone : (preset.toList.any fun c => c = '/' || c = '\\') = false := by
    rw [List.any_eq_false]
    intro c hc hor
    simp only [Bool.or_eq_true, decide_eq_true_eq] at hor
    rcases hor with rfl | rfl
    · exact hslash hc
    · exact hback hc
  simp [isName, hnone]

theorem mem_available_of_isFound (hd : dir ≠ "") (hslash : '/' ∉ preset.toList)
    (h : IsFound fs dir preset) : preset ∈ available fs dir := by
  obtain ⟨hname, hread⟩ := found_iff.1 h
  obtain ⟨content, hread⟩ := Option.isSome_iff_exists.1 hread
  have hne : preset ≠ "" := by
    rintro rfl
    cases hname
  exact mem_available_iff.2 ⟨hne, Files.mem_namesIn_of_read hd (isStep_fileName hslash) hread⟩

/-- Whatever is found in a directory is available there. What is available is found, too, exactly
when it has no hidden name and a file, not a directory, to hold it. With the empty path nothing is
available, and a preset is none the less found when a file holds it. -/
theorem available_found_iff (hslash : '/' ∉ preset.toList) (hback : '\\' ∉ preset.toList) :
    (dir ≠ "" → IsFound fs dir preset → preset ∈ available fs dir) ∧
    ((preset ∈ available fs dir ↔ IsFound fs dir preset) ↔
      (preset ≠ "" → fileName preset ∈ fs.namesIn dir →
        preset.startsWith "." = false ∧
          (fs.read? (Files.join dir (fileName preset))).isSome) ∧
      (dir = "" → preset ≠ "" → preset.startsWith "." = false →
        fs.read? (fileName preset) = none)) := by
  refine ⟨fun hd => mem_available_of_isFound hd hslash, ?_⟩
  by_cases hd : dir = ""
  · subst hd
    rw [found_iff, mem_available_iff, isName_iff hslash hback]
    simp
  · have hagree : (preset ∈ available fs dir ↔ IsFound fs dir preset) ↔
        (preset ∈ available fs dir → IsFound fs dir preset) :=
      ⟨Iff.mp, fun h => ⟨h, mem_available_of_isFound hd hslash⟩⟩
    rw [hagree, found_iff, mem_available_iff, isName_iff hslash hback]
    constructor
    · intro h
      refine ⟨fun hne hname => ?_, fun h => absurd h hd⟩
      obtain ⟨⟨-, hdot⟩, hread⟩ := h ⟨hne, hname⟩
      exact ⟨hdot, hread⟩
    · rintro ⟨h, -⟩ ⟨hne, hname⟩
      obtain ⟨hdot, hread⟩ := h hne hname
      exact ⟨⟨hne, hdot⟩, hread⟩

/-- A directory with a preset, a hidden file beside it and a directory of a preset's name. -/
def shelf : Files where
  entries := [(["presets", "kit.json"], "{}"), (["presets", ".draft.json"], "{}"),
    (["presets", "old.json", "notes"], "")]
  directories := []

/-- The preset in the directory is found there. With the empty path a file is found that is not
available. -/
theorem kit_available_found :
    ("kit" ∈ available shelf "presets" ∧ IsFound shelf "presets" "kit") ∧
      ¬ ("kit" ∈ available ⟨[(["kit.json"], "{}")], []⟩ "" ↔
        IsFound ⟨[(["kit.json"], "{}")], []⟩ "" "kit") := by
  have hmem : "kit" ∈ available shelf "presets" :=
    mem_available_iff.2 ⟨by decide, by decide +kernel⟩
  have hiff : "kit" ∈ available shelf "presets" ↔ IsFound shelf "presets" "kit" :=
    (available_found_iff (by decide) (by decide)).2.2
      ⟨fun _ _ => by decide +kernel, fun hd => absurd hd (by decide)⟩
  refine ⟨⟨hmem, hiff.1 hmem⟩, fun h => ?_⟩
  have hnone :=
    ((available_found_iff (by decide) (by decide)).2.1 h).2 rfl (by decide) (by decide +kernel)
  exact absurd hnone (by decide +kernel)

/-- The hidden file and the directory are available, but they are not found. -/
theorem draft_available_not_found :
    (".draft" ∈ available shelf "presets" ∧ ¬ IsFound shelf "presets" ".draft") ∧
      "old" ∈ available shelf "presets" ∧ ¬ IsFound shelf "presets" "old" := by
  refine ⟨⟨mem_available_iff.2 ⟨by decide, by decide +kernel⟩, ?_⟩,
    mem_available_iff.2 ⟨by decide, by decide +kernel⟩, ?_⟩
  · rw [found_iff]
    decide +kernel
  · rw [found_iff]
    decide +kernel

end Parley.Preset
