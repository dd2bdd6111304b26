/-
What validation says of a definition, and what becomes of it. To build a definition ends with the
fault that validation finds, and with a tool of its description where it finds none; to add its tool
asks for the right type besides. What a preset was read into is valid, so all of it can be built
(`Definition.construction_foreseen`).
-/
import Parley.Proofs.Preset.Entries

namespace Parley

open Http

namespace Definition

/-! ## Building -/

variable {auth : Option Authenticator}

theorem Builds.description {d : Definition} {t : Tool} (h : d.Builds auth t) :
    t.description = d.description := by
  cases h <;> rfl

/-- The fault that building ends with is the one that validation finds; without one there is a tool
of the same description. -/
theorem build_description (d : Definition) (auth : Option Authenticator) :
    (d.build auth).map Tool.description = d.validate.map fun _ => d.description := by
  cases hv : d.validate with
  | error e =>
    unfold build
    rw [hv]
    rfl
  | ok =>
    obtain ⟨t, ht, hb⟩ := build_ok hv auth
    rw [ht]
    exact congrArg Except.ok hb.description

/-- The tool of a definition that has to be of a type; the faults of the definition come first. -/
def buildAs (type : String) (d : Definition) (auth : Option Authenticator) : Except Error Tool :=
  match d.validate with
  | .error e => .error e
  | .ok () => if d.typeName = type then d.build auth else .error (.wrongType type d.typeName)

theorem buildAs_isOk_iff {type : String} {d : Definition} :
    (∃ t, d.buildAs type auth = .ok t) ↔ d.validate = .ok () ∧ d.typeName = type := by
  unfold buildAs
  cases hv : d.validate with
  | error e => exact ⟨nofun, nofun⟩
  | ok =>
    by_cases ht : d.typeName = type
    · obtain ⟨t, hbuild, -⟩ := build_ok hv auth
      simp [ht, hbuild]
    · simp [ht]

end Definition

/-! ## Adding the tool of a definition -/

namespace Agent

variable {auth : Option Authenticator} {a : Agent}

theorem addUniversal_eq (a : Agent) (d : Definition) (auth : Option Authenticator) :
    a.addUniversal d = a.addBuilt (d.buildAs Definition.universalType auth) := by
  unfold addUniversal Definition.buildAs
  cases hv : d.validate with
  | error e => rfl
  | ok =>
    cases d with
    | universal desc b => simp only [Definition.typeName, if_true, Definition.build, hv]
    | restApi desc b => rfl

theorem addRest_eq (a : Agent) (d : Definition) (auth : Option Authenticator) :
    a.addRest d auth = a.addBuilt (d.buildAs Definition.restApiType auth) := by
  unfold addRest Definition.buildAs
  cases hv : d.validate with
  | error e => rfl
  | ok =>
    cases d with
    | universal desc b => rfl
    | restApi desc b => simp only [Definition.typeName, if_true, Definition.build, hv]

/-- A tool that there is can be added. -/
theorem addBuilt_isOk_iff {r : Except Definition.Error Tool} :
    (∃ g b, a.addBuilt r = (.ok g, b)) ↔ ∃ t, r = .ok t := by
  cases r with
  | error e => exact ⟨nofun, nofun⟩
  | ok t => exact ⟨fun _ => ⟨t, rfl⟩, fun _ => ⟨_, _, rfl⟩⟩

end Agent

/-! ## Definitions that were read -/

namespace Definition

/-- Validation foresees construction: a definition is built exactly when it is valid, with the same
fault where it is not, and an agent takes its tool exactly when it is of the right type besides.
Whatever a preset was read into can be built, so a preset that can be loaded is added. -/
theorem construction_foreseen (auth : Option Authenticator) :
    (∀ d : Definition,
      (d.build auth).map Tool.description = d.validate.map fun _ => d.description) ∧
    (∀ (a : Agent) (d : Definition),
      ((∃ r b, a.addUniversal d = (.ok r, b)) ↔
        d.validate = .ok () ∧ d.typeName = universalType) ∧
      ((∃ r b, a.addRest d auth = (.ok r, b)) ↔
        d.validate = .ok () ∧ d.typeName = restApiType)) ∧
    (∀ preset content ds, Preset.parse preset content = .ok ds →
      ∀ d ∈ ds, ∃ t, d.build auth = .ok t) ∧
    ∀ (a : Agent) fs dir preset ds, Preset.load fs dir preset = .ok ds →
      ∃ n b, a.addPreset fs dir preset auth = (.ok n, b) := by
  refine ⟨fun d => d.build_description auth, fun a d => ⟨?_, ?_⟩, ?_, ?_⟩
  · rw [a.addUniversal_eq d auth, Agent.addBuilt_isOk_iff, buildAs_isOk_iff]
  · rw [a.addRest_eq d auth, Agent.addBuilt_isOk_iff, buildAs_isOk_iff]
  · intro preset content ds h d hd
    obtain ⟨t, ht, -⟩ := build_ok (Preset.sound_parse h d hd).valid auth
    exact ⟨t, ht⟩
  · intro a fs dir preset ds h
    obtain ⟨ts, -, hts⟩ := Agent.buildAll_ok auth fun d hd => (Preset.sound_load h d hd).valid
    exact ⟨_, _, Agent.addPreset_of_load h hts⟩

/-- A capability and a request, of which the first takes a part of the answer. -/
def pair : List Definition :=
  [.universal ⟨"clock", "", Tool.Parameters.none, none⟩ ⟨some "now[0]"⟩,
    .restApi ⟨"find", "", Tool.Parameters.none, none⟩
      ⟨"https://h/find", .get, [("accept", "text/plain")], none, some .bearer, none⟩]

/-- The text of a preset that holds the two. -/
def pairText : String := (Json.obj (pair.map fun d => (d.name, d.toJson))).text

/-- The directory of the preset. -/
def pairFiles : Files where
  entries := [(["pair.json"], pairText)]
  directories := []

theorem pair_foreseen :
    (Preset.parse "pair" pairText = .ok pair ∧ ∀ d ∈ pair, ∃ t, d.build none = .ok t) ∧
      Preset.load pairFiles "." "pair" = .ok pair ∧
        ∀ a : Agent, ∃ n b, a.addPreset pairFiles "." "pair" none = (.ok n, b) := by
  have hjson : Json.parse? pairText = some (.obj (pair.map fun d => (d.name, d.toJson))) := by
    have htext : Json.Parser.whole Json.Parser.maxDepth (Json.Parser.skip pairText.toList) =
        some (.obj (pair.map fun d => (d.name, d.toJson)), []) := by
      rw [pairText, Json.text, String.toList_ofList]
      decide +kernel
    rw [Json.parse?_of_read htext rfl]
    decide +kernel
  have hparse : Preset.parse "pair" pairText = .ok pair :=
    (Preset.parse_eq hjson).trans (by decide +kernel)
  have hread : pairFiles.read? (Files.join "." ("pair" ++ "." ++ Preset.extension)) =
      some pairText := by
    have hsteps : Files.steps (Files.join "." ("pair" ++ "." ++ Preset.extension)) =
        ["pair.json"] := by decide +kernel
    rw [Files.read?, hsteps]
    exact List.lookup_cons_self
  have hload : Preset.load pairFiles "." "pair" = .ok pair :=
    (Preset.load_of_read (by decide +kernel) hread).trans hparse
  obtain ⟨-, -, hbuilt, hadded⟩ := construction_foreseen none
  exact ⟨⟨hparse, hbuilt _ _ _ hparse⟩, hload, fun a => hadded a _ _ _ _ hload⟩

end Definition

end Parley
