/-
Definitions on their way from a preset to the tools of an agent. Whatever a preset is loaded with is
valid (`Preset.sound_load`), so all of it can be built, and what is built is settled by the
definition and the credentials (`Agent.buildAll_eq_ok_iff`).
-/
import Parley.Agent
import Parley.Proofs.Http.Wire
import Mathlib.Data.List.Forall2

namespace Parley

open Http

/-! ## Definitions that were loaded -/

/-- What is known of every definition that a preset was loaded with. -/
structure Definition.Sound (d : Definition) : Prop where
  valid : d.validate = .ok ()
  ordered : ∀ desc b, d = .restApi desc b → b.headers.Ordered

namespace Preset

theorem sound_ofEntry {v : Json} {d : Definition} (h : ofEntry v = .ok d) : d.Sound := by
  unfold ofEntry at h
  split at h
  · cases h
  · rename_i d' hd
    split at h
    · cases h
    · rename_i hv
      cases h
      refine ⟨hv, ?_⟩
      rintro desc b rfl
      unfold Definition.ofJson at hd
      split at hd
      · rename_i d' hdec
        cases hd
        exact Definition.ordered_of_decode hdec
      · cases hd

theorem sound_ofEntries {vs : List Json} {ds : List Definition} (h : ofEntries vs = .ok ds) :
    ∀ d ∈ ds, d.Sound := by
  induction vs generalizing ds with
  | nil =>
    cases h
    exact fun d hd => nomatch hd
  | cons v vs ih =>
    unfold ofEntries at h
    split at h
    · cases h
    · rename_i d hd
      split at h
      · cases h
      · rename_i es hes
        cases h
        intro e he
        rcases List.mem_cons.1 he with rfl | he
        · exact sound_ofEntry hd
        · exact ih hes e he

theorem sound_parse {preset content : String} {ds : List Definition}
    (h : parse preset content = .ok ds) : ∀ d ∈ ds, d.Sound := by
  unfold parse at h
  split at h
  · exact sound_ofEntries h
  · cases h
  · cases h

theorem sound_load {fs : Files} {dir preset : String} {ds : List Definition}
    (h : load fs dir preset = .ok ds) : ∀ d ∈ ds, d.Sound := by
  unfold load at h
  split at h
  · split at h
    · exact sound_parse h
    · cases h
  · cases h

theorem ofEntries_eq_ok_iff {vs : List Json} {ds : List Definition} :
    ofEntries vs = .ok ds ↔ List.Forall₂ (fun v d => ofEntry v = .ok d) vs ds := by
  induction vs generalizing ds with
  | nil =>
    constructor
    · rintro ⟨⟩
      exact .nil
    · rintro ⟨⟩
      rfl
  | cons v vs ih =>
    unfold ofEntries
    constructor
    · intro h
      split at h
      · cases h
      · rename_i d hd
        split at h
        · cases h
        · rename_i es hes
          cases h
          exact .cons hd (ih.1 hes)
    · rintro (_ | ⟨hd, hds⟩)
      rw [hd, ih.2 hds]

/-- A preset defines some tools: its file holds an object, and the definitions are those of the
entries of known types, in the order of the file. -/
def Defines (fs : Files) (dir preset : String) (ds : List Definition) : Prop :=
  isName preset = true ∧ ∃ content ms,
    fs.read? (Files.join dir (preset ++ "." ++ extension)) = some content ∧
      Json.parse? content = some (.obj ms) ∧
      List.Forall₂ (fun v d => ofEntry v = .ok d) ((ms.map Prod.snd).filter isKnown) ds

/-- A preset whose file is there is what its text holds. -/
theorem load_of_read {fs : Files} {dir preset content : String} (h : isName preset = true)
    (hread : fs.read? (Files.join dir (preset ++ "." ++ extension)) = some content) :
    load fs dir preset = parse preset content := by
  unfold load
  rw [if_pos h, hread]

theorem load_eq_ok_iff {fs : Files} {dir preset : String} {ds : List Definition} :
    load fs dir preset = .ok ds ↔ Defines fs dir preset ds := by
  constructor
  · intro h
    unfold load at h
    split at h
    · rename_i hname
      split at h
      · rename_i content hread
        unfold parse at h
        split at h
        · rename_i ms hparse
          exact ⟨hname, content, ms, hread, hparse, ofEntries_eq_ok_iff.1 h⟩
        · cases h
        · cases h
      · cases h
    · cases h
  · rintro ⟨hname, content, ms, hread, hparse, hds⟩
    rw [load_of_read hname hread]
    unfold parse
    rw [hparse]
    exact ofEntries_eq_ok_iff.2 hds

end Preset

/-! ## Tools that were built -/

/-- A tool stands for a definition, with credentials if it makes requests. -/
inductive Definition.Builds (auth : Option Authenticator) : Definition → Tool → Prop
  | universal {desc : Tool.Description} {b : Definition.Capability} {path : Option OutputPath} :
    compilePath b.outputPath = .ok path → Builds auth (.universal desc b) (.universal desc path)
  | restApi {desc : Tool.Description} {b : Definition.Rest} {path : Option OutputPath} :
    compilePath b.outputPath = .ok path → Builds auth (.restApi desc b) (.rest desc b path auth)

namespace Definition

variable {auth : Option Authenticator} {d : Definition}

theorem Builds.name {t : Tool} (h : d.Builds auth t) : t.name = d.name := by
  cases h <;> rfl

theorem Builds.rest {t : Tool} (h : d.Builds auth t) :
    ∀ desc b, d = .restApi desc b → ∃ path, t = .rest desc b path auth := by
  cases h with
  | universal => exact nofun
  | restApi =>
    rintro _ _ ⟨⟩
    exact ⟨_, rfl⟩

/-- What a definition is built into is settled by it and the credentials. -/
theorem builds_rightUnique (auth : Option Authenticator) : Relator.RightUnique (Builds auth) := by
  intro d t u ht hu
  cases ht with
  | universal hp =>
    cases hu with
    | universal hp' =>
      rw [hp] at hp'
      cases hp'
      rfl
  | restApi hp =>
    cases hu with
    | restApi hp' =>
      rw [hp] at hp'
      cases hp'
      rfl

theorem compilePath_of_valid (h : d.validate = .ok ()) :
    ∃ path, compilePath d.outputPath = .ok path := by
  unfold validate at h
  split at h
  · cases h
  split at h
  · cases h
  · cases hp : compilePath d.outputPath with
    | error e =>
      rw [hp] at h
      cases h
    | ok path => exact ⟨path, rfl⟩

/-- A valid definition can be built. -/
theorem build_ok (h : d.validate = .ok ()) (auth : Option Authenticator) :
    ∃ t, d.build auth = .ok t ∧ d.Builds auth t := by
  obtain ⟨path, hp⟩ := compilePath_of_valid h
  cases d with
  | universal desc b =>
    have hb : compilePath b.outputPath = .ok path := hp
    refine ⟨.universal desc path, ?_, .universal hb⟩
    simp only [build, h, universalTool, universal?, hb]
    rfl
  | restApi desc b =>
    have hb : compilePath b.outputPath = .ok path := hp
    refine ⟨.rest desc b path auth, ?_, .restApi hb⟩
    simp only [build, h, restTool, restApi?, hb]
    rfl

end Definition

namespace Agent

variable {auth : Option Authenticator} {ds : List Definition} {ts : List Tool}

theorem buildAll_ok (auth : Option Authenticator) (h : ∀ d ∈ ds, d.validate = .ok ()) :
    ∃ ts, buildAll auth ds = .ok ts ∧ List.Forall₂ (Definition.Builds auth) ds ts := by
  induction ds with
  | nil => exact ⟨[], rfl, .nil⟩
  | cons d ds ih =>
    obtain ⟨t, ht, hb⟩ := Definition.build_ok (h d List.mem_cons_self) auth
    obtain ⟨ts, hts, hbs⟩ := ih fun e he => h e (List.mem_cons_of_mem _ he)
    refine ⟨t :: ts, ?_, .cons hb hbs⟩
    unfold buildAll
    simp only [ht, hts]
    rfl

/-- Valid definitions are built into the tools that stand for them, and into no others. -/
theorem buildAll_eq_ok_iff (h : ∀ d ∈ ds, d.validate = .ok ()) :
    buildAll auth ds = .ok ts ↔ List.Forall₂ (Definition.Builds auth) ds ts := by
  obtain ⟨us, hus, hbs⟩ := buildAll_ok auth h
  rw [hus]
  constructor
  · rintro ⟨⟩
    exact hbs
  · intro hts
    rw [(Definition.builds_rightUnique auth).forall₂ hbs hts]

section Presets

variable {a : Agent} {fs : Files} {dir preset : String}

/-- A preset that can be loaded is registered as a whole. -/
theorem addPreset_of_load (hl : Preset.load fs dir preset = .ok ds)
    (hts : List.Forall₂ (Definition.Builds auth) ds ts) :
    a.addPreset fs dir preset auth =
      (.ok (a.tools.registerAll ts).1, { a with tools := (a.tools.registerAll ts).2 }) := by
  have hbuild : buildAll auth ds = .ok ts :=
    (buildAll_eq_ok_iff fun d hd => (Preset.sound_load hl d hd).valid).2 hts
  unfold addPreset
  simp only [hl, Except.bind, hbuild]

/-- A preset that cannot be loaded changes nothing. -/
theorem addPreset_of_error {d : Definition.Error} (hl : Preset.load fs dir preset = .error d) :
    a.addPreset fs dir preset auth = (.error (.definition d), a) := by
  unfold addPreset
  rw [hl]
  rfl

end Presets

end Agent

end Parley
