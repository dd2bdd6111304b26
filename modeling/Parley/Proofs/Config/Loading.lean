/-
What is in force once a configuration is loaded. The environment and the file are laid over each
other by a rule of its own for each field (`Config.Overrides`), and there is one configuration that
obeys the rules. Loading gives that one or none (`load_ok_iff_overrides`): it has to be valid, and so
has the model that the file names, even where the environment names another. All other faults are of
fields that the environment leaves alone, so validating the file before finds nothing else.
-/
import Parley.Config
import Mathlib.Control.Monad.Basic

namespace Parley.Config

variable {fs : Files} {env : Environment} {c d : Config}

/-! ## The two sources -/

/-- What becomes of a file's configuration in an environment. The environment goes before the file,
except for the key: there the file goes before the environment. -/
structure Overrides (env : Environment) (c d : Config) : Prop where
  model_set : ∀ m, env "TOOLWEAVE_MODEL" = some m → d.model = m
  model_kept : env "TOOLWEAVE_MODEL" = none → d.model = c.model
  presetDir_set : ∀ dir, env "TOOLWEAVE_PRESET_DIR" = some dir → d.presetDir = dir
  presetDir_kept : env "TOOLWEAVE_PRESET_DIR" = none → d.presetDir = c.presetDir
  key_kept : ∀ key, c.apiKey = some key → d.apiKey = some key
  key_set : ∀ key, c.apiKey = none → env "TOOLWEAVE_API_KEY" = some key → d.apiKey = some key
  key_last : c.apiKey = none → env "TOOLWEAVE_API_KEY" = none → d.apiKey = env "OPENAI_API_KEY"
  /-- No other field is touched. -/
  others : d = { c with model := d.model, apiKey := d.apiKey, presetDir := d.presetDir }

theorem overrides_overridden (env : Environment) (c : Config) :
    Overrides env c (c.overridden env) where
  model_set m h := by simp [overridden, h]
  model_kept h := by simp [overridden, h]
  presetDir_set dir h := by simp [overridden, h]
  presetDir_kept h := by simp [overridden, h]
  key_kept key h := by simp [overridden, h]
  key_set key h hk := by simp [overridden, h, hk]
  key_last h hk := by simp [overridden, h, hk]
  others := rfl

/-- The rules leave nothing open. -/
theorem Overrides.unique {e : Config} (hd : Overrides env c d) (he : Overrides env c e) :
    d = e := by
  have hmodel : d.model = e.model := by
    cases hm : env "TOOLWEAVE_MODEL" with
    | none => rw [hd.model_kept hm, he.model_kept hm]
    | some m => rw [hd.model_set m hm, he.model_set m hm]
  have hdir : d.presetDir = e.presetDir := by
    cases hp : env "TOOLWEAVE_PRESET_DIR" with
    | none => rw [hd.presetDir_kept hp, he.presetDir_kept hp]
    | some dir => rw [hd.presetDir_set dir hp, he.presetDir_set dir hp]
  have hkey : d.apiKey = e.apiKey := by
    cases hc : c.apiKey with
    | some key => rw [hd.key_kept key hc, he.key_kept key hc]
    | none =>
      cases hk : env "TOOLWEAVE_API_KEY" with
      | none => rw [hd.key_last hc hk, he.key_last hc hk]
      | some key => rw [hd.key_set key hc hk, he.key_set key hc hk]
  rw [hd.others, he.others, hmodel, hdir, hkey]

theorem overrides_iff : Overrides env c d ↔ d = c.overridden env := by
  constructor
  · exact fun h => h.unique (overrides_overridden env c)
  · rintro rfl
    exact overrides_overridden env c

/-! ## Validity -/

/-- A fault is one of the model, or else one of the fields that the environment leaves alone. -/
theorem fault?_eq_none_iff (c : Config) : c.fault? = none ↔
    Text.isBlankText c.model = false ∧ serverFault? [] c.servers = none ∧
      (c.auth.find? fun e => e.2.token.isEmpty) = none := by
  unfold fault?
  split
  · rename_i hblank
    simp [hblank]
  · rename_i hblank
    simp [hblank]

theorem fault?_overridden (c : Config) (env : Environment) :
    c.fault? = none ∧ (c.overridden env).fault? = none ↔
      (c.overridden env).fault? = none ∧ Text.isBlankText c.model = false := by
  have hservers : (c.overridden env).servers = c.servers := rfl
  have hauth : (c.overridden env).auth = c.auth := rfl
  rw [fault?_eq_none_iff, fault?_eq_none_iff, hservers, hauth]
  constructor
  · rintro ⟨⟨hmodel, -⟩, hmerged⟩
    exact ⟨hmerged, hmodel⟩
  · rintro ⟨⟨hmodel, hrest⟩, hfile⟩
    exact ⟨⟨hfile, hrest⟩, hmodel, hrest⟩

theorem validated_eq_ok_iff : c.validated = .ok d ↔ c.fault? = none ∧ d = c := by
  unfold validated
  cases c.fault? with
  | none => simp [eq_comm]
  | some reason => simp

/-! ## Loading -/

/-- A file that is there and can be parsed is validated, overridden and validated again. -/
theorem load_of_file {text : String} (hr : fs.read? (path env) = some text)
    (hp : parse env text = .ok c) :
    load fs env = .ok d ↔ c.fault? = none ∧ (c.overridden env).validated = .ok d := by
  have hfile : ofFile fs env = c.validated := by
    unfold ofFile
    simp only [hr, hp]
  unfold load
  rw [hfile]
  unfold validated
  cases c.fault? with
  | none => simp
  | some reason => simp

/-- What a file that can be read and parsed is loaded as: the configuration that it and the
environment make together, if that is valid and the file itself names a model. A blank name in the
file is a fault even if the environment overrides it. -/
theorem load_ok_iff_overrides {text : String} (hr : fs.read? (path env) = some text)
    (hp : parse env text = .ok c) (d : Config) :
    load fs env = .ok d ↔
      Overrides env c d ∧ d.fault? = none ∧ Text.isBlankText c.model = false := by
  rw [load_of_file hr hp, validated_eq_ok_iff, overrides_iff, ← and_assoc, fault?_overridden]
  constructor
  · rintro ⟨hvalid, rfl⟩
    exact ⟨rfl, hvalid⟩
  · rintro ⟨rfl, hvalid⟩
    exact ⟨hvalid, rfl⟩

/-- A user with a configuration. -/
def desk (text : String) : Files := .ofPaths [("/home/user/.toolweave/config.toml", text)] []

/-- The user's environment, which names a model and two keys. -/
def deskVariables : Environment
  | "HOME" => some "/home/user"
  | "TOOLWEAVE_MODEL" => some "gpt-4o"
  | "TOOLWEAVE_API_KEY" => some "from-env"
  | "OPENAI_API_KEY" => some "from-elsewhere"
  | _ => none

/-- The model of the environment is in force, and the key of the file. -/
theorem named_model_overridden :
    let text := "model = \"qwen3-8b\"\napi_key = \"from-file\"\n"
    ∃ c d, parse deskVariables text = .ok c ∧ load (desk text) deskVariables = .ok d ∧
      d.model = "gpt-4o" ∧ d.apiKey = some "from-file" := by
  intro text
  have hp : parse deskVariables text =
      .ok { default deskVariables with model := "qwen3-8b", apiKey := some "from-file" } := by
    decide +kernel
  have hr : (desk text).read? (path deskVariables) = some text := by decide +kernel
  refine ⟨_, _, hp, (load_ok_iff_overrides hr hp _).2 ⟨overrides_overridden _ _, ?_, ?_⟩, rfl, rfl⟩
  · decide +kernel
  · decide +kernel

/-- A blank model keeps the file from being loaded, although the environment names another and the
two make a valid configuration. -/
theorem blank_model_refused :
    let text := "model = \" \"\n"
    ∃ c d, parse deskVariables text = .ok c ∧ Overrides deskVariables c d ∧ d.fault? = none ∧
      load (desk text) deskVariables = .error (.invalid "model must not be empty") := by
  intro text
  refine ⟨{ default deskVariables with model := " " }, _, by decide +kernel,
    overrides_overridden _ _, by decide +kernel, by decide +kernel⟩

end Parley.Config
