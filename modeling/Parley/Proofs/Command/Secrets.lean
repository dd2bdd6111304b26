/-
What the commands about the configuration show of its secrets, which are its key and its tokens. A
secret may stand in the file, and the key in the environment as well. Two users whose files and
environments are the same but for secrets have configurations that are the same but for secrets
(`Context.SameButSecrets.load`), and no line that is shown tells the two apart (`secrets_unshown`):
of the key it matters only whether there is one, and of a token only that it is not empty. Nor does
it matter in which order the credentials are listed, as long as it is one order for both.
-/
import Parley.Command
import Parley.Proofs.Config.Validity
import Parley.Proofs.Config.WellFormed
import Parley.Proofs.Dictionary
import Mathlib.Data.List.Forall2
import Mathlib.Data.List.Perm.Basic

namespace Parley

namespace Config

/-! ## Configurations that are the same but for secrets -/

/-- Credentials for one preset with one scheme, whatever the token is. -/
def SameScheme (e₁ e₂ : String × Credentials) : Prop :=
  e₁.1 = e₂.1 ∧ e₁.2.format = e₂.2.format

theorem names_eq_of_sameScheme {auth₁ auth₂ : Dictionary Credentials}
    (h : List.Forall₂ SameScheme auth₁ auth₂) : auth₁.map Prod.fst = auth₂.map Prod.fst := by
  rw [← List.forall₂_eq_eq_eq, List.forall₂_map_left_iff, List.forall₂_map_right_iff]
  exact h.imp fun _ _ he => he.1

/-- Two configurations that have credentials for the same presets, in one order and with the same
schemes, and the same in every other field but the key. -/
structure SameButSecrets (g₁ g₂ : Config) : Prop where
  auth : List.Forall₂ SameScheme g₁.auth g₂.auth
  others : g₂ = { g₁ with apiKey := g₂.apiKey, auth := g₂.auth }

/-- The credentials may be listed in any order that is the same for both. -/
theorem SameButSecrets.listed {g₁ g₂ : Config} (h : g₁.SameButSecrets g₂)
    (hn : (g₂.auth.map Prod.fst).Nodup) {l₁ l₂ : Dictionary Credentials} (h₁ : l₁.Perm g₁.auth)
    (h₂ : l₂.Perm g₂.auth) (hnames : l₁.map Prod.fst = l₂.map Prod.fst) :
    { g₁ with auth := l₁ }.SameButSecrets { g₂ with auth := l₂ } := by
  obtain ⟨l, hsame, hl⟩ := List.perm_comp_forall₂ h₁ h.auth
  have hl₁ : l₁.map Prod.fst = l.map Prod.fst := names_eq_of_sameScheme hsame
  obtain rfl : l = l₂ := Dictionary.eq_of_perm_of_names hn hl h₂ (hl₁.symm.trans hnames)
  refine ⟨hsame, ?_⟩
  show { g₂ with auth := l } = { g₁ with apiKey := g₂.apiKey, auth := l }
  rw [h.others]

/-- Two environments that differ at most in the two variables that a key may stand in. -/
def SameButKeys (env₁ env₂ : Environment) : Prop :=
  ∀ name, name ≠ "TOOLWEAVE_API_KEY" → name ≠ "OPENAI_API_KEY" → env₁ name = env₂ name

section Alike

variable {env₁ env₂ : Environment} {fs₁ fs₂ : Files} {g₁ g₂ : Config}

/-! ## Loading -/

/-- The environments may give different keys, or none. -/
theorem SameButSecrets.overridden (h : g₁.SameButSecrets g₂) (henv : SameButKeys env₁ env₂) :
    (g₁.overridden env₁).SameButSecrets (g₂.overridden env₂) := by
  have hmodel : env₁ "TOOLWEAVE_MODEL" = env₂ "TOOLWEAVE_MODEL" := henv _ (by decide) (by decide)
  have hdir : env₁ "TOOLWEAVE_PRESET_DIR" = env₂ "TOOLWEAVE_PRESET_DIR" :=
    henv _ (by decide) (by decide)
  obtain ⟨hauth, hothers⟩ := h
  refine ⟨hauth, ?_⟩
  unfold Config.overridden
  rw [hothers, hmodel, hdir]

/-- Tokens that are not empty make no fault, so a fault is one of the fields that both have. -/
theorem SameButSecrets.fault?_eq (h : g₁.SameButSecrets g₂)
    (h₁ : ∀ e ∈ g₁.auth, e.2.token ≠ "") (h₂ : ∀ e ∈ g₂.auth, e.2.token ≠ "") :
    g₁.fault? = g₂.fault? := by
  have hnone {auth : Dictionary Credentials} (h : ∀ e ∈ auth, e.2.token ≠ "") :
      (auth.find? fun e => e.2.token.isEmpty) = none := by
    rw [List.find?_eq_none]
    exact fun e he => mt String.isEmpty_iff.1 (h e he)
  have hmodel : g₂.model = g₁.model := by rw [h.others]
  have hservers : g₂.servers = g₁.servers := by rw [h.others]
  unfold fault?
  rw [hnone h₁, hnone h₂, hmodel, hservers]

/-- The file of a user holds a valid configuration, or there is none and the default one is
valid. -/
theorem rules_of_ofFile {fs : Files} {env : Environment} {g : Config} (h : ofFile fs env = .ok g) :
    g.Rules := by
  rw [← fault?_eq_none_iff_rules]
  unfold ofFile at h
  split at h
  · split at h
    · obtain ⟨hvalid, rfl⟩ := validated_eq_ok_iff.1 h
      exact hvalid
    · cases h
  · split at h
    · cases h
    · cases h
      have hmodel : Text.isBlankText defaultModel = false := by decide
      exact (fault?_eq_none_iff _).2 ⟨hmodel, rfl, rfl⟩

end Alike

end Config

namespace Command

/-- Two users that are the same but for secrets: the files hold valid configurations of this kind
(or are not there), and the environments are of this kind. Both have a key or neither has one,
wherever it stands; and the same paths lead to directories. -/
structure Context.SameButSecrets (c₁ c₂ : Context) (g₁ g₂ : Config) : Prop where
  file₁ : Config.ofFile c₁.files c₁.env = .ok g₁
  file₂ : Config.ofFile c₂.files c₂.env = .ok g₂
  files : g₁.SameButSecrets g₂
  environments : Config.SameButKeys c₁.env c₂.env
  keys : (g₁.overridden c₁.env).apiKey.isSome = (g₂.overridden c₂.env).apiKey.isSome
  directories : ∀ dir, c₁.files.isDirectory dir = c₂.files.isDirectory dir

section Alike

variable {c₁ c₂ : Context} {g₁ g₂ : Config}

/-- What is loaded are configurations that are the same but for secrets, or one failure. -/
theorem Context.SameButSecrets.load (h : c₁.SameButSecrets c₂ g₁ g₂) :
    (∃ e, Config.load c₁.files c₁.env = .error e ∧ Config.load c₂.files c₂.env = .error e) ∨
      ∃ d₁ d₂, Config.load c₁.files c₁.env = .ok d₁ ∧ Config.load c₂.files c₂.env = .ok d₂ ∧
        d₁.SameButSecrets d₂ ∧ d₁.apiKey.isSome = d₂.apiKey.isSome := by
  have halike := h.files.overridden h.environments
  have hfault := halike.fault?_eq (Config.rules_of_ofFile h.file₁).tokens
    (Config.rules_of_ofFile h.file₂).tokens
  have hload {fs : Files} {env : Environment} {g : Config} (hg : Config.ofFile fs env = .ok g) :
      Config.load fs env = (g.overridden env).validated := by
    unfold Config.load
    rw [hg]
  rw [hload h.file₁, hload h.file₂]
  unfold Config.validated
  rw [← hfault]
  cases (g₁.overridden c₁.env).fault? with
  | some reason => exact .inl ⟨_, rfl, rfl⟩
  | none => exact .inr ⟨_, _, rfl, rfl, halike, h.keys⟩

/-! ## What is shown -/

theorem redacted_eq (h : g₁.SameButSecrets g₂) (hkey : g₁.apiKey.isSome = g₂.apiKey.isSome) :
    g₁.redacted = g₂.redacted := by
  have hauth : (g₁.auth.map fun e => (e.1, { e.2 with token := Config.hidden })) =
      g₂.auth.map fun e => (e.1, { e.2 with token := Config.hidden }) := by
    rw [← List.forall₂_eq_eq_eq, List.forall₂_map_left_iff, List.forall₂_map_right_iff]
    exact h.auth.imp fun e₁ e₂ he =>
      Prod.ext he.1 (congrArg (Config.Credentials.mk Config.hidden) he.2)
  have hapi : (g₁.apiKey.map fun _ => Config.hidden) = g₂.apiKey.map fun _ => Config.hidden := by
    cases h₁ : g₁.apiKey <;> cases h₂ : g₂.apiKey <;> simp [h₁, h₂] at hkey ⊢
  unfold Config.redacted
  rw [hauth, hapi, h.others]

/-- The warnings are about fields that are no secrets, and about whether there is a key. -/
theorem warnings_eq (h : g₁.SameButSecrets g₂) (hkey : g₁.apiKey.isSome = g₂.apiKey.isSome)
    {fs₁ fs₂ : Files} (hdir : ∀ dir, fs₁.isDirectory dir = fs₂.isDirectory dir) :
    warnings fs₁ g₁ = warnings fs₂ g₂ := by
  have hmodel : g₂.model = g₁.model := by rw [h.others]
  have hpresetDir : g₂.presetDir = g₁.presetDir := by rw [h.others]
  have hpresets : g₂.presets = g₁.presets := by rw [h.others]
  have hnone : g₁.apiKey.isNone = g₂.apiKey.isNone := by
    rw [← Option.not_isSome, ← Option.not_isSome, hkey]
  have hnames : g₁.auth.map Prod.fst = g₂.auth.map Prod.fst :=
    Config.names_eq_of_sameScheme h.auth
  -- of credentials only the names of their presets are looked at
  have hunused (auth : Dictionary Config.Credentials) (presets : List String)
      (line : String → String) :
      ((auth.filter fun e => !presets.contains e.1).map fun e => line e.1) =
        ((auth.map Prod.fst).filter fun name => !presets.contains name).map line := by
    rw [List.filter_map, List.map_map]
    rfl
  have hwarning : modelWarning? g₁ = modelWarning? g₂ := by
    unfold modelWarning?
    rw [hmodel, hnone]
  unfold warnings
  rw [hwarning, hdir, hpresetDir, hpresets,
    hunused _ _ fun name => "Credentials for preset \"" ++ name ++ "\" are never used",
    hunused _ _ fun name => "Credentials for preset \"" ++ name ++ "\" are never used", hnames]

theorem shown_eq (h : g₁.SameButSecrets g₂) (hkey : g₁.apiKey.isSome = g₂.apiKey.isSome) :
    shown g₁ = shown g₂ := by
  unfold shown
  rw [redacted_eq h hkey]

theorem checked_eq (h : g₁.SameButSecrets g₂) (hkey : g₁.apiKey.isSome = g₂.apiKey.isSome)
    {fs₁ fs₂ : Files} (hdir : ∀ dir, fs₁.isDirectory dir = fs₂.isDirectory dir) :
    checked fs₁ g₁ = checked fs₂ g₂ := by
  have hmodel : g₂.model = g₁.model := by rw [h.others]
  have hpresets : g₂.presets = g₁.presets := by rw [h.others]
  have hservers : g₂.servers = g₁.servers := by rw [h.others]
  unfold checked
  rw [warnings_eq h hkey hdir, hmodel, hpresets, hservers]

/-- Users that are the same but for secrets are shown the same configuration, and the same is found
to be wrong with it. The same goes for the texts of the configurations in force when their
credentials are listed in any other order, if it is one order for both. -/
theorem secrets_unshown (h : c₁.SameButSecrets c₂ g₁ g₂) :
    (configShow.run c₁ = configShow.run c₂ ∧ configValidate.run c₁ = configValidate.run c₂) ∧
    ∀ d₁ d₂, Config.load c₁.files c₁.env = .ok d₁ → Config.load c₂.files c₂.env = .ok d₂ →
      ∀ l₁ l₂ : Dictionary Config.Credentials, l₁.Perm d₁.auth → l₂.Perm d₂.auth →
        l₁.map Prod.fst = l₂.map Prod.fst →
          shown { d₁ with auth := l₁ } = shown { d₂ with auth := l₂ } ∧
            checked c₁.files { d₁ with auth := l₁ } = checked c₂.files { d₂ with auth := l₂ } := by
  rcases h.load with ⟨e, h₁, h₂⟩ | ⟨d₁, d₂, h₁, h₂, halike, hkey⟩
  · constructor
    · unfold run showConfig Context.config validateConfig
      rw [h₁, h₂]
      exact ⟨rfl, rfl⟩
    · intro d₁ _ hd₁
      rw [h₁] at hd₁
      cases hd₁
  · constructor
    · unfold run showConfig Context.config validateConfig
      rw [h₁, h₂]
      dsimp only [Except.mapError, Except.map]
      rw [shown_eq halike hkey, checked_eq halike hkey h.directories]
      exact ⟨rfl, rfl⟩
    · intro _ _ hd₁ hd₂ l₁ l₂ hl₁ hl₂ hnames
      obtain rfl : d₁ = _ := Except.ok.inj (h₁.symm.trans hd₁)
      obtain rfl : d₂ = _ := Except.ok.inj (h₂.symm.trans hd₂)
      have hlisted := halike.listed (Config.wf_of_load h₂).auth.nodup hl₁ hl₂ hnames
      exact ⟨shown_eq hlisted hkey, checked_eq hlisted hkey h.directories⟩

end Alike

/-- A user with tokens for films and for books, and a key in the file, in the environment or in
both. -/
def keyHolder (keyLine token : String) (key : Option String) : Context where
  files := ⟨[(["home", ".toolweave", "config.toml"],
    keyLine ++ "model = \"gpt-4o\"\n[auth.films]\ntoken = \"" ++ token ++ "\"\n" ++
    "[auth.books]\ntoken = \"b-" ++ token ++ "\"\n")], []⟩
  env name :=
    if name = "HOME" then some "/home" else if name = "OPENAI_API_KEY" then key else none
  connector _ server := .error (.spawn server.command "no such file")

/-- What the file of the user holds. -/
def keyHolderConfig (key : Option String) (token : String) : Config :=
  { Config.default (keyHolder "" token none).env with
    model := "gpt-4o"
    apiKey := key
    auth := [("books", ⟨"b-" ++ token, "Bearer"⟩), ("films", ⟨token, "Bearer"⟩)] }

/-- One user has the key in the file and the other in the environment, and their tokens differ. Both
are shown one text, also when the films are listed first. -/
theorem key_places_unshown :
    let one := keyHolder "api_key = \"sk-one\"\n" "first" none
    let two := keyHolder "" "second" (some "sk-two")
    let filmsFirst (c : Config) : Config := { c with auth := c.auth.reverse }
    one.SameButSecrets two (keyHolderConfig (some "sk-one") "first")
        (keyHolderConfig none "second") ∧
      configShow.run one = configShow.run two ∧
      configValidate.run one = configValidate.run two ∧
      shown (filmsFirst (keyHolderConfig (some "sk-one") "first")) =
        shown (filmsFirst (keyHolderConfig (some "sk-two") "second")) ∧
      (configShow.run one).output =
        "model = \"gpt-4o\"\napi_key = \"[REDACTED]\"\nenable_reasoning = false\n" ++
        "ignore_reasoning_messages = false\npreset_dir = \"/home/.toolweave/presets\"\n" ++
        "presets = []\nmcp_servers = []\n\n" ++
        "[auth.books]\ntoken = \"[REDACTED]\"\nformat = \"Bearer\"\n\n" ++
        "[auth.films]\ntoken = \"[REDACTED]\"\nformat = \"Bearer\"\n\n" := by
  intro one two filmsFirst
  have hfile₁ : Config.ofFile one.files one.env =
      .ok (keyHolderConfig (some "sk-one") "first") := by decide +kernel
  have hfile₂ : Config.ofFile two.files two.env = .ok (keyHolderConfig none "second") := by
    decide +kernel
  have h : one.SameButSecrets two (keyHolderConfig (some "sk-one") "first")
      (keyHolderConfig none "second") :=
    { file₁ := hfile₁
      file₂ := hfile₂
      files := ⟨.cons ⟨rfl, rfl⟩ (.cons ⟨rfl, rfl⟩ .nil), rfl⟩
      environments := fun name h₁ h₂ => by simp only [one, two, keyHolder, if_neg h₂]
      keys := by decide +kernel
      directories := fun dir => rfl }
  have h₁ : Config.load one.files one.env = .ok (keyHolderConfig (some "sk-one") "first") := by
    unfold Config.load
    rw [hfile₁]
    decide +kernel
  have h₂ : Config.load two.files two.env = .ok (keyHolderConfig (some "sk-two") "second") := by
    unfold Config.load
    rw [hfile₂]
    decide +kernel
  obtain ⟨⟨hshow, hvalidate⟩, hlisted⟩ := secrets_unshown h
  obtain ⟨hshown, -⟩ := hlisted _ _ h₁ h₂ _ _ (List.reverse_perm _) (List.reverse_perm _) rfl
  refine ⟨h, hshow, hvalidate, hshown, ?_⟩
  unfold run showConfig Context.config
  rw [h₁]
  decide +kernel

end Command

end Parley
