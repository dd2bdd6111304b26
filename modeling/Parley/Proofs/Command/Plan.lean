/-
What a plan shows of credentials. A plan is the request that a tool of a preset would send, made as
the configuration says and printed with its credentials hidden. Which request it is made of does not
depend on any token (`planRequest_eq`), so two configurations that differ in tokens only print the
same unless the hidden header itself tells them apart. It does where the format of the credentials
is blank, for then the word that is left of the header is the first one of the token.
-/
import Parley.Command
import Parley.Proofs.Http.Headers

namespace Parley

namespace Config

/-! ## Configurations that differ in tokens -/

/-- The configuration with every token left blank. -/
def withoutTokens (g : Config) : Config :=
  { g with auth := g.auth.map fun e => (e.1, { e.2 with token := "" }) }

/-- What a plan shows of the token of a preset. -/
def exposed? (g : Config) (preset : String) : Option (List Char) :=
  match g.auth.get? preset with
  | none => none
  | some a => if Text.isBlankText a.format then some (Text.firstWord a.token.toList) else none

theorem get?_withoutTokens (g : Config) (preset : String) :
    g.withoutTokens.auth.get? preset = (g.auth.get? preset).map fun a => { a with token := "" } :=
  Dictionary.get?_map g.auth (fun a => Credentials.mk "" a.format) preset

section Alike

variable {g₁ g₂ : Config} (h : g₁.withoutTokens = g₂.withoutTokens) (preset : String)

include h

theorem presetDir_eq : g₁.presetDir = g₂.presetDir :=
  (Config.mk.inj h).2.2.2.2.2.2.1

theorem get?_auth_eq_none_iff : g₁.auth.get? preset = none ↔ g₂.auth.get? preset = none := by
  have hget := g₁.get?_withoutTokens preset
  rw [h, get?_withoutTokens] at hget
  rw [← Option.map_eq_none_iff, ← hget, Option.map_eq_none_iff]

theorem format_eq {a₁ a₂ : Credentials} (h₁ : g₁.auth.get? preset = some a₁)
    (h₂ : g₂.auth.get? preset = some a₂) : a₁.format = a₂.format := by
  have hget := g₁.get?_withoutTokens preset
  rw [h, get?_withoutTokens, h₁, h₂] at hget
  simp only [Option.map_some, Option.some.injEq, Credentials.mk.injEq, true_and] at hget
  exact hget.symm

end Alike

end Config

namespace Command

open Http

/-! ## What a plan is made of -/

/-- The tool of a preset that makes requests, and the arguments of the call. -/
def draft (files : Files) (dir preset tool : String) (args : Option String) :
    Except Error (Definition.Rest × Arguments) :=
  match Preset.load files dir preset with
  | .error e => .error (.definition e)
  | .ok ds =>
    match ds.find? fun d => d.name = tool with
    | none => .error (.noTool preset tool)
    | some d =>
      match readArguments args with
      | .error e => .error e
      | .ok args =>
        match d.restApi? with
        | .error e => .error (.definition e)
        | .ok (_, b) =>
          match Definition.compilePath b.outputPath with
          | .error e => .error (.definition e)
          | .ok _ => .ok (b, args)

/-- The text of a plan. -/
def planText (g : Config) (preset : String) (b : Definition.Rest) (args : Arguments) : String :=
  Text.unlines [(hideCredentials (b.request (g.authenticator preset) args)).toJson.indented]

theorem planRequest_eq {c : Context} {g : Config} (h : c.config = .ok g)
    (preset tool : String) (args dir : Option String) :
    planRequest c preset tool args dir =
      (draft c.files (dir.getD g.presetDir) preset tool args).map fun p =>
        planText g preset p.1 p.2 := by
  unfold planRequest draft
  rw [h]
  dsimp only
  cases Preset.load c.files (dir.getD g.presetDir) preset with
  | error e => rfl
  | ok ds =>
    dsimp only
    cases ds.find? fun d => d.name = tool with
    | none => rfl
    | some d =>
      dsimp only
      cases readArguments args with
      | error e => rfl
      | ok as =>
        dsimp only
        unfold Definition.request
        cases d.restApi? with
        | error e => rfl
        | ok p =>
          dsimp only
          cases Definition.compilePath p.2.outputPath <;> rfl

theorem unlines_inj {s t : String} (h : Text.unlines [s] = Text.unlines [t]) : s = t := by
  have hlist := congrArg String.toList h
  simp only [Text.unlines, List.map_cons, List.map_nil, String.join, List.foldl_cons,
    List.foldl_nil, String.toList_append] at hlist
  exact String.toList_inj.1 (List.append_cancel_right (List.append_cancel_left hlist))

section Alike

variable {g₁ g₂ : Config} (h : g₁.withoutTokens = g₂.withoutTokens)

include h

/-- Two plans of one request are the same where nothing is shown of the tokens, or the same. -/
theorem planText_eq_iff (preset : String) (b : Definition.Rest) (args : Arguments) :
    planText g₁ preset b args = planText g₂ preset b args ↔
      g₁.exposed? preset = g₂.exposed? preset := by
  unfold planText Config.exposed? Config.authenticator
  cases h₁ : g₁.auth.get? preset with
  | none =>
    rw [(Config.get?_auth_eq_none_iff h preset).1 h₁]
    exact iff_of_true rfl rfl
  | some a₁ =>
    cases h₂ : g₂.auth.get? preset with
    | none =>
      rw [(Config.get?_auth_eq_none_iff h preset).2 h₂] at h₁
      cases h₁
    | some a₂ =>
      have hformat := Config.format_eq h preset h₁ h₂
      let shown (lead : List Char) : Http.Request :=
        Authenticator.header Authenticator.headerName
          (String.ofList lead ++ " " ++ Config.hidden) (b.plainRequest args)
      -- the text of a plan shows the first word of the header and depends on nothing else
      have hlead : Text.unlines [(shown a₁.lead).toJson.indented] =
          Text.unlines [(shown a₂.lead).toJson.indented] ↔ a₁.lead = a₂.lead := by
        refine ⟨fun heq => ?_, fun heq => by rw [heq]⟩
        have hchars := String.ofList_injective (unlines_inj heq)
        have hvalue := (displays_header Authenticator.headerName (b.plainRequest args)).injective
          hchars
        have hlist := congrArg String.toList hvalue
        simpa [String.toList_append] using hlist
      simp only [Option.map_some, Definition.Rest.request, hideCredentials_bearer]
      refine hlead.trans ?_
      unfold Config.Credentials.lead
      rw [hformat]
      split
      · rw [Option.some.injEq]
      · exact iff_of_true rfl rfl

end Alike

theorem draft_congr {files₁ files₂ : Files} {dir preset : String}
    (h : files₁.read? (Files.join dir (preset ++ "." ++ Preset.extension)) =
      files₂.read? (Files.join dir (preset ++ "." ++ Preset.extension)))
    (tool : String) (args : Option String) :
    draft files₁ dir preset tool args = draft files₂ dir preset tool args := by
  unfold draft Preset.load
  rw [h]

/-- Two valid configurations that differ in tokens only, and that find the same preset, have the
same plan exactly where it fails or shows the same of the token of the preset, so always where the
format of the credentials is not blank. A plan that does not fail is the text of a request that
resembles the one the tool sends. -/
theorem plan_same_iff (preset tool : String) (args dir : Option String) {c₁ c₂ : Context}
    {g₁ g₂ : Config} (h₁ : Config.load c₁.files c₁.env = .ok g₁)
    (h₂ : Config.load c₂.files c₂.env = .ok g₂) (htokens : g₁.withoutTokens = g₂.withoutTokens)
    (hfile : c₁.files.read? (Files.join (dir.getD g₁.presetDir) (preset ++ "." ++ Preset.extension)) =
      c₂.files.read? (Files.join (dir.getD g₁.presetDir) (preset ++ "." ++ Preset.extension))) :
    ((presetPlan preset tool args dir).run c₁ = (presetPlan preset tool args dir).run c₂ ↔
      ((presetPlan preset tool args dir).run c₁).failure ≠ none ∨
        g₁.exposed? preset = g₂.exposed? preset) ∧
    ∀ b as, draft c₁.files (dir.getD g₁.presetDir) preset tool args = .ok (b, as) →
      ∃ shown : Http.Request, shown.Resembles (b.request (g₁.authenticator preset) as) ∧
        (presetPlan preset tool args dir).run c₁ = ⟨Text.unlines [shown.toJson.indented], none⟩ := by
  have hc₁ : c₁.config = .ok g₁ := by rw [Context.config, h₁]; rfl
  have hc₂ : c₂.config = .ok g₂ := by rw [Context.config, h₂]; rfl
  -- both plans are made of one draft
  simp only [run, planRequest_eq hc₁, planRequest_eq hc₂, ← Config.presetDir_eq htokens,
    ← draft_congr hfile]
  cases draft c₁.files (dir.getD g₁.presetDir) preset tool args with
  | error e =>
    simp only [Except.map, Report.of]
    exact ⟨iff_of_true trivial (.inl (Option.some_ne_none e)), fun _ _ h => nomatch h⟩
  | ok p =>
    simp only [Except.map, Report.of, Report.mk.injEq, and_true, planText_eq_iff htokens]
    constructor
    · exact ⟨.inr, fun h => h.resolve_left fun hn => hn rfl⟩
    · rintro b as ⟨⟩
      exact ⟨_, hideCredentials_resembles _, rfl⟩

/-- A user with credentials for a preset of one tool. -/
def desk (token format : String) : Context where
  files :=
    { entries :=
        [(["home", ".toolweave", "config.toml"],
            "[auth.films]\ntoken = \"" ++ token ++ "\"\nformat = \"" ++ format ++ "\"\n"),
          (["home", ".toolweave", "presets", "films.json"],
            (Json.obj [("find", .obj [("type", .str "restapi"),
              ("description", .obj [("name", .str "find")]),
              ("behavior", .obj [("baseURL", .str "https://h"), ("method", .str "GET")])])]).text)]
      directories := [] }
  env name := if name = "HOME" then some "/home" else none
  connector _ server := .error (.spawn server.command "no such file")

/-- The configuration of the user. -/
def deskConfig (token format : String) : Config :=
  { Config.default (desk token format).env with auth := [("films", ⟨token, format⟩)] }

theorem ok_of_toOption {ε α : Type} {x : Except ε α} {a : α} (h : x.toOption = some a) :
    x = .ok a := by
  cases x with
  | error e => cases h
  | ok b => exact congrArg _ (Option.some.inj h)

/-- The plan of the tool. -/
def deskPlan : Command := presetPlan "films" "find" none none

/-- Tokens behind the name of a scheme are not told apart. -/
theorem named_scheme_hides_token :
    Config.load (desk "one 1" "Token").files (desk "one 1" "Token").env =
      .ok (deskConfig "one 1" "Token") ∧
    Config.load (desk "two 2" "Token").files (desk "two 2" "Token").env =
      .ok (deskConfig "two 2" "Token") ∧
    (deskPlan.run (desk "one 1" "Token")).failure.isNone ∧
    deskPlan.run (desk "one 1" "Token") = deskPlan.run (desk "two 2" "Token") := by
  have h₁ : Config.load (desk "one 1" "Token").files (desk "one 1" "Token").env =
    .ok (deskConfig "one 1" "Token") := ok_of_toOption (by decide +kernel)
  have h₂ : Config.load (desk "two 2" "Token").files (desk "two 2" "Token").env =
    .ok (deskConfig "two 2" "Token") := ok_of_toOption (by decide +kernel)
  have hplan := plan_same_iff "films" "find" none none h₁ h₂ (by decide +kernel) (by decide +kernel)
  exact ⟨h₁, h₂, by decide +kernel, hplan.1.2 (.inr (by decide +kernel))⟩

/-- Tokens behind a blank scheme are: the first word of each is printed. -/
theorem blank_scheme_shows_token :
    Config.load (desk "one 1" "").files (desk "one 1" "").env = .ok (deskConfig "one 1" "") ∧
    Config.load (desk "two 2" "").files (desk "two 2" "").env = .ok (deskConfig "two 2" "") ∧
    (deskConfig "one 1" "").withoutTokens = (deskConfig "two 2" "").withoutTokens ∧
    deskPlan.run (desk "one 1" "") ≠ deskPlan.run (desk "two 2" "") := by
  refine ⟨ok_of_toOption (by decide +kernel), ok_of_toOption (by decide +kernel),
    by decide +kernel, fun h => ?_⟩
  have houtput := congrArg Report.output h
  revert houtput
  decide +kernel

end Command

end Parley
