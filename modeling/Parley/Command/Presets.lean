/-
The commands about presets: which there are, the tools of one, and the request that one of its
tools would send.
-/
import Parley.Agent.Setup
import Parley.Command.Report
import Parley.Json.Printer
import Parley.Text.Layout

namespace Parley.Command

/-- A line about a tool. -/
def describe (d : Definition) : String :=
  let summary := Text.firstLine d.description.description
  "  " ++ Text.column 24 d.name ++
    match d with
    | .universal _ _ => " universal  " ++ summary
    | .restApi _ b => " restapi    " ++ b.method.name ++ " " ++ b.baseUrl ++ "  " ++ summary

/-- The presets of a directory, or the tools of one of them. -/
def listPresets (c : Context) (preset dir : Option String) : Except Error String :=
  match c.config with
  | .error e => .error e
  | .ok config =>
    let dir := dir.getD config.presetDir
    match preset with
    | none =>
      match Preset.available c.files dir with
      | [] => .ok (Text.unlines ["No presets in " ++ dir])
      | names => .ok (Text.unlines names)
    | some preset =>
      match Preset.load c.files dir preset with
      | .error e => .error (.definition e)
      | .ok ds =>
        .ok (Text.unlines (("Preset \"" ++ preset ++ "\": " ++ toString ds.length ++ " tool(s)")
          :: ds.map describe))

/-- The arguments that a text holds; no text stands for none. -/
def readArguments : Option String → Except Error Arguments
  | none => .ok []
  | some text =>
    match Json.parse? text with
    | none => .error (.argsUnreadable .noJson)
    | some (.obj ms) => .ok ms
    | some v => .error (.argsNoObject v)

/-- The request with the credentials hidden and their scheme left. -/
def hideCredentials (r : Http.Request) : Http.Request :=
  match r.headers.get? Http.Authenticator.headerName with
  | none => r
  | some value =>
    let scheme := (Text.trimStart value.toList).takeWhile fun c => !Text.isBlank c
    Http.Authenticator.header Http.Authenticator.headerName
      (String.ofList scheme ++ " " ++ Config.hidden) r

/-- The request that a tool of a preset would send. -/
def planRequest (c : Context) (preset tool : String) (args dir : Option String) :
    Except Error String :=
  match c.config with
  | .error e => .error e
  | .ok config =>
    match Preset.load c.files (dir.getD config.presetDir) preset with
    | .error e => .error (.definition e)
    | .ok ds =>
      match ds.find? fun d => d.name = tool with
      | none => .error (.noTool preset tool)
      | some d =>
        match readArguments args with
        | .error e => .error e
        | .ok args =>
          match d.request (config.authenticator preset) args with
          | .error e => .error (.definition e)
          | .ok r => .ok (Text.unlines [(hideCredentials r).toJson.indented])

end Parley.Command
