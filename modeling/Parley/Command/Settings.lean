/-
The commands about the configuration.
-/
import Parley.Command.Report
import Parley.Model
import Parley.Text.Layout

namespace Parley.Command

/-- Where the configuration is. -/
def showPath (c : Context) : String :=
  Text.unlines [Config.path c.env]

/-- The text that shows a configuration, without its secrets. -/
def shown (config : Config) : String :=
  Text.unlines [config.redacted.document]

/-- The configuration that is in force. -/
def showConfig (c : Context) : Except Error String :=
  c.config.map shown

/-- What is wrong with the model of a configuration. -/
def modelWarning? (config : Config) : Option String :=
  match Model.find config.model with
  | .error e => some e.message
  | .ok m =>
    if m.required.contains .apiKey && config.apiKey.isNone then
      some ("Model \"" ++ config.model
        ++ "\" needs an API key (set TOOLWEAVE_API_KEY or OPENAI_API_KEY)")
    else none

/-- What is not as it should be with a configuration that is valid. -/
def warnings (fs : Files) (config : Config) : List String :=
  (modelWarning? config).toList
    ++ (if fs.isDirectory config.presetDir then []
      else ["Preset directory " ++ config.presetDir ++ " does not exist"])
    ++ (config.auth.filter fun e => !config.presets.contains e.1).map fun e =>
      "Credentials for preset \"" ++ e.1 ++ "\" are never used"

/-- The lines about the warnings. -/
def warningLines : List String → List String
  | [] => ["   All checks passed"]
  | ws => "" :: ws.map ("   warning: " ++ ·)

/-- What a check begins with. -/
def checkStart : String := "Validating configuration..."

/-- The text of the check of a valid configuration. -/
def checked (fs : Files) (config : Config) : String :=
  Text.unlines ([checkStart, "   Config parsed successfully"]
    ++ warningLines (warnings fs config)
    ++ ["", "   Model:        " ++ config.model,
      "   Presets:      " ++ String.intercalate ", " config.presets,
      "   MCP servers:  " ++ toString config.servers.length])

/-- Checks the configuration. -/
def validateConfig (c : Context) : Report :=
  match Config.load c.files c.env with
  | .error e => ⟨Text.unlines [checkStart, "   Config error: " ++ e.message], some (.config e)⟩
  | .ok config => ⟨checked c.files config, none⟩

end Parley.Command
