/-
The configuration: which model an agent is made with, and the presets and the tool servers whose
tools it gets. It is read from a TOML file in a directory of the user, and some of it may be
overridden from the environment.
-/
import Parley.Files
import Parley.Mcp.Server
import Parley.Text.Blank
import Parley.Toml.Parser
import Parley.Toml.Printer

namespace Parley

open Json

/-- The values of the variables of the environment. -/
abbrev Environment := String → Option String

namespace Config

/-- The credentials for the requests of a preset: a token, and the scheme in front of it. -/
structure Credentials where
  token : String
  format : String
  deriving DecidableEq, Repr

/-- A tool server under the name that the user gives it; only the tools of the list are wanted,
or all when there is none. -/
structure Entry where
  name : String
  server : Mcp.Server
  tools : Option (List String)
  deriving DecidableEq, Repr

end Config

/-- A configuration. -/
structure Config where
  model : String
  apiKey : Option String
  device : Option Nat
  systemMessage : Option String
  enableReasoning : Bool
  ignoreReasoning : Bool
  presetDir : String
  presets : List String
  auth : Dictionary Config.Credentials
  servers : List Config.Entry
  deriving DecidableEq, Repr

namespace Config

/-- Why there is no configuration. -/
inductive Error where
  | unreadable (path reason : String)
  | unparsable (path reason : String)
  /-- A configuration that breaks a rule. -/
  | invalid (reason : String)
  deriving DecidableEq, Repr

/-- The text that reports the failure. -/
def Error.message : Error → String
  | .unreadable path reason => "Failed to read config file at " ++ path ++ ": " ++ reason
  | .unparsable path reason => "Failed to parse config file at " ++ path ++ ": " ++ reason
  | .invalid reason => "Configuration validation failed: " ++ reason

/-! ## Places -/

/-- The directory of the user, or one for all users when there is none. -/
def home (env : Environment) : String :=
  (env "HOME").getD "/tmp"

/-- The directory of the configuration. -/
def directory (env : Environment) : String :=
  Files.join (home env) ".toolweave"

/-- The file of the configuration. -/
def path (env : Environment) : String :=
  Files.join (directory env) "config.toml"

/-! ## Reading -/

/-- The model of a configuration that names none. -/
def defaultModel : String := "qwen3-8b"

/-- Where presets are looked for when the configuration does not say it. -/
def defaultPresetDir (env : Environment) : String :=
  Files.join (directory env) "presets"

/-- The configuration of a user without a file. -/
def default (env : Environment) : Config where
  model := defaultModel
  apiKey := none
  device := none
  systemMessage := none
  enableReasoning := false
  ignoreReasoning := false
  presetDir := defaultPresetDir env
  presets := []
  auth := []
  servers := []

/-- Reads credentials; the scheme may be left out. -/
def Credentials.decode : Decode Credentials :=
  Fields.decodeOpen
    (Credentials.mk <$> Fields.required "token" Decode.string
      <*> Fields.defaulted ["format"] Decode.string "Bearer")

/-- Credentials by the names of the presets that they are for. -/
def decodeAuth : Decode (Dictionary Credentials) := fun v =>
  (Decode.dictionary Credentials.decode v).map Dictionary.ofEntries

/-- Reads a server; it needs a name and a command. -/
def Entry.decode : Decode Entry :=
  Fields.decodeOpen
    ((fun name command args env cwd tools => Entry.mk name ⟨command, args, env, cwd⟩ tools)
      <$> Fields.required "name" Decode.string
      <*> Fields.required "command" Decode.string
      <*> Fields.defaulted ["args"] (Decode.list Decode.string) []
      <*> Fields.defaulted ["env"] Http.decodeTexts []
      <*> Fields.optional ["cwd"] Decode.string
      <*> Fields.optional ["tools"] (Decode.list Decode.string))

/-- Reads a configuration; every field may be left out. -/
def decode (env : Environment) : Decode Config :=
  let base := default env
  Fields.decodeOpen
    (Config.mk <$> Fields.defaulted ["model"] Decode.string base.model
      <*> Fields.optional ["api_key"] Decode.string
      <*> Fields.optional ["device"] (Decode.natural 32)
      <*> Fields.optional ["system_message"] Decode.string
      <*> Fields.defaulted ["enable_reasoning"] Decode.bool base.enableReasoning
      <*> Fields.defaulted ["ignore_reasoning_messages"] Decode.bool base.ignoreReasoning
      <*> Fields.defaulted ["preset_dir"] Decode.string base.presetDir
      <*> Fields.defaulted ["presets"] (Decode.list Decode.string) base.presets
      <*> Fields.defaulted ["auth"] decodeAuth base.auth
      <*> Fields.defaulted ["mcp_servers"] (Decode.list Entry.decode) base.servers)

/-- The configuration that a text holds, or what is wrong with the text. -/
def parse (env : Environment) (text : String) : Except String Config :=
  match Toml.parse? text with
  | none => .error "the text is not TOML"
  | some t => (decode env t.toJson).mapError Fault.message

/-! ## Rules -/

/-- The first fault of tool servers, when those of some names stand in front of them: every one
needs a command and a name of its own. -/
def serverFault? (names : List String) : List Entry → Option String
  | [] => none
  | e :: es =>
    if Text.isBlankText e.server.command then
      some ("mcp server '" ++ e.name ++ "' has an empty command")
    else if names.contains e.name then some ("duplicate mcp server name '" ++ e.name ++ "'")
    else serverFault? (e.name :: names) es

/-- The first fault of a configuration. -/
def fault? (c : Config) : Option String :=
  if Text.isBlankText c.model then some "model must not be empty"
  else
    (serverFault? [] c.servers).or
      ((c.auth.find? fun e => e.2.token.isEmpty).map fun e =>
        "auth token for preset '" ++ e.1 ++ "' is empty")

/-- The configuration, if it breaks no rule. -/
def validated (c : Config) : Except Error Config :=
  match c.fault? with
  | none => .ok c
  | some reason => .error (.invalid reason)

/-! ## Loading -/

/-- The valid configuration that the file of the user holds, or the default one. -/
def ofFile (fs : Files) (env : Environment) : Except Error Config :=
  match fs.read? (path env) with
  | some text =>
    match parse env text with
    | .ok c => c.validated
    | .error reason => .error (.unparsable (path env) reason)
  | none =>
    if fs.isDirectory (path env) then .error (.unreadable (path env) "it is not a readable file")
    else .ok (default env)

/-- What the environment says goes before the file, except for the key: that of the file
stays. -/
def overridden (c : Config) (env : Environment) : Config :=
  { c with
    model := (env "TOOLWEAVE_MODEL").getD c.model
    apiKey := c.apiKey.or ((env "TOOLWEAVE_API_KEY").or (env "OPENAI_API_KEY"))
    presetDir := (env "TOOLWEAVE_PRESET_DIR").getD c.presetDir }

/-- The configuration that is in force. -/
def load (fs : Files) (env : Environment) : Except Error Config :=
  match ofFile fs env with
  | .error e => .error e
  | .ok c => (c.overridden env).validated

/-! ## Writing -/

/-- Credentials as they are written. -/
def Credentials.toToml (c : Credentials) : Toml :=
  .table [("token", .str c.token), ("format", .str c.format)]

/-- The entries of a table whose absent ones are left out. -/
def compact (es : List (String × Option Toml)) : List (String × Toml) :=
  es.filterMap fun (k, v) => v.map (k, ·)

/-- A list of texts. -/
def texts (xs : List String) : Toml :=
  .arr (xs.map .str)

/-- A server as it is written. -/
def Entry.toToml (e : Entry) : Toml :=
  .table (compact
    [("name", some (.str e.name)), ("command", some (.str e.server.command)),
      ("args", some (texts e.server.args)),
      ("env", some (.table (e.server.env.map fun v => (v.1, .str v.2)))),
      ("cwd", e.server.cwd.map .str), ("tools", e.tools.map texts)])

/-- The entries of the file of a configuration. -/
def entries (c : Config) : List (String × Toml) :=
  compact
    [("model", some (.str c.model)), ("api_key", c.apiKey.map .str),
      ("device", c.device.map fun n => .int n), ("system_message", c.systemMessage.map .str),
      ("enable_reasoning", some (.bool c.enableReasoning)),
      ("ignore_reasoning_messages", some (.bool c.ignoreReasoning)),
      ("preset_dir", some (.str c.presetDir)), ("presets", some (texts c.presets)),
      ("auth", some (.table (c.auth.map fun e => (e.1, e.2.toToml)))),
      ("mcp_servers", some (.arr (c.servers.map Entry.toToml)))]

/-- The file of a configuration. -/
def document (c : Config) : String :=
  Toml.document c.entries

/-- What stands in the place of a secret. -/
def hidden : String := "[REDACTED]"

/-- The configuration without its secrets. -/
def redacted (c : Config) : Config :=
  { c with
    apiKey := c.apiKey.map fun _ => hidden
    auth := c.auth.map fun e => (e.1, { e.2 with token := hidden }) }

end Config

end Parley
