/-
The commands of the program.
-/
import Parley.Command.Models
import Parley.Command.Presets
import Parley.Command.Servers
import Parley.Command.Settings

namespace Parley

/-- A command. -/
inductive Command where
  | models
  | configPath
  | configShow
  | configValidate
  | presetList (preset dir : Option String)
  | presetPlan (preset tool : String) (args dir : Option String)
  | serverList
  | toolList (server : Option String) (command : List String)
  deriving DecidableEq, Repr

namespace Command

/-- What comes of a command. -/
def run (command : Command) (c : Context) : Report :=
  match command with
  | .models => .of (.ok modelTable)
  | .configPath => .of (.ok (showPath c))
  | .configShow => .of (showConfig c)
  | .configValidate => validateConfig c
  | .presetList preset dir => .of (listPresets c preset dir)
  | .presetPlan preset tool args dir => .of (planRequest c preset tool args dir)
  | .serverList => .of (listServers c)
  | .toolList server command => .of (listTools c server command)

/-! ## Reading a command -/

/-- Options and the words between them, as they are given to a command. -/
structure Words where
  words : List String
  options : List (String × String)

/-- Parts options with their values from other words. -/
def Words.of (names : List (String × String)) : List String → Option Words
  | [] => some ⟨[], []⟩
  | w :: ws =>
    match names.lookup w with
    | some option =>
      match ws with
      | v :: ws => (Words.of names ws).map fun r => { r with options := (option, v) :: r.options }
      | [] => none
    | none =>
      if w.startsWith "-" then none
      else (Words.of names ws).map fun r => { r with words := w :: r.words }

/-- The command that words stand for. -/
def parse? : List String → Option Command
  | ["models"] => some .models
  | ["config", "path"] => some .configPath
  | ["config", "show"] => some .configShow
  | ["config", "validate"] => some .configValidate
  | ["mcp", "servers"] => some .serverList
  | ["mcp", "list", "--server", name] => some (.toolList (some name) [])
  | "mcp" :: "list" :: "--" :: command => some (.toolList none command)
  | "mcp" :: "list" :: command => some (.toolList none command)
  | "preset" :: "list" :: ws =>
    match Words.of [("--dir", "dir")] ws with
    | some ⟨[], os⟩ => some (.presetList none (os.lookup "dir"))
    | some ⟨[preset], os⟩ => some (.presetList (some preset) (os.lookup "dir"))
    | _ => none
  | "preset" :: "plan" :: ws =>
    match Words.of [("--dir", "dir"), ("--args", "args"), ("-a", "args")] ws with
    | some ⟨[preset, tool], os⟩ =>
      some (.presetPlan preset tool (os.lookup "args") (os.lookup "dir"))
    | _ => none
  | _ => none

end Command

end Parley
