/-
The command line. It reads what the commands may need of the files and of the environment, prints
what comes of the command and fails when the command does. It starts no servers.
-/
import Parley.Command

namespace Parley.CommandLine

/-- The variables of the environment that are looked at. -/
def environmentNames : List String :=
  ["HOME", "TOOLWEAVE_MODEL", "TOOLWEAVE_API_KEY", "OPENAI_API_KEY", "TOOLWEAVE_PRESET_DIR"]

/-- The environment as far as it is looked at. -/
def readEnvironment : IO Environment := do
  let values ← environmentNames.mapM fun name => return (name, ← IO.getEnv name)
  return fun name => (values.lookup name).join

/-- A file with what stands in it; one that cannot be read shows as a directory. -/
def readFile (path : String) : IO Files := do
  try
    let text ← IO.FS.readFile path
    return .ofPaths [(path, text)] []
  catch _ =>
    let found ← ((← IO.currentDir) / path).pathExists
    return .ofPaths [] (if found then [path] else [])

/-- The files that lie directly in a directory. -/
def readDirectory (path : String) : IO Files := do
  let dir := (← IO.currentDir) / path
  if path.isEmpty || !(← dir.isDir) then return .ofPaths [] []
  let names := (← dir.readDir).toList.map fun entry => entry.fileName
  let files ← names.mapM fun name => readFile (Files.join path name)
  return ⟨files.flatMap Files.entries, [Files.steps path]⟩

/-- The directory of presets that a command is given. -/
def givenDirectory : Command → List String
  | .presetList _ dir | .presetPlan _ _ _ dir => dir.toList
  | _ => []

/-- All files that a command may need. -/
def readFiles (env : Environment) (command : Command) : IO Files := do
  let file ← readFile (Config.path env)
  let configured := match Config.load file env with
    | .ok config => [config.presetDir]
    | .error _ => []
  let presets ← (givenDirectory command ++ configured).mapM readDirectory
  let all := file :: presets
  return ⟨all.flatMap Files.entries, all.flatMap Files.directories⟩

/-- What is printed when the words are no command. -/
def usage : String :=
  "usage: parley preset list [NAME] [--dir DIR] | preset plan PRESET TOOL [--args JSON] [--dir DIR]"
    ++ " | mcp list (--server NAME | -- COMMAND...) | mcp servers | models"
    ++ " | config (show | path | validate)"

end Parley.CommandLine

open Parley CommandLine in
/-- Runs the command that the arguments stand for. -/
def main (args : List String) : IO UInt32 := do
  match Command.parse? args with
  | none =>
    IO.eprintln usage
    return 2
  | some command =>
    let env ← readEnvironment
    let files ← readFiles env command
    let connector : Mcp.Connector := fun _ server =>
      .error (.spawn server.command "servers are not started from here")
    let report := command.run ⟨files, env, connector⟩
    IO.print report.output
    match report.failure with
    | none => return 0
    | some e =>
      IO.eprintln ("Error: " ++ e.message)
      return 1
