/-
Presets: files that map names to definitions of tools. Entries of a type that is not known are
skipped, so that a preset may be newer than its reader.
-/
import Parley.Definition
import Parley.Files

namespace Parley.Preset

/-- Whether an entry is of a known type. -/
def isKnown (entry : Json) : Bool :=
  match entry.get? "type" with
  | some (.str t) => t = Definition.universalType || t = Definition.restApiType
  | _ => false

/-- The valid definition that an entry holds. -/
def ofEntry (entry : Json) : Except Definition.Error Definition :=
  match Definition.ofJson entry with
  | .error e => .error e
  | .ok d =>
    match d.validate with
    | .error e => .error e
    | .ok () => .ok d

/-- The definitions of a preset in the order of the file; the first fault counts. -/
def ofEntries : List Json → Except Definition.Error (List Definition)
  | [] => .ok []
  | v :: vs =>
    match ofEntry v with
    | .error e => .error e
    | .ok d =>
      match ofEntries vs with
      | .error e => .error e
      | .ok ds => .ok (d :: ds)

/-- What is wrong with a text that is no preset. -/
def malformed (preset : String) (e : Json.Fault) : Definition.Error :=
  .malformed preset ("preset is not a JSON object of tool definitions: " ++ e.message)

/-- The definitions that the text of a preset holds. -/
def parse (preset content : String) : Except Definition.Error (List Definition) :=
  match Json.parse? content with
  | some (.obj ms) => ofEntries ((ms.map fun m => m.2).filter isKnown)
  | some _ => .error (malformed preset (.unexpected "an object"))
  | none => .error (malformed preset .noJson)

/-! ## Directories of presets -/

/-- The extension of preset files. -/
def extension : String := "json"

/-- Whether a name can be that of a preset: it leads to no other directory and is not hidden. -/
def isName (preset : String) : Bool :=
  !preset.isEmpty && !(preset.toList.any fun c => c = '/' || c = '\\') && !preset.startsWith "."

/-- The definitions of a preset in a directory. -/
def load (fs : Files) (dir preset : String) : Except Definition.Error (List Definition) :=
  if isName preset then
    match fs.read? (Files.join dir (preset ++ "." ++ extension)) with
    | some content => parse preset content
    | none => .error (.unknownPreset preset)
  else .error (.unknownPreset preset)

/-- The presets in a directory, in ascending order. -/
def available (fs : Files) (dir : String) : List String :=
  ((fs.namesIn dir).filterMap (Files.stem? extension)).mergeSort fun a b => decide (a ≤ b)

end Parley.Preset
