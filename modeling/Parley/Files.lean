/-
Files as a value: paths and what stands in them. A directory is there when some file lies in it,
or when it is said to be there.
-/

namespace Parley

/-- Files with their paths, given as the names on the way, and directories that may be empty. -/
structure Files where
  entries : List (List String × String)
  directories : List (List String)
  deriving Repr

namespace Files

/-- The names on the way of a path; a name of two dots goes back by one. -/
def steps (path : String) : List String :=
  (path.toList.splitOn '/').foldl
    (fun done s =>
      if s = [] ∨ s = ['.'] then done
      else if s = ['.', '.'] then done.dropLast
      else done ++ [String.ofList s]) []

/-- Files and directories given by their paths. -/
def ofPaths (fs : List (String × String)) (directories : List String) : Files :=
  ⟨fs.map fun f => (steps f.1, f.2), directories.map steps⟩

/-- A path in a directory. -/
def join (dir name : String) : String :=
  if name.startsWith "/" then name
  else if dir.isEmpty then name
  else if dir.endsWith "/" then dir ++ name
  else dir ++ "/" ++ name

/-- What stands in a file. -/
def read? (fs : Files) (path : String) : Option String :=
  fs.entries.lookup (steps path)

/-- The name that follows on the way from a directory to a path in it. -/
def nameIn? (dir : List String) (path : List String) : Option String :=
  if dir.isPrefixOf path then path[dir.length]? else none

/-- The names of the files and directories in a directory; the empty path leads to none. -/
def namesIn (fs : Files) (dir : String) : List String :=
  if dir.isEmpty then []
  else ((fs.entries.map Prod.fst ++ fs.directories).filterMap (nameIn? (steps dir))).eraseDups

/-- Whether a path leads to a directory. -/
def isDirectory (fs : Files) (dir : String) : Bool :=
  !(fs.namesIn dir).isEmpty || (!dir.isEmpty && fs.directories.contains (steps dir))

/-- A name without its last extension, when that is the given one; a dot in front of the name
starts no extension. -/
def stem? (extension name : String) : Option String :=
  let ending := '.' :: extension.toList
  let cs := name.toList
  if ending.isSuffixOf cs ∧ ending.length < cs.length ∧ !extension.toList.contains '.' then
    some (String.ofList (cs.take (cs.length - ending.length)))
  else none

end Files

end Parley
