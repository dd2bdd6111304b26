/-
Tables under construction. A table may be written in parts as long as no part could be taken for
a second definition of it, so it is kept how each table came into being.
-/
import Parley.Toml.Basic

namespace Parley.Toml

/-- How a table came into being. -/
inductive Origin where
  /-- Under a header of its own, or between braces. -/
  | opened
  /-- On the way of a header to another table. -/
  | passed
  /-- On the way of a dotted name to a value. -/
  | dotted
  deriving DecidableEq, Repr

/-- What stands under a name of a table under construction. -/
inductive Node where
  | value (v : Toml)
  | table (origin : Origin) (entries : List (String × Node))
  /-- A list that grows by a table with every header. -/
  | tables (elements : List (List (String × Node)))

namespace Node

/-- The entries of a table under construction. -/
abbrev Entries := List (String × Node)

/-- Puts another node in the place of the one under a name. -/
def replace (es : Entries) (name : String) (n : Node) : Entries :=
  es.map fun e => if e.1 = name then (name, n) else e

/-- Changes the table that names lead to from a table of the given origin. A table that is not
there yet comes into being as `found`; a dotted name may not lead through a table with a header of
its own. -/
def alter (found : Origin) (change : Origin → Entries → Option Entries) :
    List String → Origin → Entries → Option Entries
  | [], origin, es => change origin es
  | k :: ks, _, es =>
    match es.lookup k with
    | none => (alter found change ks found []).map fun sub => es ++ [(k, .table found sub)]
    | some (.value _) => none
    | some (.tables ts) =>
      match ts.getLast? with
      | none => none
      | some last =>
        (alter found change ks .opened last).map fun sub =>
          replace es k (.tables (ts.dropLast ++ [sub]))
    | some (.table origin sub) =>
      if found = .dotted ∧ origin = .opened then none
      else (alter found change ks origin sub).map fun sub => replace es k (.table origin sub)

/-- Gives a name a value. A table that is reached by a dotted name has to be one that dotted names
made, and no name may have two values. -/
def put (parents : List String) (name : String) (v : Toml) (es : Entries) : Option Entries :=
  alter .dotted
    (fun origin es =>
      if origin = .dotted ↔ parents = [] then none
      else if (es.lookup name).isSome then none
      else some (es ++ [(name, .value v)]))
    parents .opened es

/-- Opens the table of a header. One that other headers led through keeps what it has. -/
def openTable (parents : List String) (name : String) (es : Entries) : Option Entries :=
  alter .passed
    (fun _ es =>
      match es.lookup name with
      | none => some (es ++ [(name, .table .opened [])])
      | some (.table .passed sub) => some (replace es name (.table .opened sub))
      | some _ => none)
    parents .opened es

/-- Opens another table of the list of a header. -/
def openElement (parents : List String) (name : String) (es : Entries) : Option Entries :=
  alter .passed
    (fun _ es =>
      match es.lookup name with
      | none => some (es ++ [(name, .tables [[]])])
      | some (.tables ts) => some (replace es name (.tables (ts ++ [[]])))
      | some _ => none)
    parents .opened es

/-- Gives a name a value in the table of the last header. -/
def putUnder (header parents : List String) (name : String) (v : Toml) (es : Entries) :
    Option Entries :=
  alter .passed (fun _ es => put parents name v es) header .opened es

mutual

/-- The value that has been built. -/
def finished : Node → Toml
  | .value v => v
  | .table _ es => .table (finishedEntries es)
  | .tables ts => .arr (finishedTables ts)

/-- The entries of a table that has been built. -/
def finishedEntries : Entries → List (String × Toml)
  | [] => []
  | (k, n) :: es => (k, finished n) :: finishedEntries es

/-- The tables of a list that has been built. -/
def finishedTables : List Entries → List Toml
  | [] => []
  | es :: ts => .table (finishedEntries es) :: finishedTables ts

end

end Node

/-- The table of names with their values, each given by the names that lead to it. -/
def ofPairs (pairs : List (List String × Toml)) : Option Toml :=
  let entries := pairs.foldlM (fun es p =>
    match p.1.getLast? with
    | none => none
    | some name => Node.put p.1.dropLast name p.2 es) []
  entries.map fun es => .table (Node.finishedEntries es)

end Parley.Toml
