/-
The registry of the tools of an agent, in order of registration. Names are unique: of two tools
with one name the first stays.
-/
import Parley.Tool

namespace Parley.Tool

/-- The tools in order, and where the tool of each name stands. -/
structure Registry where
  tools : List Tool
  index : List (String × Nat)

/-- What came of a registration. -/
inductive Registration where
  | added
  | alreadyRegistered
  deriving DecidableEq, Repr

namespace Registry

/-- A registry without tools. -/
def empty : Registry := ⟨[], []⟩

/-- Adds a tool, unless there is one of its name. -/
def register (r : Registry) (t : Tool) : Registration × Registry :=
  match r.index.lookup t.name with
  | some _ => (.alreadyRegistered, r)
  | none => (.added, ⟨r.tools ++ [t], r.index ++ [(t.name, r.tools.length)]⟩)

/-- The tool of a name. -/
def get? (r : Registry) (name : String) : Option Tool :=
  (r.index.lookup name).bind fun i => r.tools[i]?

/-- The tool of a name that has to be there. -/
def find (r : Registry) (name : String) : Except Error Tool :=
  match r.get? name with
  | some t => .ok t
  | none => .error (.notFound name)

/-- Adds tools one after the other, and counts the new ones. -/
def registerAll (r : Registry) : List Tool → Nat × Registry
  | [] => (0, r)
  | t :: ts =>
    match r.register t with
    | (.added, r) =>
      match registerAll r ts with
      | (n, r) => (n + 1, r)
    | (.alreadyRegistered, r) => registerAll r ts

/-- Takes all tools out. -/
def clear (r : Registry) : Registry := { r with tools := [], index := [] }

/-- The descriptions of all tools, in the order of registration. -/
def descriptions (r : Registry) : List Description := r.tools.map Tool.description

/-- The names of all tools, in the order of registration. -/
def names (r : Registry) : List String := r.tools.map Tool.name

/-- The number of tools. -/
def size (r : Registry) : Nat := r.tools.length

/-- Whether there is no tool. -/
def isEmpty (r : Registry) : Bool := r.tools.isEmpty

end Registry

end Parley.Tool
