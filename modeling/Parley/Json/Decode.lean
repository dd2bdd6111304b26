/-
Decoding JSON values into typed ones. A record is written as an object, or as the list of its
fields in order; members that no field names are ignored. Of several faults in one record the
earliest in the text is the one reported, and a missing field counts as behind all others.
-/
import Parley.Json.Parser

namespace Parley.Json

/-- Why a value is not of the wanted kind. -/
inductive Fault where
  /-- A text that is no JSON. -/
  | noJson
  /-- A value of another kind than the wanted one. -/
  | unexpected (wanted : String)
  | missing (field : String)
  /-- A field given twice, under one name or under two. -/
  | repeated (field : String)
  | unknown (name : String)
  /-- A list with more items than the record has fields. -/
  | surplus
  /-- A value of the right kind that breaks a rule of its own. -/
  | refused (reason : String)
  deriving DecidableEq, Repr

/-- The text that reports a fault. -/
def Fault.message : Fault → String
  | .noJson => "the text is not JSON"
  | .unexpected wanted => "expected " ++ wanted
  | .missing field => "the field '" ++ field ++ "' is missing"
  | .repeated field => "the field '" ++ field ++ "' is given twice"
  | .unknown name => "the name '" ++ name ++ "' is not known"
  | .surplus => "the list has too many items"
  | .refused reason => reason

/-- A reader of values of one type. -/
abbrev Decode (α : Type) := Json → Except Fault α

namespace Decode

/-! ## Simple values -/

/-- Any value. -/
def any : Decode Json := .ok

/-- A text. -/
def string : Decode String
  | .str s => .ok s
  | _ => .error (.unexpected "a string")

/-- A boolean. -/
def bool : Decode Bool
  | .bool b => .ok b
  | _ => .error (.unexpected "a boolean")

/-- An integer from `low` to `high`. -/
def integer (low high : Int) : Decode Int
  | .num (.int n) => if low ≤ n ∧ n ≤ high then .ok n else .error (.unexpected "a smaller integer")
  | _ => .error (.unexpected "an integer")

/-- A natural number of at most `bits` bits. -/
def natural (bits : Nat) : Decode Nat := fun v =>
  (integer 0 (Int.ofNat (Nat.pow 2 bits) - 1) v).map Int.toNat

/-- The members of an object. -/
def object : Decode Members
  | .obj ms => .ok ms
  | _ => .error (.unexpected "an object")

/-- A value, or its absence written as `null`. -/
def nullable {α : Type} (d : Decode α) : Decode (Option α)
  | .null => .ok none
  | v => (d v).map some

/-- A list of values of one type. -/
def list {α : Type} (d : Decode α) : Decode (List α)
  | .arr vs => vs.mapM d
  | _ => .error (.unexpected "a list")

/-- An object whose members are all of one type. -/
def dictionary {α : Type} (d : Decode α) : Decode (List (String × α))
  | .obj ms => ms.mapM fun (k, v) => (d v).map (k, ·)
  | _ => .error (.unexpected "an object")

/-- Where a value stands: alone, or within a record that takes its form from a tag. Such a record is
kept as it is until its tag is known, and in what was kept an empty object is nothing, too. -/
inductive Place where
  | alone
  | underTag
  deriving DecidableEq, Repr

/-- Whether a value is nothing at its place. -/
def Place.isNothing : Place → Json → Bool
  | _, .null => true
  | .underTag, .obj [] => true
  | _, _ => false

/-- One of a few names, written as a string or as an object with that name and nothing more. -/
def choice {α : Type} (place : Place) (names : List (String × α)) : Decode α :=
  let find (name : String) : Except Fault α :=
    match names.lookup name with
    | some a => .ok a
    | none => .error (.unknown name)
  fun
  | .str name => find name
  | .obj [(name, v)] =>
    match find name with
    | .error e => .error e
    | .ok a => if place.isNothing v then .ok a else .error (.unexpected "null")
  | _ => .error (.unexpected "a name")

/-- One of several forms, told apart by the name that the member `tag` holds. As a list the name
comes first and the fields of its form follow. -/
def tagged {α : Type} (tag : String) (form : String → Option (Decode α)) : Decode α :=
  let read (name : Json) (rest : Json) : Except Fault α :=
    match name with
    | .str name =>
      match form name with
      | some d => d rest
      | none => .error (.unknown name)
    | _ => .error (.unexpected "a name")
  fun
  | .obj ms =>
    match Members.get? ms tag with
    | some name => read name (.obj (ms.filter fun m => m.1 ≠ tag))
    | none => .error (.missing tag)
  | .arr (name :: rest) => read name (.arr rest)
  | .arr [] => .error (.missing tag)
  | _ => .error (.unexpected "a record")

end Decode

/-! ## Records -/

/-- A fault and its place among the members of a record. -/
structure Located where
  position : Nat
  fault : Fault

/-- The two ways to write a record. -/
inductive Record where
  | named (members : Members)
  | positional (items : List Json)

/-- A reader of some fields of a record: how many they are, and what they give when the first of
them is the field of the given number. -/
structure Fields (α : Type) where
  width : Nat
  read : Record → (first : Nat) → Except Located α

namespace Fields

/-- No field at all. -/
def const {α : Type} (a : α) : Fields α := ⟨0, fun _ _ => .ok a⟩

/-- Of two results the value of both, or the fault that stands earlier. -/
def join {α β : Type} : Except Located (α → β) → Except Located α → Except Located β
  | .ok f, .ok a => .ok (f a)
  | .error e, .ok _ => .error e
  | .ok _, .error e => .error e
  | .error e, .error d => .error (if d.position < e.position then d else e)

/-- Some fields and those behind them. -/
def andThen {α β : Type} (f : Fields (α → β)) (x : Fields α) : Fields β :=
  ⟨f.width + x.width, fun r first => join (f.read r first) (x.read r (first + f.width))⟩

instance : Applicative Fields where
  pure a := const a
  seq f x := f.andThen (x ())

/-- The places of the members with one of the names. -/
def occurrences (names : List String) (ms : Members) : List (Nat × Json) :=
  (ms.zipIdx.filter fun m => names.contains m.1.1).map fun m => (m.2, m.1.2)

/-- One field: its name with the aliases, its reader, and what its absence means in an object and
in a list. -/
def field {α : Type} (names : List String) (d : Decode α) (inObject inList : Option α) :
    Fields α where
  width := 1
  read r first :=
    let name := names.headD ""
    let absent (position : Nat) : Option α → Except Located α
      | some a => .ok a
      | none => .error ⟨position, .missing name⟩
    let given (position : Nat) (v : Json) : Except Located α :=
      match d v with
      | .ok a => .ok a
      | .error e => .error ⟨position, e⟩
    match r with
    | .named ms =>
      match occurrences names ms with
      | [] => absent ms.length inObject
      | [(i, v)] => given i v
      | (i, v) :: (j, _) :: _ =>
        match given i v with
        | .ok _ => .error ⟨j, .repeated name⟩
        | .error e => .error e
    | .positional vs =>
      match vs[first]? with
      | some v => given first v
      | none => absent first inList

/-- A field that has to be there. -/
def required {α : Type} (name : String) (d : Decode α) : Fields α :=
  field [name] d none none

/-- A field that stands for `default` when it is absent. -/
def defaulted {α : Type} (names : List String) (d : Decode α) (default : α) : Fields α :=
  field names d (some default) (some default)

/-- A field that may be absent or `null`. -/
def optional {α : Type} (names : List String) (d : Decode α) : Fields (Option α) :=
  field names d.nullable (some none) (some none)

/-- A field that may be `null`, and may be absent in an object but not in a list. -/
def nullable {α : Type} (name : String) (d : Decode α) : Fields (Option α) :=
  field [name] d.nullable (some none) none

/-- Forgets where a fault stands. -/
def unlocated {α : Type} : Except Located α → Except Fault α
  | .ok a => .ok a
  | .error e => .error e.fault

/-- Reads a record that is written as an object or as a list. -/
def decode {α : Type} (fs : Fields α) : Decode α
  | .obj ms => unlocated (fs.read (.named ms) 0)
  | .arr vs =>
    match unlocated (fs.read (.positional vs) 0) with
    | .ok a => if fs.width < vs.length then .error .surplus else .ok a
    | .error e => .error e
  | _ => .error (.unexpected "a record")

/-- Reads a record that is written as an object, or as a list that may go on behind its fields. -/
def decodeOpen {α : Type} (fs : Fields α) : Decode α
  | .obj ms => unlocated (fs.read (.named ms) 0)
  | .arr vs => unlocated (fs.read (.positional vs) 0)
  | _ => .error (.unexpected "a record")

/-- Reads a record that is written as an object only. -/
def decodeObject {α : Type} (fs : Fields α) : Decode α
  | .obj ms => unlocated (fs.read (.named ms) 0)
  | _ => .error (.unexpected "an object")

end Fields

/-! ## Encoding -/

/-- The members of a record whose absent fields are left out. -/
def Members.compact (ms : List (String × Option Json)) : Members :=
  ms.filterMap fun (k, v) => v.map (k, ·)

end Parley.Json
