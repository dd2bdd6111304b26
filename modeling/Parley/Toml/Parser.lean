/-
Reading TOML documents: lines that give names values, and headers that say which table the lines
behind them belong to.
-/
import Parley.Toml.Draft
import Parley.Toml.Quoted
import Parley.Toml.Scalar

namespace Parley.Toml

namespace Parser

open Text (Step)

/-! ## Between values -/

/-- The text behind blanks, line ends and comments; `comment` tells whether it starts inside a
comment. -/
def skipLines : (comment : Bool) → List Char → List Char
  | _, [] => []
  | _, '\n' :: r => skipLines false r
  | _, '\r' :: '\n' :: r => skipLines false r
  | true, c :: r => if isPlain c then skipLines true r else c :: r
  | false, c :: r =>
    if c = '#' then skipLines true r else if isSpace c then skipLines false r else c :: r

/-- The text behind the line, in which only blanks and a comment may be left. -/
def endLine (cs : List Char) : Option (List Char) :=
  let rest :=
    match cs.dropWhile isSpace with
    | '#' :: r => r.dropWhile isPlain
    | r => r
  match rest with
  | [] => some []
  | '\n' :: r => some r
  | '\r' :: '\n' :: r => some r
  | _ => none

/-! ## Values -/

/-- The items of a list behind its opening bracket; `fuel` bounds their number. -/
def items (value : List Char → Step Toml) : (fuel : Nat) → List Char → Step (List Toml)
  | 0, _ => none
  | fuel + 1, cs =>
    match skipLines false cs with
    | ']' :: r => some ([], r)
    | r =>
      match value r with
      | none => none
      | some (v, r) =>
        match skipLines false r with
        | ',' :: r => (items value fuel r).map fun (vs, r) => (v :: vs, r)
        | ']' :: r => some ([v], r)
        | _ => none

/-- A value behind the names that lead to it. -/
def pair (value : List Char → Step Toml) (cs : List Char) : Step (List String × Toml) :=
  match path cs with
  | some (names, '=' :: r) =>
    (value (r.dropWhile isSpace)).map fun (v, r) => ((names, v), r)
  | _ => none

/-- The pairs of a table behind its opening brace, one at least; `fuel` bounds their number. -/
def pairs (value : List Char → Step Toml) :
    (fuel : Nat) → List Char → Step (List (List String × Toml))
  | 0, _ => none
  | fuel + 1, cs =>
    match pair value cs with
    | none => none
    | some (p, r) =>
      match r.dropWhile isSpace with
      | ',' :: r => (pairs value fuel r).map fun (ps, r) => (p :: ps, r)
      | '}' :: r => some ([p], r)
      | _ => none

/-- The value at the start of a text, in which lists and tables are nested `depth` deep at
most. -/
def value : (depth : Nat) → List Char → Step Toml
  | _, '"' :: r => (string ('"' :: r)).map fun (s, r) => (.str s, r)
  | _, '\'' :: r => (string ('\'' :: r)).map fun (s, r) => (.str s, r)
  | depth + 1, '[' :: r =>
    (items (value depth) (r.length + 1) r).map fun (vs, r) => (.arr vs, r)
  | depth + 1, '{' :: r =>
    match r.dropWhile isSpace with
    | '}' :: r => some (.table [], r)
    | r =>
      match pairs (value depth) r.length r with
      | none => none
      | some (ps, r) => (ofPairs ps).map (·, r)
  | _, cs => Scalar.read cs

/-! ## Lines -/

/-- A document read up to some line: its tables and the names of the last header. -/
structure Draft where
  entries : Node.Entries
  header : List String

/-- A document of which nothing is read yet. -/
def Draft.empty : Draft := ⟨[], []⟩

/-- Takes the header of a table or of a table in a list. -/
def Draft.head (d : Draft) (element : Bool) (names : List String) : Option Draft :=
  match names.getLast? with
  | none => none
  | some name =>
    let opening := if element then Node.openElement else Node.openTable
    (opening names.dropLast name d.entries).map fun es => ⟨es, names⟩

/-- Takes a value. -/
def Draft.give (d : Draft) (names : List String) (v : Toml) : Option Draft :=
  match names.getLast? with
  | none => none
  | some name =>
    (Node.putUnder d.header names.dropLast name v d.entries).map fun es => { d with entries := es }

/-- Takes what stands in a line, up to the end of the line. -/
def line (d : Draft) : List Char → Step Draft
  | '[' :: '[' :: r =>
    match path r with
    | some (names, ']' :: ']' :: r) => (d.head true names).map (·, r)
    | _ => none
  | '[' :: r =>
    match path r with
    | some (names, ']' :: r) => (d.head false names).map (·, r)
    | _ => none
  | cs =>
    match pair (value depthMax) cs with
    | some ((names, v), r) => (d.give names v).map (·, r)
    | none => none

/-- Whether a line is over, but for a comment. -/
def isBlankLine : List Char → Bool
  | [] => true
  | c :: _ => c = '#' || c = '\n' || c = '\r'

/-- Takes line after line; every line takes a character at least, so `fuel` is their number. -/
def lines : (fuel : Nat) → Draft → List Char → Option Draft
  | 0, _, _ => none
  | fuel + 1, d, cs =>
    let cs := cs.dropWhile isSpace
    match if isBlankLine cs then some (d, cs) else line d cs with
    | none => none
    | some (d, r) =>
      match endLine r with
      | none => none
      | some [] => some d
      | some r => lines fuel d r

/-- The text without the mark that may stand in front of it. -/
def dropMark : List Char → List Char
  | c :: r => if c.toNat = 0xfeff then r else c :: r
  | [] => []

end Parser

open Toml.Parser in
/-- The table that a document holds. -/
def parse? (s : String) : Option Toml :=
  let cs := dropMark s.toList
  (lines (cs.length + 1) .empty cs).map fun d => .table (Node.finishedEntries d.entries)

end Parley.Toml
