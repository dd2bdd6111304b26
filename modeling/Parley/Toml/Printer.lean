/-
Writing TOML documents. In every table the values come first and the tables in it, each under a
header, behind them; a string is written in the first form that needs no escapes, and a list of
two items or more takes a line for each.
-/
import Parley.Decimal.Shortest
import Parley.Toml.Quoted
import Parley.Toml.Basic

namespace Parley.Toml

/-! ## Strings -/

/-- Whether a character has no form but an escape. -/
def needsEscape (c : Char) : Bool :=
  (c.toNat < 32 || c.toNat = 127) && c ≠ '\t' && c ≠ '\n'

/-- The length of the longest run of a character. -/
def longestRun (c : Char) (cs : List Char) : Nat :=
  let step (run : Nat × Nat) (d : Char) : Nat × Nat :=
    if d = c then (max run.1 (run.2 + 1), run.2 + 1) else (run.1, 0)
  (cs.foldl step (0, 0)).1

/-- The forms of a string. -/
inductive Style where
  | basic
  | literal
  | basicLines
  | literalLines
  deriving DecidableEq, Repr

/-- The form that a string is written in. -/
def Style.of (cs : List Char) : Style :=
  let escapes := cs.any needsEscape
  let newline := cs.contains '\n'
  let backslash := cs.contains '\\'
  let doubles := longestRun '"' cs
  let singles := longestRun '\'' cs
  if !escapes && !backslash && doubles = 0 && !newline then .basic
  else if !escapes && singles = 0 && !newline then .literal
  else if !escapes && !backslash && doubles ≤ 2 then .basicLines
  else if !escapes && singles ≤ 2 then .literalLines
  else if newline then .basicLines
  else .basic

/-- The characters that stand for one character other than a quote. -/
def escape (lines : Bool) (c : Char) : List Char :=
  if c = '\\' then ['\\', '\\']
  else if c = '\t' then ['\\', 't']
  else if c = '\n' then if lines then ['\n'] else ['\\', 'n']
  else if c = '\r' then ['\\', 'r']
  else if c.toNat = 8 then ['\\', 'b']
  else if c.toNat = 12 then ['\\', 'f']
  else if needsEscape c then
    ['\\', 'u', '0', '0', Text.upperHexDigit (c.toNat / 16), Text.upperHexDigit (c.toNat % 16)]
  else [c]

/-- The text between double quotes; `free` is how many quotes may follow on each other without an
escape, and `run` how many do. -/
def escapeAll (lines : Bool) (free run : Nat) : List Char → List Char
  | [] => []
  | c :: cs =>
    if c = '"' then
      if run < free then '"' :: escapeAll lines free (run + 1) cs
      else '\\' :: '"' :: escapeAll lines free 0 cs
    else escape lines c ++ escapeAll lines free 0 cs

/-- A line end in front of a text of several lines. -/
def leadingLineEnd (cs : List Char) : List Char :=
  if cs.contains '\n' then ['\n'] else []

/-- A string in a form. -/
def Style.write (cs : List Char) : Style → List Char
  | .basic => '"' :: (escapeAll false 0 0 cs ++ ['"'])
  | .literal => '\'' :: (cs ++ ['\''])
  | .basicLines =>
    let quotes := ['"', '"', '"']
    quotes ++ leadingLineEnd cs ++ escapeAll true 2 0 cs ++ quotes
  | .literalLines =>
    let quotes := ['\'', '\'', '\'']
    quotes ++ leadingLineEnd cs ++ cs ++ quotes

/-- A string in the first form that fits it. -/
def stringChars (s : String) : List Char :=
  (Style.of s.toList).write s.toList

/-! ## Names -/

/-- A name: without quotes where it can be, and else on one line. -/
def nameChars (s : String) : List Char :=
  let cs := s.toList
  if !cs.isEmpty && cs.all isBare then cs
  else
    match Style.of cs with
    | .literal => Style.literal.write cs
    | _ => Style.basic.write cs

/-- Names with a dot between two of them. -/
def pathChars : List String → List Char
  | [] => []
  | [k] => nameChars k
  | k :: ks => nameChars k ++ '.' :: pathChars ks

/-! ## Values -/

/-- A floating point number, with words for those that are not finite. -/
def floatChars (x : Decimal.Binary64) : List Char :=
  if x.isFinite then x.chars
  else if x.fractionField = 0 then if x.isNegative then ['-', 'i', 'n', 'f'] else ['i', 'n', 'f']
  else ['n', 'a', 'n']

/-- Puts items into brackets: one or none on one line, and else each on a line of its own. -/
def bracketed : List (List Char) → List Char
  | [] => ['[', ']']
  | [v] => '[' :: (v ++ [']'])
  | vs =>
    let line (v : List Char) : List Char := '\n' :: ' ' :: ' ' :: ' ' :: ' ' :: (v ++ [','])
    '[' :: (vs.flatMap line ++ ['\n', ']'])

mutual

/-- A value behind a name or in a list. -/
def valueChars : Toml → List Char
  | .str s => stringChars s
  | .int n => (toString n).toList
  | .float x => floatChars x
  | .bool b => (toString b).toList
  | .date text => text.toList
  | .arr vs => bracketed (itemsChars vs)
  | .table [] => ['{', '}']
  | .table ((k, v) :: es) =>
    '{' :: ' ' :: (nameChars k ++ ' ' :: '=' :: ' ' :: valueChars v ++ pairsChars es)

/-- The items of a list, each on its own. -/
def itemsChars : List Toml → List (List Char)
  | [] => []
  | v :: vs => valueChars v :: itemsChars vs

/-- The pairs behind the first one, and the closing brace. -/
def pairsChars : List (String × Toml) → List Char
  | [] => [' ', '}']
  | (k, v) :: es =>
    ',' :: ' ' :: (nameChars k ++ ' ' :: '=' :: ' ' :: valueChars v ++ pairsChars es)

end

/-! ## Documents -/

/-- Whether a value is a table. -/
def isTable : Toml → Bool
  | .table _ => true
  | _ => false

/-- Whether a value has a header of its own, or more than one. -/
def hasHeader : Toml → Bool
  | .table _ => true
  | .arr vs => !vs.isEmpty && vs.all isTable
  | _ => false

/-- The lines of the values that stand directly in a table. -/
def valueLines (es : List (String × Toml)) : List Char :=
  (es.filter fun e => !hasHeader e.2).flatMap fun e =>
    nameChars e.1 ++ ' ' :: '=' :: ' ' :: (valueChars e.2 ++ ['\n'])

mutual

/-- The parts of a document for the tables in a table; a table that only leads to others has no
part. -/
def parts (path : List String) : List (String × Toml) → List (List Char)
  | [] => []
  | (k, .table es) :: rest =>
    let own := valueLines es
    let head := '[' :: (pathChars (path ++ [k]) ++ [']', '\n'])
    (if own.isEmpty && !es.isEmpty then [] else [head ++ own])
      ++ parts (path ++ [k]) es ++ parts path rest
  | (k, .arr vs) :: rest =>
    (if hasHeader (.arr vs) then elementParts (path ++ [k]) vs else []) ++ parts path rest
  | _ :: rest => parts path rest

/-- The parts of a document for the tables of a list. -/
def elementParts (path : List String) : List Toml → List (List Char)
  | [] => []
  | .table es :: vs =>
    ('[' :: '[' :: (pathChars path ++ [']', ']', '\n']) ++ valueLines es) :: parts path es
      ++ elementParts path vs
  | _ :: vs => elementParts path vs

end

/-- The document of a table, with an empty line between two parts. -/
def document (es : List (String × Toml)) : String :=
  let own := valueLines es
  let all := (if own.isEmpty then [] else [own]) ++ parts [] es
  String.ofList (['\n'].intercalate all)

end Parley.Toml
