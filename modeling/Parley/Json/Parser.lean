/-
Reading JSON text. The grammar is strict; containers may be nested 127 deep. A text is read to
its end, and a repeated member name keeps its first place and takes its last value. Of a record only
the fields are read; what other members hold is passed over, and need only have the form of a value.
-/
import Parley.Decimal.Reading
import Parley.Json.Basic
import Parley.Text.Digit
import Parley.Text.Step

namespace Parley.Json

namespace Parser

open Text (Step prepend)

/-! ## Blanks -/

/-- Whether a character may stand between two tokens. -/
def isSpace (c : Char) : Bool :=
  c = ' ' || c = '\n' || c = '\t' || c = '\r'

/-- The text behind the blanks at its start. -/
def skip (cs : List Char) : List Char :=
  cs.dropWhile isSpace

/-! ## Strings -/

/-- The character that a single letter stands for behind a backslash. -/
def escaped? : Char → Option Char
  | '"' => some '"'
  | '\\' => some '\\'
  | '/' => some '/'
  | 'b' => some (Char.ofNat 8)
  | 'f' => some (Char.ofNat 12)
  | 'n' => some '\n'
  | 'r' => some '\r'
  | 't' => some '\t'
  | _ => none

/-- The character of a code unit that stands on its own. -/
def single? (unit : Nat) : Option Char :=
  if 0xd800 ≤ unit ∧ unit ≤ 0xdfff then none else some (Char.ofNat unit)

/-- The character of a pair of code units, the first from the upper and the second from the lower
half of the surrogates. -/
def paired? (first second : Nat) : Option Char :=
  if 0xd800 ≤ first ∧ first ≤ 0xdbff ∧ 0xdc00 ≤ second ∧ second ≤ 0xdfff then
    some (Char.ofNat (0x10000 + (first - 0xd800) * 0x400 + (second - 0xdc00)))
  else none

/-- The characters of a string up to its closing quote. -/
def stringBody : List Char → Step (List Char)
  | [] => none
  | '"' :: r => some ([], r)
  | '\\' :: 'u' :: a :: b :: c :: d :: r =>
    match Text.ofHex? [a, b, c, d] with
    | none => none
    | some unit =>
      match single? unit with
      | some ch => prepend (some ch) (stringBody r)
      | none =>
        match r with
        | '\\' :: 'u' :: a' :: b' :: c' :: d' :: r' =>
          prepend ((Text.ofHex? [a', b', c', d']).bind (paired? unit)) (stringBody r')
        | _ => none
  | '\\' :: c :: r => prepend (escaped? c) (stringBody r)
  | c :: r => if c.toNat < 32 then none else prepend (some c) (stringBody r)

/-! ## Numbers -/

/-- The exponent at the start of a text, if there is one. -/
def exponent (cs : List Char) : Step (Option Int) :=
  let signed (negative : Bool) (r : List Char) : Step (Option Int) :=
    match Text.digits r with
    | ([], _) => none
    | (ds, r) => some (some (if negative then -(Text.ofDigits ds : Int) else Text.ofDigits ds), r)
  match cs with
  | [] => some (none, [])
  | c :: r =>
    if c = 'e' ∨ c = 'E' then
      match r with
      | '+' :: r => signed false r
      | '-' :: r => signed true r
      | r => signed false r
    else some (none, c :: r)

/-- The fraction at the start of a text, if there is one. -/
def fraction : List Char → Step (Option (List Nat))
  | '.' :: r =>
    match Text.digits r with
    | ([], _) => none
    | (ds, r) => some (some ds, r)
  | r => some (none, r)

/-- The number of an integer numeral: an integer where a word of 64 bits has room for it. -/
def wholeNumber (negative : Bool) (ds : List Nat) : Option Number :=
  let n := Text.ofDigits ds
  if negative then
    if n ≠ 0 ∧ n ≤ Nat.pow 2 63 then some (.int (-(n : Int)))
    else (Decimal.Numeral.mk true ds [] 0).toBinary64?.map .double
  else if n ≤ Decimal.wordMax then some (.int n)
  else (Decimal.Numeral.mk false ds [] 0).toBinary64?.map .double

/-- A numeral behind its sign: its digits, and its fraction and exponent if there are any. -/
def numeral (cs : List Char) : Step (List Nat × Option (List Nat) × Option Int) :=
  match Text.digits cs with
  | ([], _) => none
  | (ds, r) =>
    if ds.head? = some 0 ∧ ds.length ≠ 1 then none
    else
      match fraction r with
      | none => none
      | some (f, r) => (exponent r).map fun (e, r) => ((ds, f, e), r)

/-- A number behind its sign. -/
def unsignedNumber (negative : Bool) (cs : List Char) : Step Number :=
  match numeral cs with
  | none => none
  | some ((ds, f, e), r) =>
    let n :=
      if f.isNone && e.isNone then wholeNumber negative ds
      else (Decimal.Numeral.mk negative ds (f.getD []) (e.getD 0)).toBinary64?.map .double
    n.map (·, r)

/-- A number with its sign. -/
def number : List Char → Step Number
  | '-' :: r => unsignedNumber true r
  | r => unsignedNumber false r

/-! ## Tokens -/

/-- How the characters of a string and the numbers of a text are read. -/
structure Tokens where
  string : List Char → Step (List Char)
  number : List Char → Step Number

/-- The tokens of a value. -/
def Tokens.strict : Tokens := ⟨stringBody, Parser.number⟩

/-- The text behind the closing quote of a string whose characters are not looked at: any code units
may be escaped in it. -/
def behindString : List Char → Option (List Char)
  | [] => none
  | '"' :: r => some r
  | '\\' :: 'u' :: a :: b :: c :: d :: r => (Text.ofHex? [a, b, c, d]).bind fun _ => behindString r
  | '\\' :: c :: r => (escaped? c).bind fun _ => behindString r
  | c :: r => if c.toNat < 32 then none else behindString r

/-- The tokens of a value that is only passed over, whose numbers may be of any size. -/
def Tokens.lenient : Tokens where
  string cs := (behindString cs).map ([], ·)
  number
    | '-' :: r => (numeral r).map fun (_, r) => (.int 0, r)
    | r => (numeral r).map fun (_, r) => (.int 0, r)

/-! ## Values -/

/-- The items of a list behind its opening bracket, one at least, the first at place `i`; `fuel`
bounds their count. -/
def items (value : (i : Nat) → List Char → Step Json) :
    (fuel i : Nat) → List Char → Step (List Json)
  | 0, _, _ => none
  | fuel + 1, i, cs =>
    match value i (skip cs) with
    | none => none
    | some (v, r) =>
      match skip r with
      | ',' :: r => (items value fuel (i + 1) r).map fun (vs, r) => (v :: vs, r)
      | ']' :: r => some ([v], r)
      | _ => none

/-- The members of an object behind its opening brace, one at least; `fuel` bounds their count. -/
def members (name : List Char → Step (List Char)) (value : String → List Char → Step Json) :
    (fuel : Nat) → List Char → Step Members
  | 0, _ => none
  | fuel + 1, cs =>
    match skip cs with
    | '"' :: r =>
      match name r with
      | none => none
      | some (k, r) =>
        match skip r with
        | ':' :: r =>
          match value (String.ofList k) (skip r) with
          | none => none
          | some (v, r) =>
            match skip r with
            | ',' :: r =>
              (members name value fuel r).map fun (ms, r) => ((String.ofList k, v) :: ms, r)
            | '}' :: r => some ([(String.ofList k, v)], r)
            | _ => none
        | _ => none
    | _ => none

/-- A list behind its opening bracket. -/
def list (value : (i : Nat) → List Char → Step Json) (cs : List Char) : Step Json :=
  match skip cs with
  | ']' :: r => some (.arr [], r)
  | r => (items value r.length 0 r).map fun (vs, r) => (.arr vs, r)

/-- An object behind its opening brace. -/
def object (name : List Char → Step (List Char)) (value : String → List Char → Step Json)
    (cs : List Char) : Step Json :=
  match skip cs with
  | '}' :: r => some (.obj [], r)
  | r => (members name value r.length r).map fun (ms, r) => (.obj ms, r)

/-- The value at the start of a text, in which containers are nested `depth` deep at most. -/
def value (t : Tokens) : (depth : Nat) → List Char → Step Json
  | _, 'n' :: 'u' :: 'l' :: 'l' :: r => some (.null, r)
  | _, 't' :: 'r' :: 'u' :: 'e' :: r => some (.bool true, r)
  | _, 'f' :: 'a' :: 'l' :: 's' :: 'e' :: r => some (.bool false, r)
  | _, '"' :: r => (t.string r).map fun (cs, r) => (.str (String.ofList cs), r)
  | depth + 1, '[' :: r => list (fun _ => value t depth) r
  | depth + 1, '{' :: r => object t.string (fun _ => value t depth) r
  | _, cs => (t.number cs).map fun (n, r) => (.num n, r)

/-- How deep containers may be nested. -/
def maxDepth : Nat := 127

/-! ## Records -/

/-- A way to read a value whose containers are nested `depth` deep at most. -/
abbrev Reader := (depth : Nat) → List Char → Step Json

/-- Passes over a value, however deep its containers are nested; `null` stands for it. -/
def passOver (cs : List Char) : Step Json :=
  (value .lenient cs.length cs).map fun (_, r) => (.null, r)

/-- Any value. -/
def whole : Reader := value .strict

/-- A record that has the given fields, as an object or as a list of them. The values of members of
other names are passed over. -/
def record (fields : List (String × Reader)) : Reader
  | depth + 1, '[' :: r => list (fun i => ((fields[i]?.map Prod.snd).getD whole) depth) r
  | depth + 1, '{' :: r =>
    let read (name : String) : List Char → Step Json :=
      match fields.lookup name with
      | some reader => reader depth
      | none => passOver
    object stringBody read r
  | depth, cs => whole depth cs

end Parser

open Json.Parser in
/-- The value of a text, with all its members as they stand, repeated names included. -/
def parseAs? (read : Reader) (s : String) : Option Json :=
  match read maxDepth (skip s.toList) with
  | some (v, r) => if (skip r).isEmpty then some v else none
  | none => none

/-- The value of a text. -/
def parse? (s : String) : Option Json :=
  (parseAs? Parser.whole s).map collapse

end Parley.Json
