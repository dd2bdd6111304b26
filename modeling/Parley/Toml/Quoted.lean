/-
Names and strings of TOML documents. A string stands between double quotes, where a backslash
escapes, or between single quotes, where nothing does; three quotes of either kind enclose a
string over several lines.
-/
import Parley.Text.Digit
import Parley.Text.Step

namespace Parley.Toml

open Text (Step prepend)

/-! ## Characters -/

/-- Whether a character is a blank inside a line. -/
def isSpace (c : Char) : Bool :=
  c = ' ' || c = '\t'

/-- Whether a character may stand for itself in a comment or a string: all but the control
characters, of which the tab is let through. -/
def isPlain (c : Char) : Bool :=
  c = '\t' || (32 ≤ c.toNat && c.toNat ≠ 127)

/-- The character with a code point, if there is one. -/
def character? (n : Nat) : Option Char :=
  if n < 0xd800 ∨ (0xdfff < n ∧ n < 0x110000) then some (Char.ofNat n) else none

/-- The character that a single letter stands for behind a backslash. -/
def escaped? : Char → Option Char
  | '"' => some '"'
  | '\\' => some '\\'
  | 'b' => some (Char.ofNat 8)
  | 'f' => some (Char.ofNat 12)
  | 'n' => some '\n'
  | 'r' => some '\r'
  | 't' => some '\t'
  | _ => none

/-- The character that hexadecimal digits stand for. -/
def numbered? (digits : List Char) : Option Char :=
  (Text.ofHex? digits).bind character?

/-! ## Strings on one line -/

/-- What a string between double quotes holds, from behind the opening one. -/
def basicBody : List Char → Step (List Char)
  | [] => none
  | '"' :: r => some ([], r)
  | '\\' :: 'u' :: a :: b :: c :: d :: r => prepend (numbered? [a, b, c, d]) (basicBody r)
  | '\\' :: 'U' :: a :: b :: c :: d :: e :: f :: g :: h :: r =>
    prepend (numbered? [a, b, c, d, e, f, g, h]) (basicBody r)
  | '\\' :: c :: r => prepend (escaped? c) (basicBody r)
  | c :: r => if isPlain c then prepend (some c) (basicBody r) else none

/-- What a string between single quotes holds. -/
def literalBody : List Char → Step (List Char)
  | [] => none
  | '\'' :: r => some ([], r)
  | c :: r => if isPlain c then prepend (some c) (literalBody r) else none

/-! ## Strings over several lines -/

/-- The text without the line end at its start. -/
def dropLineEnd : List Char → List Char
  | '\n' :: r => r
  | '\r' :: '\n' :: r => r
  | r => r

/-- Whether only blanks are left in the line. -/
def isLineRest (cs : List Char) : Bool :=
  match cs.dropWhile isSpace with
  | '\n' :: _ => true
  | '\r' :: '\n' :: _ => true
  | _ => false

/-- What a string between three double quotes holds. Up to two more quotes may stand in front of
the closing ones; a backslash at the end of a line takes it away with all blanks and line ends
that follow, which is what `skipping` is for. -/
def basicLines : (skipping : Bool) → List Char → Step (List Char)
  | _, [] => none
  | _, '"' :: '"' :: '"' :: '"' :: '"' :: r => some (['"', '"'], r)
  | _, '"' :: '"' :: '"' :: '"' :: r => some (['"'], r)
  | _, '"' :: '"' :: '"' :: r => some ([], r)
  | _, '"' :: r => prepend (some '"') (basicLines false r)
  | _, '\\' :: 'u' :: a :: b :: c :: d :: r =>
    prepend (numbered? [a, b, c, d]) (basicLines false r)
  | _, '\\' :: 'U' :: a :: b :: c :: d :: e :: f :: g :: h :: r =>
    prepend (numbered? [a, b, c, d, e, f, g, h]) (basicLines false r)
  | _, '\\' :: c :: r =>
    if isLineRest (c :: r) then basicLines true (c :: r)
    else prepend (escaped? c) (basicLines false r)
  | skipping, '\n' :: r =>
    if skipping then basicLines true r else prepend (some '\n') (basicLines false r)
  | skipping, '\r' :: '\n' :: r =>
    if skipping then basicLines true r else prepend (some '\n') (basicLines false r)
  | skipping, c :: r =>
    if skipping && isSpace c then basicLines true r
    else if isPlain c then prepend (some c) (basicLines false r)
    else none

/-- What a string between three single quotes holds. -/
def literalLines : List Char → Step (List Char)
  | [] => none
  | '\'' :: '\'' :: '\'' :: '\'' :: '\'' :: r => some (['\'', '\''], r)
  | '\'' :: '\'' :: '\'' :: '\'' :: r => some (['\''], r)
  | '\'' :: '\'' :: '\'' :: r => some ([], r)
  | '\n' :: r => prepend (some '\n') (literalLines r)
  | '\r' :: '\n' :: r => prepend (some '\n') (literalLines r)
  | c :: r => if isPlain c then prepend (some c) (literalLines r) else none

/-! ## Either kind -/

/-- The string of the characters that were read. -/
def ofBody (body : Step (List Char)) : Step String :=
  body.map fun (cs, r) => (String.ofList cs, r)

/-- The string at the start of a text. -/
def string : List Char → Step String
  | '"' :: '"' :: '"' :: r => ofBody (basicLines false (dropLineEnd r))
  | '\'' :: '\'' :: '\'' :: r => ofBody (literalLines (dropLineEnd r))
  | '"' :: r => ofBody (basicBody r)
  | '\'' :: r => ofBody (literalBody r)
  | _ => none

/-! ## Names -/

/-- Whether a character may stand in a name without quotes. -/
def isBare (c : Char) : Bool :=
  c.isAlphanum || c = '_' || c = '-'

/-- The name at the start of a text. -/
def name : List Char → Step String
  | '"' :: r => ofBody (basicBody r)
  | '\'' :: r => ofBody (literalBody r)
  | cs =>
    match cs.takeWhile isBare with
    | [] => none
    | bare => some (String.ofList bare, cs.dropWhile isBare)

/-- The names at the start of a text, with a dot between two of them and blanks around each;
`fuel` bounds their number. -/
def names : (fuel : Nat) → List Char → Step (List String)
  | 0, _ => none
  | fuel + 1, cs =>
    match name (cs.dropWhile isSpace) with
    | none => none
    | some (k, r) =>
      match r.dropWhile isSpace with
      | '.' :: r => (names fuel r).map fun (ks, r) => (k :: ks, r)
      | r => some ([k], r)

/-- The greatest number of names that lead to a value, and the greatest depth of a value. -/
def depthMax : Nat := 79

/-- The names that lead to a value or a table. -/
def path (cs : List Char) : Step (List String) :=
  names depthMax cs

end Parley.Toml
