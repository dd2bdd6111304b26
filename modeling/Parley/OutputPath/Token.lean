/-
The tokens of output paths. Names are of ASCII; a quoted name is a JSON string, a raw string
stands between apostrophes and a literal is JSON between backticks.
-/
import Parley.Json.Parser
import Parley.Text.Delimited

namespace Parley.OutputPath

/-- A token. -/
inductive Token where
  | name (text : String)
  | quotedName (text : String)
  | number (value : Int)
  | literal (value : Json)
  | dot
  | star
  /-- An empty pair of brackets. -/
  | flatten
  | and
  | or
  | pipe
  /-- An opening bracket with a question mark. -/
  | filter
  | openBracket
  | closeBracket
  | comma
  | colon
  | not
  | compare (op : String)
  | at
  | ampersand
  | openParen
  | closeParen
  | openBrace
  | closeBrace
  deriving DecidableEq, Repr

namespace Token

/-- The delimiter of literals. -/
def backtick : Char := Char.ofNat 96

/-- Whether a character may start a name. -/
def startsName (c : Char) : Bool :=
  c.isAlpha || c = '_'

/-- Whether a character may go on with a name. -/
def continuesName (c : Char) : Bool :=
  c.isAlphanum || c = '_'

/-- The number that decimal digits stand for. -/
def ofDigits (ds : List Char) : Nat :=
  Text.ofDigits (ds.filterMap Text.digit?)

/-- A step of reading: the token that starts the text, none where a blank starts it, and the rest
of the text. -/
abbrev Step := Option (Option Token × List Char)

/-- A token of two characters when the given one follows, and else one of one character. -/
def pair (next : Char) (long short : Token) : List Char → Step
  | c :: r => if c = next then some (some long, r) else some (some short, c :: r)
  | [] => some (some short, [])

/-- What stands between two delimiters, made into a token. -/
def enclosed (close : Char) (make : List Char → Option Token) (cs : List Char) : Step :=
  match Text.delimited close cs with
  | none => none
  | some (text, rest) => (make text).map fun t => (some t, rest)

/-- The name of a JSON string without its quotes. -/
def ofQuoted (text : List Char) : Option Token :=
  match Json.parse? (String.ofList ('"' :: (text ++ ['"']))) with
  | some (.str s) => some (.quotedName s)
  | _ => none

/-- The text between apostrophes, where only an apostrophe is escaped. -/
def ofRaw (text : List Char) : Option Token :=
  some (.literal (.str (String.ofList (Text.unescape '\'' text))))

/-- The value between backticks, where a backtick is escaped. -/
def ofLiteral (text : List Char) : Option Token :=
  (Json.parse? (String.ofList (Text.unescape backtick text))).map .literal

/-- The token that starts with the given character. -/
def step (c : Char) (r : List Char) : Step :=
  if c = ' ' ∨ c = '\n' ∨ c = '\t' ∨ c = '\r' then some (none, r)
  else if startsName c then
    some (some (.name (String.ofList (c :: r.takeWhile continuesName))), r.dropWhile continuesName)
  else if c.isDigit then
    some (some (.number (ofDigits (c :: r.takeWhile Char.isDigit))), r.dropWhile Char.isDigit)
  else if c = backtick then enclosed c ofLiteral r
  else
    match c with
    | '.' => some (some .dot, r)
    | '*' => some (some .star, r)
    | '[' =>
      match r with
      | ']' :: r => some (some .flatten, r)
      | '?' :: r => some (some .filter, r)
      | r => some (some .openBracket, r)
    | ']' => some (some .closeBracket, r)
    | ',' => some (some .comma, r)
    | ':' => some (some .colon, r)
    | '@' => some (some .at, r)
    | '(' => some (some .openParen, r)
    | ')' => some (some .closeParen, r)
    | '{' => some (some .openBrace, r)
    | '}' => some (some .closeBrace, r)
    | '|' => pair '|' .or .pipe r
    | '&' => pair '&' .and .ampersand r
    | '>' => pair '=' (.compare ">=") (.compare ">") r
    | '<' => pair '=' (.compare "<=") (.compare "<") r
    | '!' => pair '=' (.compare "!=") .not r
    | '=' =>
      match r with
      | '=' :: r => some (some (.compare "=="), r)
      | _ => none
    | '"' => enclosed '"' ofQuoted r
    | '\'' => enclosed '\'' ofRaw r
    | '-' =>
      match r with
      | d :: _ =>
        if d.isDigit && d ≠ '0' then
          some (some (.number (-(ofDigits (r.takeWhile Char.isDigit) : Int))),
            r.dropWhile Char.isDigit)
        else none
      | [] => none
    | _ => none

/-- All tokens of a text; every step takes one character at least. -/
def ofChars : (fuel : Nat) → List Char → Option (List Token)
  | _, [] => some []
  | 0, _ :: _ => none
  | fuel + 1, c :: r =>
    match step c r with
    | none => none
    | some (t, rest) => (ofChars fuel rest).map (t.toList ++ ·)

/-- The tokens of an expression, unless some part of it is no token. -/
def scan (s : String) : Option (List Token) :=
  ofChars s.toList.length s.toList

end Token

end Parley.OutputPath
