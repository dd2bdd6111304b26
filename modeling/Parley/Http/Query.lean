/-
The query part of addresses: pairs of a key and a value, in which a blank becomes a plus sign and
every byte outside a few characters of ASCII its two hexadecimal digits behind a percent sign.
-/
import Parley.Text.Digit

namespace Parley.Http.Query

/-- Whether a character stands for itself. -/
def isPlain (c : Char) : Bool :=
  c.isAlphanum || c = '*' || c = '-' || c = '.' || c = '_'

/-- A byte behind a percent sign. -/
def percent (b : UInt8) : List Char :=
  ['%', Text.upperHexDigit (b.toNat / 16), Text.upperHexDigit (b.toNat % 16)]

/-- The characters that stand for one character. -/
def encodeChar (c : Char) : List Char :=
  if c = ' ' then ['+']
  else if isPlain c then [c]
  else (String.utf8EncodeChar c).flatMap percent

/-- A key or a value. -/
def encodePart (s : String) : List Char :=
  s.toList.flatMap encodeChar

/-- A key with its value. -/
def encodePair (p : String × String) : List Char :=
  encodePart p.1 ++ '=' :: encodePart p.2

/-- All pairs, with an ampersand between two of them. -/
def encode : List (String × String) → List Char
  | [] => []
  | [p] => encodePair p
  | p :: ps => encodePair p ++ '&' :: encode ps

end Parley.Http.Query
