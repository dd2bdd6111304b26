/-
Text between delimiters: a backslash keeps the character behind it from closing the text.
-/

namespace Parley.Text

/-- The text up to the closing delimiter, backslashes included, and what stands behind it; none
when it is not closed. -/
def delimited (close : Char) : List Char → Option (List Char × List Char)
  | [] => none
  | c :: r =>
    if c = close then some ([], r)
    else if c = '\\' then
      match r with
      | [] => none
      | d :: r => (delimited close r).map fun (text, rest) => (c :: d :: text, rest)
    else (delimited close r).map fun (text, rest) => (c :: text, rest)

/-- The text with the backslash taken away from every escaped delimiter. -/
def unescape (close : Char) : List Char → List Char
  | [] => []
  | [c] => [c]
  | c :: d :: r =>
    if c = '\\' ∧ d = close then close :: unescape close r else c :: unescape close (d :: r)

/-- Whether one text occurs in another. -/
def occursIn (t : List Char) : List Char → Bool
  | [] => t.isEmpty
  | c :: cs => t.isPrefixOf (c :: cs) || occursIn t cs

end Parley.Text
