/-
Dates and times of TOML documents. Each is kept as a text of one fixed form: a `T` between date
and time, at most nine digits of a second without zeros at their end, and `Z` or hours and minutes
for the offset.
-/
import Parley.Text.Digit
import Parley.Text.Step

namespace Parley.Toml.Date

open Text (Step)

/-- A number of two digits up to a greatest one, with its digits. -/
def twoDigits (low high : Nat) : List Char → Step (List Char × Nat)
  | a :: b :: r =>
    match Text.digit? a, Text.digit? b with
    | some x, some y =>
      if low ≤ 10 * x + y ∧ 10 * x + y ≤ high then some (([a, b], 10 * x + y), r) else none
    | _, _ => none
  | _ => none

/-- Whether a year has a leap day. -/
def isLeap (year : Nat) : Bool :=
  year % 4 = 0 && (year % 100 ≠ 0 || year % 400 = 0)

/-- How many days a month has. -/
def daysIn (year month : Nat) : Nat :=
  if month = 2 then if isLeap year then 29 else 28
  else if month = 4 ∨ month = 6 ∨ month = 9 ∨ month = 11 then 30
  else 31

/-- A day: year, month and day of the month. -/
def day : List Char → Step (List Char)
  | a :: b :: c :: d :: '-' :: r =>
    if [a, b, c, d].all Char.isDigit then
      match twoDigits 1 12 r with
      | some ((m, month), '-' :: r) =>
        let year := Text.ofDigits ([a, b, c, d].filterMap Text.digit?)
        (twoDigits 1 (daysIn year month) r).map fun ((d', _), r) =>
          ([a, b, c, d, '-'] ++ m ++ '-' :: d', r)
      | _ => none
    else none
  | _ => none

/-- The fraction of a second, if there is one, cut behind its ninth digit. -/
def fraction : List Char → Step (List Char)
  | '.' :: r =>
    match r.takeWhile Char.isDigit with
    | [] => none
    | ds =>
      let kept := ((ds.take 9).reverse.dropWhile (· = '0')).reverse
      some (if kept.isEmpty then [] else '.' :: kept, r.dropWhile Char.isDigit)
  | r => some ([], r)

/-- A time of the day; a minute may have a leap second. -/
def time (cs : List Char) : Step (List Char) :=
  match twoDigits 0 23 cs with
  | some ((h, _), ':' :: r) =>
    match twoDigits 0 59 r with
    | some ((m, _), ':' :: r) =>
      match twoDigits 0 60 r with
      | some ((s, _), r) => (fraction r).map fun (f, r) => (h ++ ':' :: m ++ ':' :: s ++ f, r)
      | none => none
    | _ => none
  | _ => none

/-- How far a time is from that of Greenwich, if it is said. -/
def offset : List Char → Step (List Char)
  | [] => some ([], [])
  | c :: r =>
    if c = 'Z' ∨ c = 'z' then some (['Z'], r)
    else if c = '+' ∨ c = '-' then
      match twoDigits 0 23 r with
      | some ((h, hours), ':' :: r) =>
        (twoDigits 0 59 r).map fun ((m, minutes), r) =>
          ((if hours = 0 ∧ minutes = 0 then '+' else c) :: h ++ ':' :: m, r)
      | _ => none
    else none

/-- What a reader gives that leaves nothing of the text. -/
def all? (result : Step (List Char)) : Option (List Char) :=
  match result with
  | some (a, []) => some a
  | _ => none

/-- A time with an offset or without. -/
def offsetTime? (cs : List Char) : Option (List Char) :=
  match time cs with
  | some (t, r) => (all? (offset r)).map (t ++ ·)
  | none => none

/-- A day with a time, a day or a time. -/
def parse? (cs : List Char) : Option (List Char) :=
  match day cs with
  | some (d, []) => some d
  | some (d, c :: r) =>
    if c = 'T' ∨ c = 't' ∨ c = ' ' then (offsetTime? r).map fun t => d ++ 'T' :: t else none
  | none => all? (time cs)

end Parley.Toml.Date
