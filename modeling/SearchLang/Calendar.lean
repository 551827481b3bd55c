import SearchLang.Node.Basic
import SearchLang.Number.Decimal
import SearchLang.Text.Space

/-!
# Calendar dates

A date leaf only has the layout of a date. This module tells which texts name a
day of the Gregorian calendar, extended to all years.
-/

namespace SearchLang

/-- Whether a year has a 29th of February. -/
def isLeapYear (year : Int) : Bool :=
  year % 4 == 0 && (year % 100 != 0 || year % 400 == 0)

/-- How many days a month has; there are twelve months. -/
def daysInMonth (year : Int) (month : Nat) : Nat :=
  match month with
  | 1 | 3 | 5 | 7 | 8 | 10 | 12 => 31
  | 4 | 6 | 9 | 11 => 30
  | 2 => if isLeapYear year then 29 else 28
  | _ => 0

/-- A day of the calendar. -/
structure CalendarDate where
  year : Int
  month : Nat
  day : Nat
  day_pos : 0 < day
  day_le : day ≤ daysInMonth year month
  deriving DecidableEq, Repr

namespace CalendarDate

/-- The first and the last year that are known. -/
def firstYear : Int := -262143
@[inherit_doc firstYear]
def lastYear : Int := 262142

/-- The day with a year, a month and a number in the month, if there is one. -/
def of? (year : Int) (month day : Nat) : Option CalendarDate :=
  if year < firstYear ∨ lastYear < year then none
  else if h : 0 < day ∧ day ≤ daysInMonth year month then some ⟨year, month, day, h.1, h.2⟩
  else none

/-- Reads up to `width` digits, at least one, and gives their number and the rest. -/
def readDigits? (width : Nat) (s : Text) : Option (Nat × Text) :=
  let digits := (s.take width).takeWhile Char.isDigit
  if digits.isEmpty then none else some (Decimal.ofDigits digits, s.drop digits.length)

/-- Reads a year: four digits at most, or any number of digits after a sign. -/
def readYear? (s : Text) : Option (Int × Text) :=
  match s with
  | '-' :: rest => (readDigits? rest.length rest).map fun (n, rest) => (-(n : Int), rest)
  | '+' :: rest => (readDigits? rest.length rest).map fun (n, rest) => ((n : Int), rest)
  | _ => (readDigits? 4 s).map fun (n, rest) => ((n : Int), rest)

/-- The text after the hyphen at its front. -/
def dropHyphen? : Text → Option Text
  | '-' :: rest => some rest
  | _ => none

/-- Reads year, month and day with hyphens between them. Spaces may stand before each number, and
nothing may follow the last. -/
def read? (s : Text) : Option CalendarDate := do
  let (year, s) ← readYear? (Text.trimLeft Text.isSpace s)
  let s ← dropHyphen? s
  let (month, s) ← readDigits? 2 (Text.trimLeft Text.isSpace s)
  let s ← dropHyphen? s
  let (day, s) ← readDigits? 2 (Text.trimLeft Text.isSpace s)
  if s.isEmpty then of? year month day else none

/-- A number with zeros in front up to a width. -/
def padded (width n : Nat) : Text :=
  let digits := Decimal.digits n
  List.replicate (width - digits.length) '0' ++ digits

/-- The text of a date. Years beyond four digits have a sign. -/
def render (d : CalendarDate) : Text :=
  let year :=
    if 0 ≤ d.year ∧ d.year ≤ 9999 then padded 4 d.year.toNat
    else (if d.year < 0 then '-' else '+') :: padded 4 d.year.natAbs
  year ++ '-' :: padded 2 d.month ++ '-' :: padded 2 d.day

end CalendarDate

/-- The calendar date of a date leaf. -/
def Node.calendarDate? : Node → Option CalendarDate
  | .leaf (.text .date value) _ => CalendarDate.read? value
  | _ => none

end SearchLang
