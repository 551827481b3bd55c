import SearchLang.Number.Basic

/-!
# Numerals

The literals of numbers by their parts, and the number that each of them writes.
A numeral has a sign or none, digits with or without a point, and an exponent or
none, as in `[+-]?([0-9]+(\.[0-9]*)?|\.[0-9]+)([eE][+-]?[0-9]+)?`.
-/

namespace SearchLang

/-- The sign in front of digits. -/
inductive NumeralSign where
  | unsigned
  | plus
  | minus
  deriving DecidableEq, Repr

namespace NumeralSign

def text : NumeralSign → Text
  | unsigned => []
  | plus => ['+']
  | minus => ['-']

def isMinus : NumeralSign → Bool
  | minus => true
  | _ => false

end NumeralSign

/-- A row of digits, which may be empty. -/
structure Digits where
  text : Text
  all_isDigit : text.all Char.isDigit = true := by decide
  deriving DecidableEq, Repr

namespace Digits

/-- The number that a row of digits writes. -/
def value (d : Digits) : Nat :=
  Decimal.ofDigits d.text

theorem isDigit (d : Digits) : ∀ c ∈ d.text, c.isDigit = true :=
  List.all_eq_true.mp d.all_isDigit

end Digits

/-- The exponent of a numeral: a letter of either case, a sign and at least one digit. -/
structure NumeralExponent where
  upper : Bool := false
  sign : NumeralSign := .unsigned
  digits : Digits
  ne_nil : digits.text ≠ [] := by decide
  deriving DecidableEq, Repr

namespace NumeralExponent

def text (e : NumeralExponent) : Text :=
  (if e.upper then 'E' else 'e') :: (e.sign.text ++ e.digits.text)

def value (e : NumeralExponent) : Int :=
  if e.sign.isMinus then -(e.digits.value : Int) else e.digits.value

end NumeralExponent

/-- A literal of a number. There is a digit before the point or after it. -/
structure Numeral where
  sign : NumeralSign := .unsigned
  whole : Digits := { text := [] }
  /-- The digits after the point, if there is one. -/
  fraction : Option Digits := none
  exponent : Option NumeralExponent := none
  hasDigit : whole.text ≠ [] ∨ (fraction.map Digits.text).getD [] ≠ [] := by decide
  deriving DecidableEq, Repr

namespace Numeral

/-- The digits after the point. -/
def fractionDigits (n : Numeral) : Text :=
  (n.fraction.map Digits.text).getD []

/-- The point and the digits after it. -/
def pointText (n : Numeral) : Text :=
  (n.fraction.map fun d => '.' :: d.text).getD []

def exponentText (n : Numeral) : Text :=
  (n.exponent.map NumeralExponent.text).getD []

/-- The text of a numeral without its sign. -/
def unsignedText (n : Numeral) : Text :=
  n.whole.text ++ (n.pointText ++ n.exponentText)

def text (n : Numeral) : Text :=
  n.sign.text ++ n.unsignedText

/-- The magnitude that a numeral writes: each digit after the point takes one off the exponent. -/
def decimal (n : Numeral) : Decimal where
  coefficient := Decimal.ofDigits (n.whole.text ++ n.fractionDigits)
  exponent := (n.exponent.map NumeralExponent.value).getD 0 - n.fractionDigits.length

/-- The number nearest to what a numeral writes. -/
def value (n : Numeral) : Number :=
  .ofDecimal n.sign.isMinus n.decimal

end Numeral

end SearchLang
