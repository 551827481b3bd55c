import SearchLang.Text.Basic

/-!
# Decimals

A decimal is a coefficient times a power of ten. This module reads the decimal
literals of queries and settings: an optional sign, digits with an optional
point, and an optional exponent.
-/

namespace SearchLang

/-- The magnitude `coefficient * 10 ^ exponent`. -/
structure Decimal where
  coefficient : Nat
  exponent : Int
  deriving DecidableEq, Repr

namespace Decimal

/-- The value of a digit character. -/
def digitValue (c : Char) : Nat :=
  c.toNat - '0'.toNat

/-- The number that a row of digits writes in base ten. -/
def ofDigits (digits : Text) : Nat :=
  digits.foldl (fun n c => 10 * n + digitValue c) 0

/-- The digits of a number in base ten. -/
def digits (n : Nat) : Text :=
  Nat.toDigits 10 n

/-- A sign at the front of a text: whether it is a minus, and the text after it. -/
def takeSign : Text → Bool × Text
  | '-' :: rest => (true, rest)
  | '+' :: rest => (false, rest)
  | s => (false, s)

/-- The exponent part of a literal, which must be the whole rest of the text. -/
def readExponent? : Text → Option Int
  | [] => some 0
  | c :: rest =>
    if c == 'e' || c == 'E' then
      let (negative, digits) := takeSign rest
      if digits.isEmpty || !digits.all Char.isDigit then none
      else if negative then some (-(ofDigits digits : Int))
      else some (ofDigits digits)
    else
      none

/-- The fraction digits and what follows them; a text without a point has no fraction. -/
def takeFraction : Text → Text × Text
  | '.' :: rest => rest.span Char.isDigit
  | s => ([], s)

/-- Reads an unsigned literal: `5`, `5.`, `.5`, `0.5`, each with an optional exponent. -/
def readUnsigned? (s : Text) : Option Decimal :=
  let (whole, rest) := s.span Char.isDigit
  let (fraction, rest) := takeFraction rest
  if whole.isEmpty && fraction.isEmpty then
    none
  else
    (readExponent? rest).map fun e =>
      ⟨ofDigits (whole ++ fraction), e - fraction.length⟩

/-- Reads a literal: whether it has a minus sign, and its magnitude. -/
def read? (s : Text) : Option (Bool × Decimal) :=
  let (negative, rest) := takeSign s
  (readUnsigned? rest).map fun d => (negative, d)

/-- Whether the whole text is a decimal literal. -/
def isLiteral (s : Text) : Bool :=
  (read? s).isSome

/-- Moves trailing zeros of the coefficient into the exponent, `fuel` of them at most. -/
def dropZeros : Nat → Nat → Int → Decimal
  | 0, n, e => ⟨n, e⟩
  | fuel + 1, n, e => if n % 10 = 0 then dropZeros fuel (n / 10) (e + 1) else ⟨n, e⟩

/-- The same magnitude with no trailing zero in the coefficient. -/
def normalize (d : Decimal) : Decimal :=
  if d.coefficient = 0 then ⟨0, 0⟩ else dropZeros d.coefficient d.coefficient d.exponent

theorem readUnsigned?_nil : readUnsigned? [] = none := rfl

end Decimal

end SearchLang
