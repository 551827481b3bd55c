import SearchLang.Number.Shortest

/-!
# Number layouts

How the shortest digits of a number are set: which powers of ten are written
plainly, whether a whole number keeps a fraction, and what stands for the
numbers without digits. Queries and JSON texts each have a layout of their own.
-/

namespace SearchLang

/-- The decisions of a number format. -/
structure NumberLayout where
  /-- Which of two equally near decimals is written. -/
  tie : Tie
  /-- Whether a number whose first digit counts `10 ^ e` is written without an exponent. -/
  plain : Int → Bool
  /-- What a number written plainly without a fraction ends with. -/
  wholeEnd : Text
  /-- What is written for an infinity, by its sign. -/
  infinity : Bool → Text
  /-- What is written for not-a-number. -/
  nan : Text

namespace NumberLayout

/-- Numbers in queries and token texts have no exponent and no idle fraction. -/
def query : NumberLayout where
  tie := .up
  plain := fun _ => true
  wholeEnd := []
  infinity := fun negative => if negative then "-inf".toList else "inf".toList
  nan := "NaN".toList

/-- Numbers in JSON have a fraction or an exponent; from `10 ^ -5` to `10 ^ 15` they have no
exponent. What is not finite is written as null. -/
def json : NumberLayout where
  tie := .even
  plain := fun e => -5 ≤ e && e ≤ 15
  wholeEnd := ['.', '0']
  infinity := fun _ => "null".toList
  nan := "null".toList

/-- Digits times a power of ten without an exponent. -/
def setPlain (wholeEnd : Text) (digits : Text) (exponent : Int) : Text :=
  if 0 ≤ exponent then
    digits ++ List.replicate exponent.toNat '0' ++ wholeEnd
  else
    let places := (-exponent).toNat
    if places < digits.length then
      digits.take (digits.length - places) ++ '.' :: digits.drop (digits.length - places)
    else
      '0' :: '.' :: List.replicate (places - digits.length) '0' ++ digits

/-- Digits with a point after the first, and the exponent of the first digit with its sign. -/
def setScientific (digits : Text) (first : Int) : Text :=
  let mantissa := match digits with
    | d :: e :: rest => d :: '.' :: e :: rest
    | short => short
  mantissa ++ 'e' :: (if first < 0 then '-' else '+') :: Decimal.digits first.natAbs

/-- The text of a magnitude. -/
def magnitude (layout : NumberLayout) (x : Magnitude) : Text :=
  let d := x.shortest layout.tie
  let digits := Decimal.digits d.coefficient
  let first := d.exponent + digits.length - 1
  if layout.plain first then setPlain layout.wholeEnd digits d.exponent
  else setScientific digits first

/-- The text of a number. -/
def text (layout : NumberLayout) : Number → Text
  | .finite negative x =>
    if negative then '-' :: layout.magnitude x else layout.magnitude x
  | .infinite negative => layout.infinity negative
  | .nan => layout.nan

end NumberLayout

/-- The text of a number in a query. -/
def Number.display (n : Number) : Text :=
  NumberLayout.query.text n

/-- The text of a number in a JSON text. -/
def Number.json (n : Number) : Text :=
  NumberLayout.json.text n

end SearchLang
