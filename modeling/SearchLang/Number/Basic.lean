import SearchLang.Number.Decimal

/-!
# Numbers

The numbers of a query are binary64 numbers. The magnitude of a finite one is a
whole number of units of `2 ^ -1074`, of which at most 53 leading bits are set
and which stays below `2 ^ 1024`; order and equality are those of the units.
A decimal is read as the nearest magnitude, a half going to the even neighbour.
-/

namespace SearchLang

/-- The unit of magnitudes is two to the power of minus this. -/
@[irreducible] def unitBits : Nat := 1074

/-- Magnitudes stay below this, in units. -/
def unitsBound : Nat := Nat.pow 2 (1024 + unitBits)

/-- How many low bits of a number of units a significand of 53 bits leaves out. -/
def spareBits (units : Nat) : Nat :=
  units.log2 - 52

/-- The magnitude of a finite binary64 number, in units of `2 ^ -1074`. -/
structure Magnitude where
  units : Nat
  units_lt : units < unitsBound
  spare_dvd : Nat.pow 2 (spareBits units) ∣ units
  deriving DecidableEq, Repr

/-- The quotient of two numbers, rounded to the nearest; a half goes to the even neighbour. -/
def roundHalfEven (n d : Nat) : Nat :=
  let q := n / d
  let r := n % d
  if 2 * r < d then q
  else if d < 2 * r then q + 1
  else if q % 2 = 0 then q
  else q + 1

/-- The number of units nearest to `n / d` among those with a significand of 53 bits. -/
def roundUnits (n d : Nat) : Nat :=
  let scale := Nat.pow 2 (spareBits (n / d))
  roundHalfEven n (d * scale) * scale

theorem roundHalfEven_le (n d : Nat) : roundHalfEven n d ≤ n / d + 1 := by
  unfold roundHalfEven
  grind

/-- Scaling by a power of two adds to the exponent of a bound. -/
theorem mul_two_pow_lt {m a b c : Nat} (h : m < Nat.pow 2 a) (hc : a + b ≤ c) :
    m * Nat.pow 2 b < Nat.pow 2 c := by
  have hmul : m * Nat.pow 2 b < Nat.pow 2 a * Nat.pow 2 b :=
    Nat.mul_lt_mul_of_pos_right h (Nat.two_pow_pos b)
  have hadd : Nat.pow 2 a * Nat.pow 2 b = Nat.pow 2 (a + b) := (Nat.pow_add 2 a b).symm
  have hle : Nat.pow 2 (a + b) ≤ Nat.pow 2 c := Nat.pow_le_pow_right (by decide) hc
  omega

/-- A product with a power of two has no more bits than its other factor. -/
theorem spareBits_mul_two_pow_le {m : Nat} (s : Nat) (hm : m < Nat.pow 2 53) :
    spareBits (m * Nat.pow 2 s) ≤ s := by
  unfold spareBits
  by_cases h0 : m * Nat.pow 2 s = 0
  · rw [h0]
    exact Nat.zero_le s
  · have hlog := (Nat.log2_lt h0).mpr (mul_two_pow_lt hm (Nat.le_refl _))
    omega

/-- A multiple of a power of two whose quotient is at most `2 ^ 53` needs no more bits. -/
theorem spareBits_dvd_mul {m s : Nat} (h : m ≤ Nat.pow 2 53) :
    Nat.pow 2 (spareBits (m * Nat.pow 2 s)) ∣ m * Nat.pow 2 s := by
  rcases Nat.lt_or_eq_of_le h with h | h
  · exact Nat.dvd_trans (Nat.pow_dvd_pow 2 (spareBits_mul_two_pow_le s h)) (Nat.dvd_mul_left _ _)
  · have heq : m * Nat.pow 2 s = Nat.pow 2 (53 + s) := by
      rw [h]
      exact (Nat.pow_add 2 53 s).symm
    have hlog : (Nat.pow 2 (53 + s)).log2 = 53 + s := Nat.log2_two_pow
    rw [heq]
    apply Nat.pow_dvd_pow
    unfold spareBits
    omega

/-- Without its spare bits a number has at most 53. -/
theorem div_spare_lt (u : Nat) : u / Nat.pow 2 (spareBits u) < Nat.pow 2 53 := by
  have hlog : u < Nat.pow 2 (u.log2 + 1) := Nat.lt_log2_self
  have hle : Nat.pow 2 (u.log2 + 1) ≤ Nat.pow 2 (spareBits u + 53) :=
    Nat.pow_le_pow_right (by decide) (by unfold spareBits; omega)
  have hadd : Nat.pow 2 (spareBits u + 53) = Nat.pow 2 (spareBits u) * Nat.pow 2 53 :=
    Nat.pow_add 2 (spareBits u) 53
  exact Nat.div_lt_of_lt_mul (Nat.lt_of_lt_of_le hlog (hadd ▸ hle))

/-- A quotient without its spare bits rounds to at most 53 bits, or to the power of two above. -/
theorem roundHalfEven_spare_le (n d : Nat) :
    roundHalfEven n (d * Nat.pow 2 (spareBits (n / d))) ≤ Nat.pow 2 53 := by
  refine Nat.le_trans (roundHalfEven_le _ _) ?_
  rw [← Nat.div_div_eq_div_mul]
  exact div_spare_lt (n / d)

theorem spareBits_dvd_roundUnits (n d : Nat) :
    Nat.pow 2 (spareBits (roundUnits n d)) ∣ roundUnits n d :=
  spareBits_dvd_mul (roundHalfEven_spare_le n d)

namespace Magnitude

/-- The magnitude nearest to a quotient of units, unless that is too large. -/
def ofRatio? (n d : Nat) : Option Magnitude :=
  if h : roundUnits n d < unitsBound then
    some ⟨roundUnits n d, h, spareBits_dvd_roundUnits n d⟩
  else
    none

/-- The magnitude zero. -/
def zero : Magnitude :=
  ⟨0, Nat.two_pow_pos (1024 + unitBits), Nat.dvd_zero _⟩

/-- The magnitude of a small whole number. -/
def ofNat (n : Nat) (h : n < Nat.pow 2 53 := by decide) : Magnitude where
  units := n * Nat.pow 2 unitBits
  units_lt := mul_two_pow_lt h (Nat.add_le_add_right (by decide) unitBits)
  spare_dvd := spareBits_dvd_mul (Nat.le_of_lt h)

/-- The magnitude nearest to a decimal, unless that is too large. A decimal whose exponent
alone puts it out of reach is not multiplied out. -/
def nearest? (d : Decimal) : Option Magnitude :=
  if d.coefficient = 0 then some zero
  else if 400 < d.exponent then none
  else if d.exponent + d.coefficient.log2 < -400 then some zero
  else if 0 ≤ d.exponent then
    ofRatio? (d.coefficient * Nat.pow 10 d.exponent.toNat * Nat.pow 2 unitBits) 1
  else
    ofRatio? (d.coefficient * Nat.pow 2 unitBits) (Nat.pow 10 (-d.exponent).toNat)

end Magnitude

/-- A binary64 number. -/
inductive Number where
  | finite (negative : Bool) (magnitude : Magnitude)
  | infinite (negative : Bool)
  | nan
  deriving DecidableEq, Repr

namespace Number

/-- The number zero without a minus sign. -/
def zero : Number := .finite false .zero

/-- A small whole number. -/
def ofNat (n : Nat) (h : n < Nat.pow 2 53 := by decide) : Number :=
  .finite false (.ofNat n h)

/-- The number one. -/
def one : Number := .ofNat 1

/-- The number two. -/
def two : Number := .ofNat 2

/-- The number ten. -/
def ten : Number := .ofNat 10

/-- Neither infinite nor not-a-number. -/
def isFinite : Number → Bool
  | .finite .. => true
  | _ => false

/-- The number nearest to a decimal with a sign; too large a decimal is infinite. -/
def ofDecimal (negative : Bool) (d : Decimal) : Number :=
  match Magnitude.nearest? d with
  | some m => .finite negative m
  | none => .infinite negative

/-- Reads a decimal literal. -/
def ofLiteral? (s : Text) : Option Number :=
  (Decimal.read? s).map fun (negative, d) => ofDecimal negative d

/-- Reads a decimal literal, `inf`, `infinity` or `nan`; the names in any case, with or without a
sign. -/
def ofText? (s : Text) : Option Number :=
  let (negative, name) := Decimal.takeSign s
  let name := Text.toLowerAscii name
  if name = ['i', 'n', 'f'] || name = ['i', 'n', 'f', 'i', 'n', 'i', 't', 'y'] then
    some (.infinite negative)
  else if name = ['n', 'a', 'n'] then
    some .nan
  else
    ofLiteral? s

/-- The whole number that a number is, if it is one without a minus sign. -/
def whole? : Number → Option Nat
  | .finite false m =>
    if m.units % Nat.pow 2 unitBits = 0 then some (m.units / Nat.pow 2 unitBits) else none
  | _ => none

/-- The number of units of a finite number, negative below zero. -/
def signed (negative : Bool) (m : Magnitude) : Int :=
  if negative then -(m.units : Int) else m.units

/-- The order of numbers; not-a-number stands in no order. -/
def lt : Number → Number → Bool
  | .nan, _ | _, .nan => false
  | .infinite a, .infinite b => a && !b
  | .infinite a, .finite .. => a
  | .finite .., .infinite b => !b
  | .finite a m, .finite b n => signed a m < signed b n

/-- Numerical equality: the two zeros are equal, and not-a-number equals nothing. -/
def equal : Number → Number → Bool
  | .infinite a, .infinite b => a == b
  | .finite a m, .finite b n => signed a m == signed b n
  | _, _ => false

/-- Numerical order or equality. -/
def le (a b : Number) : Bool :=
  a.lt b || a.equal b

/-- Finite, and between zero and a maximum. -/
def isUpTo (n max : Number) : Bool :=
  n.isFinite && Number.zero.le n && n.le max

/-- Not below zero and not not-a-number. -/
def isNonneg : Number → Bool
  | .finite negative m => !negative || m.units == 0
  | .infinite negative => !negative
  | .nan => false

/-- The smaller of two numbers; not-a-number gives way to the other. -/
def minimum (a b : Number) : Number :=
  if a = .nan then b else if b.lt a then b else a

/-- The larger of two numbers; not-a-number gives way to the other. -/
def maximum (a b : Number) : Number :=
  if a = .nan then b else if a.lt b then b else a

@[simp] theorem lt_nan (a : Number) : a.lt .nan = false := by
  cases a <;> rfl

@[simp] theorem lt_self (a : Number) : a.lt a = false := by
  cases a <;> simp [lt]

/-- Finite numbers are in the order of their units. -/
theorem le_finite (a b : Bool) (m n : Magnitude) :
    Number.le (.finite a m) (.finite b n) = decide (signed a m ≤ signed b n) := by
  simp only [le, lt, equal]
  grind

theorem le_trans {a b c : Number} (hab : a.le b = true) (hbc : b.le c = true) :
    a.le c = true := by
  cases a <;> cases b <;> cases c <;> grind [le, lt, equal]

/-- Of two finite numbers one is at most the other, or above it. -/
theorem le_eq_not_lt {a b : Number} (ha : a.isFinite = true) (hb : b.isFinite = true) :
    a.le b = !b.lt a := by
  cases a <;> cases b <;> simp_all only [isFinite, Bool.false_eq_true]
  simp only [le_finite, lt, ← decide_not, Int.not_lt]

end Number

end SearchLang
