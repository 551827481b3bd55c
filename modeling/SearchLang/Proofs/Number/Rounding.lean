import Mathlib.Algebra.Order.Field.Basic
import Mathlib.Algebra.Order.Field.Rat
import Mathlib.Data.Nat.Cast.Order.Field
import Mathlib.Tactic.FieldSimp
import Mathlib.Tactic.Linarith
import SearchLang.Number.Shortest

/-!
# Rounding

A decimal is read as the magnitude nearest to its value, and of two that are equally
near as the one with an even significand; from half way between the largest magnitude
and the power of two above it on there is none (`nearest?_eq_iff`). There is one such
magnitude at most (`IsNearest.unique`), so that decimals of one value are read alike,
however they are written (`nearest?_congr`).
-/

namespace SearchLang

/-! ## Rounding to a whole number -/

theorem cast_div_eq_div_add_mod {d : Nat} (hd : 0 < d) (n : Nat) :
    (n : ℚ) / d = (n / d : Nat) + (n % d : Nat) / (d : ℚ) := by
  have hd' : (d : ℚ) ≠ 0 := by exact_mod_cast hd.ne'
  have hn : (n : ℚ) = d * (n / d : Nat) + (n % d : Nat) := by
    exact_mod_cast (Nat.div_add_mod n d).symm
  calc (n : ℚ) / d = (d * (n / d : Nat) + (n % d : Nat)) / d := by rw [← hn]
    _ = (n / d : Nat) + (n % d : Nat) / (d : ℚ) := by rw [add_div, mul_div_cancel_left₀ _ hd']

/-- A quotient is less than a half off its rounding, or a half off an even one. -/
theorem abs_roundHalfEven_sub {d : Nat} (hd : 0 < d) (n : Nat) :
    |(roundHalfEven n d : ℚ) - n / d| < 1 / 2 ∨
      |(roundHalfEven n d : ℚ) - n / d| = 1 / 2 ∧ Even (roundHalfEven n d) := by
  have hd' : (0 : ℚ) < d := by exact_mod_cast hd
  have hsplit := cast_div_eq_div_add_mod hd n
  have hpos : (0 : ℚ) ≤ (n % d : Nat) / (d : ℚ) :=
    div_nonneg (Nat.cast_nonneg _) hd'.le
  have hlt : (n % d : Nat) / (d : ℚ) < 1 := by
    rw [div_lt_one hd']
    exact_mod_cast Nat.mod_lt n hd
  have hhalf : (n % d : Nat) / (d : ℚ) < 1 / 2 ↔ 2 * (n % d) < d := by
    rw [div_lt_div_iff₀ hd' two_pos]
    norm_cast
    omega
  have hhalf' : 1 / 2 < (n % d : Nat) / (d : ℚ) ↔ d < 2 * (n % d) := by
    rw [div_lt_div_iff₀ two_pos hd']
    norm_cast
    omega
  rw [hsplit]
  generalize (n % d : Nat) / (d : ℚ) = t at *
  unfold roundHalfEven
  dsimp only
  split_ifs with hlow hhigh heven
  · left
    have ht := hhalf.mpr hlow
    rw [abs_lt]
    constructor <;> linarith
  · left
    have ht := hhalf'.mpr hhigh
    push_cast
    rw [abs_lt]
    constructor <;> linarith
  -- a half goes to the even one of the two neighbours
  all_goals
    have ht : t = 1 / 2 :=
      le_antisymm (not_lt.mp (mt hhalf'.mp hhigh)) (not_lt.mp (mt hhalf.mp hlow))
    right
  · refine ⟨?_, Nat.even_iff.mpr heven⟩
    rw [ht, abs_sub_comm, add_sub_cancel_left]
    norm_num
  · refine ⟨?_, by rw [Nat.even_iff]; omega⟩
    rw [ht]
    push_cast
    rw [add_sub_add_left_eq_sub]
    norm_num

/-- No whole number is nearer to a quotient than its rounding, and none is as near unless the
rounding is even. -/
theorem roundHalfEven_nearest {d : Nat} (hd : 0 < d) (n k : Nat) :
    |(roundHalfEven n d : ℚ) - n / d| ≤ |(k : ℚ) - n / d| ∧
      (k ≠ roundHalfEven n d → |(k : ℚ) - n / d| = |(roundHalfEven n d : ℚ) - n / d| →
        Even (roundHalfEven n d)) := by
  have hnear := abs_roundHalfEven_sub hd n
  generalize roundHalfEven n d = q at *
  generalize (n : ℚ) / d = x at *
  by_cases hk : k = q
  · subst hk
    exact ⟨le_refl _, fun hne => absurd rfl hne⟩
  · -- two whole numbers are at least one apart
    have hone : (1 : ℚ) ≤ |(k : ℚ) - q| := by
      have hint : (1 : ℤ) ≤ |(k : ℤ) - q| := Int.one_le_abs (by omega)
      exact_mod_cast hint
    have htriangle := abs_sub_le (k : ℚ) x q
    rw [abs_sub_comm x] at htriangle
    rcases hnear with hlt | ⟨heq, heven⟩
    · exact ⟨by linarith, fun _ htie => by linarith⟩
    · exact ⟨by linarith, fun _ _ => heven⟩

/-! ## Rounding to a significand -/

/-- Whether a number of units has no bits but those of a significand. -/
def FitsSignificand (u : Nat) : Prop :=
  Nat.pow 2 (spareBits u) ∣ u

/-- The bits that a number of units has in its significand. -/
def significand (u : Nat) : Nat :=
  u / Nat.pow 2 (spareBits u)

/-- A value is rounded to a number of units with a significand: none is nearer, and none is as near
unless the significand is even. -/
structure RoundsTo (x : ℚ) (u : Nat) : Prop where
  fits : FitsSignificand u
  nearest : ∀ v, FitsSignificand v → |(u : ℚ) - x| ≤ |(v : ℚ) - x|
  even : ∀ v, FitsSignificand v → v ≠ u → |(v : ℚ) - x| = |(u : ℚ) - x| → Even (significand u)

theorem even_significand {u s : Nat} (hs : spareBits u ≤ s) (h : Nat.pow 2 (s + 1) ∣ u) :
    Even (significand u) := by
  obtain ⟨k, hk⟩ := h
  have hsplit : u = Nat.pow 2 (spareBits u) * (2 * (Nat.pow 2 (s - spareBits u) * k)) := by
    have hpow : Nat.pow 2 (s + 1) =
        Nat.pow 2 (spareBits u) * (2 * Nat.pow 2 (s - spareBits u)) := by
      show 2 ^ (s + 1) = 2 ^ spareBits u * (2 * 2 ^ (s - spareBits u))
      rw [← Nat.pow_succ', ← Nat.pow_add]
      congr 1
      omega
    rw [hpow] at hk
    rw [← Nat.mul_assoc 2, ← Nat.mul_assoc, ← hk]
  have hsig : significand u = 2 * (Nat.pow 2 (s - spareBits u) * k) :=
    Nat.div_eq_of_eq_mul_right (Nat.two_pow_pos _) hsplit
  rw [hsig]
  exact even_two_mul _

/-- The bits that are kept of a multiple of the last of them. -/
theorem significand_mul_two_pow {a s : Nat} (ha : a < Nat.pow 2 53)
    (hs : s ≤ spareBits (a * Nat.pow 2 s)) : significand (a * Nat.pow 2 s) = a := by
  have hspare := Nat.le_antisymm (spareBits_mul_two_pow_le s ha) hs
  rw [significand, hspare]
  exact Nat.mul_div_cancel a (Nat.two_pow_pos s)

theorem even_significand_roundUnits {n d : Nat}
    (h : Even (roundHalfEven n (d * Nat.pow 2 (spareBits (n / d))))) :
    Even (significand (roundUnits n d)) := by
  have hle := roundHalfEven_spare_le n d
  unfold roundUnits
  dsimp only
  generalize roundHalfEven n (d * Nat.pow 2 (spareBits (n / d))) = q at *
  generalize spareBits (n / d) = s at *
  rcases Nat.lt_or_eq_of_le hle with hlt | rfl
  · refine even_significand (spareBits_mul_two_pow_le s hlt) ?_
    obtain ⟨k, rfl⟩ := h.two_dvd
    refine ⟨k, ?_⟩
    show 2 * k * 2 ^ s = 2 ^ (s + 1) * k
    rw [Nat.pow_succ', Nat.mul_right_comm]
  · -- rounding up has reached the next power of two
    have hpow : Nat.pow 2 53 * Nat.pow 2 s = Nat.pow 2 52 * Nat.pow 2 (s + 1) := by
      show 2 ^ 53 * 2 ^ s = 2 ^ 52 * 2 ^ (s + 1)
      rw [Nat.pow_succ' (n := s), ← Nat.mul_assoc, ← Nat.pow_succ]
    rw [hpow]
    refine even_significand (spareBits_mul_two_pow_le (s + 1) (by decide)) ?_
    refine Nat.dvd_trans ?_ (Nat.mul_dvd_mul_right (Nat.pow_dvd_pow 2 (show 1 ≤ 52 by decide)) _)
    show 2 ^ (s + 1 + 1) ∣ 2 ^ 1 * 2 ^ (s + 1)
    rw [← Nat.pow_add, Nat.add_comm 1]

section

variable {n d : Nat} (hd : 0 < d)

include hd

/-- Among the multiples of the last bit that is kept none is nearer. -/
theorem roundUnits_nearest_of_dvd {v : Nat} (hv : Nat.pow 2 (spareBits (n / d)) ∣ v) :
    |(roundUnits n d : ℚ) - n / d| ≤ |(v : ℚ) - n / d| ∧
      (v ≠ roundUnits n d → |(v : ℚ) - n / d| = |(roundUnits n d : ℚ) - n / d| →
        Even (roundHalfEven n (d * Nat.pow 2 (spareBits (n / d))))) := by
  obtain ⟨k, rfl⟩ := hv
  unfold roundUnits
  dsimp only
  have hscale : 0 < Nat.pow 2 (spareBits (n / d)) := Nat.two_pow_pos _
  generalize Nat.pow 2 (spareBits (n / d)) = scale at hscale ⊢
  have hs : (0 : ℚ) < scale := by exact_mod_cast hscale
  have hdistance (m : Nat) : |((m * scale : Nat) : ℚ) - n / d| =
      |(m : ℚ) - n / (d * scale : Nat)| * scale := by
    have hd' : (d : ℚ) ≠ 0 := by exact_mod_cast hd.ne'
    have hsplit : ((m * scale : Nat) : ℚ) - n / d = ((m : ℚ) - n / (d * scale : Nat)) * scale := by
      push_cast
      field_simp
    rw [hsplit, abs_mul, abs_of_pos hs]
  obtain ⟨hle, heven⟩ := roundHalfEven_nearest (Nat.mul_pos hd hscale) n k
  rw [Nat.mul_comm scale k, hdistance, hdistance]
  refine ⟨mul_le_mul_of_nonneg_right hle hs.le, fun hne htie => ?_⟩
  exact heven (fun hk => hne (by rw [hk])) (mul_right_cancel₀ hs.ne' htie)

/-- What keeps a bit below the last one that is kept lies below the quotient, and further off. -/
theorem roundUnits_lt_of_not_dvd {v : Nat} (hv : FitsSignificand v)
    (hnot : ¬ Nat.pow 2 (spareBits (n / d)) ∣ v) :
    |(roundUnits n d : ℚ) - n / d| < |(v : ℚ) - n / d| := by
  have hspare : spareBits v < spareBits (n / d) := by
    by_contra hle
    exact hnot (Nat.dvd_trans (Nat.pow_dvd_pow 2 (not_lt.mp hle)) hv)
  have hlog : (n / d).log2 = 52 + spareBits (n / d) := by
    unfold spareBits at hspare ⊢
    omega
  have hv0 : v ≠ 0 := by
    rintro rfl
    exact hnot (Nat.dvd_zero _)
  have hq0 : n / d ≠ 0 := by
    intro h0
    rw [h0, Nat.log2_zero] at hlog
    omega
  -- the power of two between the two is a multiple of the last bit that is kept
  have hbelow : v < Nat.pow 2 (52 + spareBits (n / d)) := by
    refine (Nat.log2_lt hv0).mp ?_
    unfold spareBits at hspare ⊢
    omega
  have habove : Nat.pow 2 (52 + spareBits (n / d)) ≤ n / d := by
    rw [← hlog]
    exact Nat.log2_self_le hq0
  have hdvd : Nat.pow 2 (spareBits (n / d)) ∣ Nat.pow 2 (52 + spareBits (n / d)) :=
    Nat.pow_dvd_pow 2 (Nat.le_add_left _ 52)
  have hnearest := (roundUnits_nearest_of_dvd hd hdvd).1
  generalize Nat.pow 2 (52 + spareBits (n / d)) = p at *
  have hp : (p : ℚ) ≤ n / d := by
    have hcast : ((n / d : Nat) : ℚ) ≤ n / d := Nat.cast_div_le
    exact le_trans (by exact_mod_cast habove) hcast
  have hvp : (v : ℚ) < p := by exact_mod_cast hbelow
  rw [abs_of_nonpos (sub_nonpos.mpr hp)] at hnearest
  rw [abs_of_nonpos (show (v : ℚ) - n / d ≤ 0 by linarith)]
  linarith

/-- **A quotient is rounded to the nearest units that a significand can hold.** -/
theorem roundsTo_roundUnits : RoundsTo ((n : ℚ) / d) (roundUnits n d) where
  fits := spareBits_dvd_roundUnits n d
  nearest v hv := by
    by_cases hdvd : Nat.pow 2 (spareBits (n / d)) ∣ v
    · exact (roundUnits_nearest_of_dvd hd hdvd).1
    · exact (roundUnits_lt_of_not_dvd hd hv hdvd).le
  even v hv hne htie := by
    by_cases hdvd : Nat.pow 2 (spareBits (n / d)) ∣ v
    · exact even_significand_roundUnits ((roundUnits_nearest_of_dvd hd hdvd).2 hne htie)
    · exact absurd htie (roundUnits_lt_of_not_dvd hd hv hdvd).ne'

end

/-! ## Values out of reach -/

/-- The units of the largest magnitude. -/
def largestUnits : Nat :=
  (Nat.pow 2 53 - 1) * Nat.pow 2 (971 + unitBits)

theorem unitsBound_eq : unitsBound = Nat.pow 2 53 * Nat.pow 2 (971 + unitBits) := by
  show 2 ^ (1024 + unitBits) = 2 ^ 53 * 2 ^ (971 + unitBits)
  rw [← Nat.pow_add]
  congr 1
  omega

theorem fitsSignificand_largestUnits : FitsSignificand largestUnits :=
  spareBits_dvd_mul (by decide)

theorem fitsSignificand_unitsBound : FitsSignificand unitsBound := by
  rw [unitsBound_eq]
  exact spareBits_dvd_mul (Nat.le_refl _)

theorem two_pow_le_largestUnits : Nat.pow 2 (52 + (971 + unitBits)) ≤ largestUnits := by
  have hadd : Nat.pow 2 (52 + (971 + unitBits)) = Nat.pow 2 52 * Nat.pow 2 (971 + unitBits) :=
    Nat.pow_add 2 52 (971 + unitBits)
  rw [hadd]
  exact Nat.mul_le_mul_right _ (by decide)

theorem le_largestUnits {u : Nat} (hu : FitsSignificand u) (hlt : u < unitsBound) :
    u ≤ largestUnits := by
  by_cases hlog : 1023 + unitBits ≤ u.log2
  · -- the bits that are kept stand as high as those of the largest magnitude
    have hspare : 971 + unitBits ≤ spareBits u := by
      unfold spareBits
      omega
    obtain ⟨k, rfl⟩ := Nat.dvd_trans (Nat.pow_dvd_pow 2 hspare) hu
    rw [unitsBound_eq, Nat.mul_comm] at hlt
    have hk : k < Nat.pow 2 53 := Nat.lt_of_mul_lt_mul_right hlt
    rw [largestUnits, Nat.mul_comm]
    exact Nat.mul_le_mul_right _ (Nat.le_sub_one_of_lt hk)
  · have hpow : Nat.pow 2 (u.log2 + 1) ≤ Nat.pow 2 (52 + (971 + unitBits)) :=
      Nat.pow_le_pow_right (by decide) (by omega)
    exact (Nat.lt_log2_self.le.trans hpow).trans two_pow_le_largestUnits

theorem not_even_significand_largestUnits : ¬ Even (significand largestUnits) := by
  have hspare : 971 + unitBits ≤ spareBits largestUnits := by
    have hpos : 0 < Nat.pow 2 (52 + (971 + unitBits)) := Nat.two_pow_pos _
    have hlog := (Nat.le_log2 (hpos.trans_le two_pow_le_largestUnits).ne').mpr
      two_pow_le_largestUnits
    unfold spareBits
    omega
  have hsig : significand largestUnits = Nat.pow 2 53 - 1 :=
    significand_mul_two_pow (by decide) hspare
  rw [hsig]
  decide

/-- Out of reach is what lies half way or more from the largest magnitude to the bound. -/
theorem RoundsTo.unitsBound_le_iff {x : ℚ} {u : Nat} (h : RoundsTo x u) :
    unitsBound ≤ u ↔ (unitsBound : ℚ) - 2 ^ (970 + unitBits) ≤ x := by
  have hlargest : (unitsBound : ℚ) = largestUnits + 2 * 2 ^ (970 + unitBits) := by
    have hnat : unitsBound = largestUnits + 2 * 2 ^ (970 + unitBits) := by
      rw [unitsBound_eq, largestUnits]
      have hsucc : Nat.pow 2 (971 + unitBits) = 2 * 2 ^ (970 + unitBits) := by
        show 2 ^ (971 + unitBits) = 2 * 2 ^ (970 + unitBits)
        rw [← Nat.pow_succ']
        congr 1
        omega
      rw [hsucc]
      generalize 2 * 2 ^ (970 + unitBits) = last
      show 2 ^ 53 * last = (2 ^ 53 - 1) * last + last
      omega
    exact_mod_cast hnat
  have hhalf : (0 : ℚ) < 2 ^ (970 + unitBits) := pow_pos two_pos _
  generalize (2 : ℚ) ^ (970 + unitBits) = half at *
  constructor
  · intro hu
    by_contra hx
    have hu' : (unitsBound : ℚ) ≤ u := by exact_mod_cast hu
    have hnear := h.nearest _ fitsSignificand_largestUnits
    have habs : |(largestUnits : ℚ) - x| < u - x := abs_lt.mpr ⟨by linarith, by linarith⟩
    linarith [le_abs_self ((u : ℚ) - x)]
  · intro hx
    by_contra hlt
    have hlt' : (u : ℚ) < unitsBound := by exact_mod_cast not_le.mp hlt
    have hle : (u : ℚ) ≤ largestUnits := by exact_mod_cast le_largestUnits h.fits (not_le.mp hlt)
    have hnear := h.nearest _ fitsSignificand_unitsBound
    have habs : |(unitsBound : ℚ) - x| ≤ x - u := abs_le.mpr ⟨by linarith, by linarith⟩
    have hdist : x - u ≤ |(u : ℚ) - x| := by
      rw [abs_sub_comm]
      exact le_abs_self _
    -- only the largest magnitude is as near, and its significand is odd
    have heven := h.even _ fitsSignificand_unitsBound (by omega) (le_antisymm (by linarith) hnear)
    have hx' : (unitsBound : ℚ) - x = |(unitsBound : ℚ) - x| := by
      refine (abs_of_nonneg ?_).symm
      by_contra hneg
      rw [abs_of_neg (not_le.mp hneg)] at hnear
      linarith
    have hge : (largestUnits : ℚ) ≤ u := by linarith
    have hu : u = largestUnits := by exact_mod_cast le_antisymm hle hge
    rw [hu] at heven
    exact not_even_significand_largestUnits heven

/-! ## Values of decimals -/

namespace Decimal

/-- The value of a decimal. -/
def value (d : Decimal) : ℚ :=
  d.coefficient * 10 ^ d.exponent

theorem value_nonneg (d : Decimal) : 0 ≤ d.value :=
  mul_nonneg (Nat.cast_nonneg _) (zpow_nonneg (by norm_num) _)

/-- Without a fraction the exponent is multiplied out. -/
theorem value_of_nonneg {d : Decimal} (h : 0 ≤ d.exponent) :
    d.value = (d.coefficient * Nat.pow 10 d.exponent.toNat : Nat) := by
  have hpow : (10 : ℚ) ^ d.exponent = 10 ^ d.exponent.toNat := by
    rw [← zpow_natCast, Int.toNat_of_nonneg h]
  have hnat : d.coefficient * Nat.pow 10 d.exponent.toNat =
      d.coefficient * 10 ^ d.exponent.toNat := rfl
  rw [value, hpow, hnat]
  push_cast
  rfl

/-- With a fraction the coefficient is divided by a power of ten. -/
theorem value_of_neg {d : Decimal} (h : d.exponent < 0) :
    d.value = (d.coefficient : ℚ) / (Nat.pow 10 (-d.exponent).toNat : Nat) := by
  have hpow : (10 : ℚ) ^ d.exponent = (10 ^ (-d.exponent).toNat)⁻¹ := by
    rw [← zpow_natCast, Int.toNat_of_nonneg (by omega), zpow_neg, inv_inv]
  have hnat : Nat.pow 10 (-d.exponent).toNat = 10 ^ (-d.exponent).toNat := rfl
  rw [value, hpow, hnat, ← div_eq_mul_inv]
  push_cast
  rfl

/-- A value is at least that of the power of ten alone. -/
theorem ten_pow_le_value {d : Decimal} (hc : d.coefficient ≠ 0) {k : Nat} (hk : k ≤ d.exponent) :
    10 ^ k ≤ d.value := by
  have hpos : (0 : ℚ) < 10 ^ d.exponent := zpow_pos (by norm_num) _
  have hone : (1 : ℚ) ≤ d.coefficient := by exact_mod_cast Nat.one_le_iff_ne_zero.mpr hc
  calc (10 : ℚ) ^ k = 10 ^ (k : Int) := (zpow_natCast 10 k).symm
    _ ≤ 10 ^ d.exponent := zpow_le_zpow_right₀ (by norm_num) hk
    _ ≤ d.value := le_mul_of_one_le_left hpos.le hone

/-- The bits of a coefficient bound its digits. -/
theorem value_le {d : Decimal} {k : Nat} (h : d.exponent + d.coefficient.log2 ≤ -k) :
    d.value ≤ 2 / 10 ^ k := by
  have hpos : (0 : ℚ) < 10 ^ d.exponent := zpow_pos (by norm_num) _
  have hc : (d.coefficient : ℚ) ≤ 2 * 10 ^ d.coefficient.log2 := by
    have hlog : d.coefficient < 2 ^ (d.coefficient.log2 + 1) := Nat.lt_log2_self
    have hbase : 2 ^ d.coefficient.log2 ≤ 10 ^ d.coefficient.log2 :=
      Nat.pow_le_pow_left (by decide) _
    rw [Nat.pow_succ'] at hlog
    exact_mod_cast hlog.le.trans (Nat.mul_le_mul_left 2 hbase)
  calc d.value ≤ 2 * 10 ^ d.coefficient.log2 * 10 ^ d.exponent :=
        mul_le_mul_of_nonneg_right hc hpos.le
    _ = 2 * 10 ^ (d.exponent + d.coefficient.log2) := by
        rw [mul_assoc, ← zpow_natCast, ← zpow_add₀ (by norm_num), add_comm]
    _ ≤ 2 * 10 ^ (-k : Int) :=
        mul_le_mul_of_nonneg_left (zpow_le_zpow_right₀ (by norm_num) h) two_pos.le
    _ = 2 / 10 ^ k := by rw [zpow_neg, zpow_natCast, ← div_eq_mul_inv]

end Decimal

/-! ## Magnitudes -/

namespace Magnitude

/-- The value of a magnitude. -/
def value (m : Magnitude) : ℚ :=
  m.units / 2 ^ unitBits

/-- Half way between the largest magnitude and the power of two above it. -/
def limit : ℚ :=
  2 ^ 1024 - 2 ^ 970

/-- The magnitude nearest to a value: none is nearer, and none is as near unless the significand is
even. -/
structure IsNearest (m : Magnitude) (x : ℚ) : Prop where
  nearest : ∀ k : Magnitude, |m.value - x| ≤ |k.value - x|
  even : ∀ k : Magnitude, k ≠ m → |k.value - x| = |m.value - x| → Even (significand m.units)

/-- What a value is rounded to, if it is not out of reach. -/
inductive IsRounding (x : ℚ) : Option Magnitude → Prop
  | some {m : Magnitude} : x < limit → m.IsNearest x → IsRounding x (some m)
  | none : limit ≤ x → IsRounding x none

theorem two_pow_unitBits_pos : (0 : ℚ) < 2 ^ unitBits :=
  pow_pos two_pos _

theorem value_lt_value {m k : Magnitude} (h : m.units < k.units) : m.value < k.value := by
  have hcast : (m.units : ℚ) < k.units := by exact_mod_cast h
  exact div_lt_div_of_pos_right hcast two_pow_unitBits_pos

theorem abs_value_sub (m : Magnitude) (y : ℚ) :
    |m.value - y / 2 ^ unitBits| = |(m.units : ℚ) - y| / 2 ^ unitBits := by
  rw [value, ← sub_div, abs_div, abs_of_pos two_pow_unitBits_pos]

/-- Rounding to units is rounding to magnitudes. -/
theorem isNearest_of_roundsTo {m : Magnitude} {y : ℚ} (h : RoundsTo y m.units) :
    m.IsNearest (y / 2 ^ unitBits) where
  nearest k := by
    rw [abs_value_sub, abs_value_sub]
    exact div_le_div_of_nonneg_right (h.nearest _ k.spare_dvd) two_pow_unitBits_pos.le
  even k hne htie := by
    rw [abs_value_sub, abs_value_sub, div_left_inj' two_pow_unitBits_pos.ne'] at htie
    refine h.even _ k.spare_dvd (fun hunits => hne ?_) htie
    cases k
    cases m
    simp_all

theorem limit_eq : limit = ((unitsBound : ℚ) - 2 ^ (970 + unitBits)) / 2 ^ unitBits := by
  have hbound : (unitsBound : ℚ) = 2 ^ (1024 + unitBits) := by
    have hnat : unitsBound = 2 ^ (1024 + unitBits) := rfl
    exact_mod_cast hnat
  rw [hbound, pow_add, pow_add, ← sub_mul, mul_div_cancel_right₀ _ two_pow_unitBits_pos.ne']
  rfl

theorem isRounding_ofRatio? {n d : Nat} (hd : 0 < d) :
    IsRounding ((n : ℚ) / d / 2 ^ unitBits) (ofRatio? n d) := by
  have hround := roundsTo_roundUnits (n := n) hd
  have hbound : unitsBound ≤ roundUnits n d ↔ limit ≤ (n : ℚ) / d / 2 ^ unitBits := by
    rw [hround.unitsBound_le_iff, limit_eq, div_le_div_iff_of_pos_right two_pow_unitBits_pos]
  unfold ofRatio?
  split
  · rename_i hlt
    refine .some ?_ (isNearest_of_roundsTo hround)
    exact not_le.mp fun hle => absurd (hbound.mpr hle) (not_le.mpr hlt)
  · rename_i hlt
    exact .none (hbound.mp (not_lt.mp hlt))

/-- Zero is nearest to values of at most half a unit. -/
theorem isNearest_zero {x : ℚ} (hx : 0 ≤ x) (hhalf : 2 * x ≤ 1 / 2 ^ unitBits) :
    zero.IsNearest x where
  nearest k := by
    have hzero : zero.value = 0 := by simp [value, zero]
    rw [hzero, zero_sub, abs_neg, abs_of_nonneg hx]
    by_cases hk : k.units = 0
    · rw [value, hk, Nat.cast_zero, zero_div, zero_sub, abs_neg, abs_of_nonneg hx]
    · have hunit : 1 / 2 ^ unitBits ≤ k.value := by
        have hone : (1 : ℚ) ≤ k.units := by exact_mod_cast Nat.one_le_iff_ne_zero.mpr hk
        exact div_le_div_of_nonneg_right hone two_pow_unitBits_pos.le
      have habs := le_abs_self (k.value - x)
      linarith
  even _ _ _ := by
    have hsig : significand zero.units = 0 := Nat.zero_div _
    rw [hsig]
    exact Even.zero

/-! ## Decimals -/

theorem two_pow_le_ten_pow {a b : Nat} (h : a ≤ 3 * b) : (2 : ℚ) ^ a ≤ 10 ^ b :=
  calc (2 : ℚ) ^ a ≤ 2 ^ (3 * b) := pow_le_pow_right₀ one_le_two h
    _ = (2 ^ 3) ^ b := pow_mul 2 3 b
    _ ≤ 10 ^ b := pow_le_pow_left₀ (by norm_num) (by norm_num) b

theorem one_lt_limit : 1 < limit := by
  have hsplit : (2 : ℚ) ^ 1024 = 2 ^ 970 * 2 ^ 54 := by rw [← pow_add]
  have hone : (1 : ℚ) ≤ 2 ^ 970 := one_le_pow₀ one_le_two
  have hmul : (2 : ℚ) ^ 970 * 3 ≤ 2 ^ 970 * 2 ^ 54 :=
    mul_le_mul_of_nonneg_left (by norm_num) (one_pos.le.trans hone)
  rw [limit, hsplit]
  generalize (2 : ℚ) ^ 970 * 2 ^ 54 = q at hmul ⊢
  generalize (2 : ℚ) ^ 970 = p at hone hmul ⊢
  linarith only [hone, hmul]

theorem limit_le : limit ≤ 10 ^ 401 :=
  (sub_le_self _ (pow_nonneg two_pos.le _)).trans (two_pow_le_ten_pow (by decide))

/-- What is taken for zero without being multiplied out is at most half a unit. -/
theorem two_mul_le_of_value_le {x : ℚ} (h : x ≤ 2 / 10 ^ 401) : 2 * x ≤ 1 / 2 ^ unitBits := by
  have hpow : (2 : ℚ) ^ (2 + unitBits) ≤ 10 ^ 401 := by
    refine two_pow_le_ten_pow ?_
    unfold unitBits
    decide
  rw [pow_add, pow_two] at hpow
  refine (mul_le_mul_of_nonneg_left h two_pos.le).trans ?_
  rwa [← mul_div_assoc, div_le_div_iff₀ (pow_pos (by norm_num) _) two_pow_unitBits_pos, one_mul]

theorem lt_limit_of_value_le {x : ℚ} (h : x ≤ 2 / 10 ^ 401) : x < limit := by
  refine lt_of_le_of_lt (h.trans ?_) one_lt_limit
  rw [div_le_one (pow_pos (by norm_num) _)]
  calc (2 : ℚ) = 2 ^ 1 := (pow_one 2).symm
    _ ≤ 10 ^ 401 := two_pow_le_ten_pow (by decide)

/-- A quotient of numbers is that of as many units. -/
theorem isRounding_ofRatio?_units (n : Nat) {d : Nat} (hd : 0 < d) :
    IsRounding ((n : ℚ) / d) (ofRatio? (n * Nat.pow 2 unitBits) d) := by
  have hround := isRounding_ofRatio? (n := n * Nat.pow 2 unitBits) hd
  have hvalue : ((n * Nat.pow 2 unitBits : Nat) : ℚ) / d / 2 ^ unitBits = n / d := by
    have hnat : n * Nat.pow 2 unitBits = n * 2 ^ unitBits := rfl
    rw [hnat]
    push_cast
    rw [div_right_comm, mul_div_cancel_right₀ _ two_pow_unitBits_pos.ne']
  rwa [hvalue] at hround

/-- A decimal is read as the rounding of its value. -/
theorem isRounding_nearest? (d : Decimal) : IsRounding d.value (nearest? d) := by
  unfold nearest?
  split_ifs with hzero hlarge hsmall hwhole
  · have hvalue : d.value = 0 := by rw [Decimal.value, hzero, Nat.cast_zero, zero_mul]
    rw [hvalue]
    exact .some (one_pos.trans one_lt_limit) (isNearest_zero (le_refl 0) (by simp))
  · -- the exponent alone puts the decimal out of reach
    exact .none (limit_le.trans (Decimal.ten_pow_le_value hzero (by omega)))
  · have hvalue : d.value ≤ 2 / 10 ^ 401 := Decimal.value_le (by omega)
    exact .some (lt_limit_of_value_le hvalue)
      (isNearest_zero d.value_nonneg (two_mul_le_of_value_le hvalue))
  · have hround := isRounding_ofRatio?_units (d.coefficient * Nat.pow 10 d.exponent.toNat) one_pos
    rwa [Nat.cast_one, div_one, ← Decimal.value_of_nonneg hwhole] at hround
  · have hpos : 0 < Nat.pow 10 (-d.exponent).toNat := Nat.pow_pos (by decide)
    rw [Decimal.value_of_neg (not_le.mp hwhole)]
    exact isRounding_ofRatio?_units d.coefficient hpos

/-! ## There is one rounding -/

theorem spareBits_mono {u v : Nat} (h : u ≤ v) : spareBits u ≤ spareBits v := by
  have hlog : u.log2 ≤ v.log2 := by
    by_cases h0 : u = 0
    · rw [h0, Nat.log2_zero]
      exact Nat.zero_le _
    · exact (Nat.le_log2 (by omega)).mpr ((Nat.log2_self_le h0).trans h)
  exact Nat.sub_le_sub_right hlog 52

/-- No magnitude stands between two that are as near as each other. -/
theorem IsNearest.not_between {m n k : Magnitude} {x : ℚ} (hm : m.IsNearest x)
    (htie : |k.value - x| = |m.value - x|) (hn : m.units < n.units) : ¬ n.units < k.units := by
  intro hk
  have hlower := value_lt_value hn
  have hupper := value_lt_value hk
  have hmid : m.value + k.value = 2 * x := by
    rcases abs_eq_abs.mp htie with h | h <;> linarith
  have hnear := hm.nearest n
  have hcloser : |n.value - x| < x - m.value := abs_lt.mpr ⟨by linarith, by linarith⟩
  rw [abs_of_nonpos (show m.value - x ≤ 0 by linarith)] at hnear
  linarith

/-- Of two magnitudes as near as each other one is next to the other, and has an odd significand. -/
theorem IsNearest.not_units_lt {m k : Magnitude} {x : ℚ} (hm : m.IsNearest x) (hk : k.IsNearest x) :
    ¬ m.units < k.units := by
  intro hlt
  have hne : k ≠ m := fun heq => absurd hlt (heq ▸ Nat.lt_irrefl _)
  have htie : |k.value - x| = |m.value - x| := le_antisymm (hk.nearest m) (hm.nearest k)
  have heven := hm.even k hne htie
  have heven' := hk.even m hne.symm htie.symm
  have hspare := spareBits_mono hlt.le
  have hsig : significand m.units < Nat.pow 2 53 := div_spare_lt m.units
  have hmul : m.units = significand m.units * Nat.pow 2 (spareBits m.units) :=
    (Nat.div_mul_cancel m.spare_dvd).symm
  obtain ⟨b, hb⟩ := Nat.dvd_trans (Nat.pow_dvd_pow 2 hspare) k.spare_dvd
  rw [Nat.mul_comm] at hb
  generalize spareBits m.units = s at *
  generalize significand m.units = a at *
  have hab : a < b := by
    rw [hmul, hb] at hlt
    exact Nat.lt_of_mul_lt_mul_right hlt
  have hle : (a + 1) * Nat.pow 2 s ≤ k.units := hb ▸ Nat.mul_le_mul_right _ hab
  let next : Magnitude :=
    ⟨(a + 1) * Nat.pow 2 s, hle.trans_lt k.units_lt, spareBits_dvd_mul hsig⟩
  have hnext : m.units < next.units := by
    rw [hmul]
    exact Nat.mul_lt_mul_of_pos_right (Nat.lt_succ_self a) (Nat.two_pow_pos s)
  have hsame : k.units = (a + 1) * Nat.pow 2 s :=
    le_antisymm (not_lt.mp (hm.not_between htie hnext)) hle
  have hodd : a + 1 ≠ Nat.pow 2 53 := by
    intro heq
    have hpow : Even (a + 1) := by
      rw [heq]
      decide
    exact Nat.even_add_one.mp hpow heven
  rw [hsame] at heven' hspare
  rw [significand_mul_two_pow (by omega) hspare] at heven'
  exact Nat.even_add_one.mp heven' heven

/-- **A value has one nearest magnitude at most.** -/
theorem IsNearest.unique {m k : Magnitude} {x : ℚ} (hm : m.IsNearest x) (hk : k.IsNearest x) :
    m = k := by
  have hunits : m.units = k.units :=
    le_antisymm (not_lt.mp (hk.not_units_lt hm)) (not_lt.mp (hm.not_units_lt hk))
  cases m
  cases k
  simp_all

theorem IsRounding.unique {x : ℚ} {a b : Option Magnitude} (ha : IsRounding x a)
    (hb : IsRounding x b) : a = b := by
  cases ha with
  | some hlt hm =>
    cases hb with
    | some _ hk => rw [hm.unique hk]
    | none hle => exact absurd hlt (not_lt.mpr hle)
  | none hle =>
    cases hb with
    | some hlt _ => exact absurd hlt (not_lt.mpr hle)
    | none _ => rfl

/-- **A decimal is read as the rounding of its value.** -/
theorem nearest?_eq_iff {d : Decimal} {a : Option Magnitude} :
    nearest? d = a ↔ IsRounding d.value a :=
  ⟨fun h => h ▸ isRounding_nearest? d, (isRounding_nearest? d).unique⟩

/-- Half way between two magnitudes the even one is read. -/
example : nearest? ⟨9007199254740993, 0⟩ = nearest? ⟨9007199254740992, 0⟩ := by
  decide +kernel

/-- Decimals of one value are read alike. -/
theorem nearest?_congr {d d' : Decimal} (h : d.value = d'.value) : nearest? d = nearest? d' :=
  nearest?_eq_iff.mpr (h ▸ isRounding_nearest? d')

end Magnitude

/-! ## Numbers -/

namespace Number

variable {negative : Bool} {d : Decimal}

/-- The number of a decimal within reach is the nearest one. -/
theorem ofDecimal_eq_finite_iff {m : Magnitude} :
    ofDecimal negative d = .finite negative m ↔ d.value < Magnitude.limit ∧ m.IsNearest d.value := by
  have hsome : Magnitude.IsRounding d.value (some m) ↔
      d.value < Magnitude.limit ∧ m.IsNearest d.value := by
    constructor
    · intro h
      cases h with
      | some hlt hm => exact ⟨hlt, hm⟩
    · intro ⟨hlt, hm⟩
      exact .some hlt hm
  rw [← hsome, ← Magnitude.nearest?_eq_iff, ofDecimal]
  cases Magnitude.nearest? d <;> simp

/-- The number of a decimal out of reach is infinite. -/
theorem ofDecimal_eq_infinite_iff :
    ofDecimal negative d = .infinite negative ↔ Magnitude.limit ≤ d.value := by
  have hnone : Magnitude.IsRounding d.value none ↔ Magnitude.limit ≤ d.value := by
    constructor
    · intro h
      cases h with
      | none hle => exact hle
    · exact .none
  rw [← hnone, ← Magnitude.nearest?_eq_iff, ofDecimal]
  cases Magnitude.nearest? d <;> simp

end Number

end SearchLang
