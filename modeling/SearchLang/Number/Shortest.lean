import SearchLang.Number.Basic

/-!
# Shortest digits

The digits in which a number is written: the fewest that read back as the same
magnitude, and of those the nearest to it. `nearest?_shortest` says that they
read back.
-/

namespace SearchLang

/-- Which of two equally near decimals is written. -/
inductive Tie where
  /-- The larger one. -/
  | up
  /-- The one with an even last digit. -/
  | even
  deriving DecidableEq, Repr

namespace Magnitude

/-- All digits of a magnitude. -/
def exact (x : Magnitude) : Decimal :=
  ⟨x.units * Nat.pow 5 unitBits, -unitBits⟩

/-- Whether a decimal reads as the given magnitude. -/
def reads (x : Magnitude) (d : Decimal) : Bool :=
  nearest? d = some x

/-- Of two neighbours the one that reads back; of two that do, the nearer one. `side` tells
whether the value lies nearer to the lower or to the upper one. -/
def pick? (tie : Tie) (x : Magnitude) (below above : Decimal) (side : Ordering)
    (evenBelow : Bool) : Option Decimal :=
  match x.reads below, x.reads above with
  | true, false => some below
  | false, true => some above
  | false, false => none
  | true, true =>
    match side, tie with
    | .lt, _ => some below
    | .gt, _ => some above
    | .eq, .up => some above
    | .eq, .even => if evenBelow then some below else some above

/-- The decimal of `k` digits nearest to the magnitude, if one of its two neighbours of `k`
digits reads back. The magnitude has `size` digits in all, which write the number `c`. -/
def withDigits? (tie : Tie) (x : Magnitude) (c size k : Nat) : Option Decimal :=
  let dropped := size - k
  let step := Nat.pow 10 dropped
  let low := c / step
  let below := Decimal.normalize ⟨low, dropped - unitBits⟩
  let above := Decimal.normalize ⟨low + 1, dropped - unitBits⟩
  x.pick? tie below above (compare (2 * (c % step)) step) (low % 2 == 0)

/-- The fewest digits that read back. Seventeen always do; all digits close the search. -/
def shortest (tie : Tie) (x : Magnitude) : Decimal :=
  if x.units = 0 then ⟨0, 0⟩
  else
    let c := x.exact.coefficient
    let size := (Decimal.digits c).length
    ((List.range 17).findSome? fun k => x.withDigits? tie c size (k + 1)).getD x.exact

theorem reads_of_pick? {tie : Tie} {x : Magnitude} {below above d : Decimal} {side : Ordering}
    {evenBelow : Bool} (h : x.pick? tie below above side evenBelow = some d) :
    x.reads d = true := by
  unfold pick? at h
  grind

/-- A magnitude is the nearest one to itself. -/
theorem roundUnits_self (x : Magnitude) {d : Nat} (hd : 0 < d) :
    roundUnits (x.units * d) d = x.units := by
  unfold roundUnits
  rw [Nat.mul_div_cancel _ hd]
  obtain ⟨m, hm⟩ := x.spare_dvd
  have hp : 0 < Nat.pow 2 (spareBits x.units) := Nat.two_pow_pos _
  generalize Nat.pow 2 (spareBits x.units) = scale at hm hp
  have hn : x.units * d = m * (d * scale) := by
    rw [hm, Nat.mul_comm scale m, Nat.mul_assoc, Nat.mul_comm scale d]
  have hr : roundHalfEven (x.units * d) (d * scale) = m := by
    have hpos : 0 < d * scale := Nat.mul_pos hd hp
    unfold roundHalfEven
    rw [hn, Nat.mul_div_cancel _ hpos, Nat.mul_mod_left]
    simp [hpos]
  simp only [hr]
  rw [Nat.mul_comm, ← hm]

theorem ofRatio?_self (x : Magnitude) {d : Nat} (hd : 0 < d) :
    ofRatio? (x.units * d) d = some x := by
  have h := roundUnits_self x hd
  unfold ofRatio?
  rw [dif_pos (by rw [h]; exact x.units_lt)]
  cases x
  simp_all

/-- Reading a decimal that is within reach and has a fraction. -/
theorem nearest?_of_neg {c k : Nat} (hc : c ≠ 0) (hk : 0 < k) (h : k ≤ c.log2) :
    nearest? ⟨c, -k⟩ = ofRatio? (c * Nat.pow 2 unitBits) (Nat.pow 10 k) := by
  unfold nearest?
  rw [if_neg hc, if_neg (by simp only; omega), if_neg (by simp only; omega),
    if_neg (by simp only; omega)]
  simp only [Int.neg_neg, Int.toNat_natCast]

theorem nearest?_exact (x : Magnitude) : nearest? x.exact = some x := by
  by_cases h0 : x.units = 0
  · simp only [exact, h0, Nat.zero_mul, nearest?, if_true]
    cases x
    simp_all [zero]
  · have hpos : 0 < x.units := Nat.pos_of_ne_zero h0
    unfold exact
    generalize hb : unitBits = b
    have hb0 : 0 < b := by rw [← hb, unitBits]; decide
    have hfive : 0 < Nat.pow 5 b := Nat.pow_pos (by decide)
    have hc : x.units * Nat.pow 5 b ≠ 0 := Nat.mul_ne_zero h0 (Nat.ne_of_gt hfive)
    have hlog : b ≤ (x.units * Nat.pow 5 b).log2 := by
      rw [Nat.le_log2 hc]
      exact Nat.le_trans (Nat.pow_le_pow_left (by decide) b) (Nat.le_mul_of_pos_left _ hpos)
    rw [nearest?_of_neg hc hb0 hlog, hb]
    have hn : x.units * Nat.pow 5 b * Nat.pow 2 b = x.units * Nat.pow 10 b := by
      rw [Nat.mul_assoc]
      exact congrArg (x.units * ·) (Nat.mul_pow 5 2 b).symm
    rw [hn]
    exact ofRatio?_self x (Nat.pow_pos (by decide))

/-- The shortest digits read back as the magnitude they were made from. -/
theorem nearest?_shortest (tie : Tie) (x : Magnitude) :
    nearest? (x.shortest tie) = some x := by
  unfold shortest
  split
  · rename_i h
    cases x
    simp_all [nearest?, zero]
  · generalize x.exact.coefficient = c
    simp only
    cases h : (List.range 17).findSome? fun k =>
        x.withDigits? tie c (Decimal.digits c).length (k + 1) with
    | none => exact nearest?_exact x
    | some d =>
      obtain ⟨k, _, hk⟩ := List.exists_of_findSome?_eq_some h
      simpa [reads] using reads_of_pick? hk

end Magnitude

end SearchLang
