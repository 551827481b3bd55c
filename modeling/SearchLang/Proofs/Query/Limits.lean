import SearchLang.Proofs.Parse.Amounts
import SearchLang.Query.Basic

/-!
# Limits from end to end

The limits that a parser holds are valid, whatever limits it was made with, and
limits that are valid stay as they are (`validate_eq_self_iff`). What is written
after a modifier cannot leave them: every boost and every fuzziness in a tree, at
any depth, is finite and lies between zero and its maximum.
-/

namespace SearchLang

/-! ## Between zero and a maximum -/

/-- For finite numbers the sign bit says what the order says. -/
theorem Number.isNonneg_eq_le {n : Number} (h : n.isFinite = true) :
    n.isNonneg = Number.zero.le n := by
  cases n with
  | infinite negative => cases h
  | nan => cases h
  | finite negative m =>
    rw [Number.le_eq_not_lt rfl h]
    cases negative with
    | false => simp [isNonneg, lt, zero, signed, Magnitude.zero]
    | true =>
      simp only [isNonneg, lt, zero, signed, Magnitude.zero]
      grind

namespace Limits

/-- An amount is allowed under a finite maximum if it is finite and lies between zero and the
maximum. -/
theorem allowsAmount_eq_isUpTo {n max : Number} (hmax : max.isFinite = true) :
    allowsAmount max (some n) = n.isUpTo max := by
  cases hn : n.isFinite with
  | true =>
    rw [Number.isUpTo, hn, Number.le_eq_not_lt hn hmax, ← Number.isNonneg_eq_le hn]
    rfl
  | false =>
    -- an infinite amount would be above the maximum
    have hno : allowsAmount max (some n) ≠ true := fun h =>
      absurd (isFinite_of_allowsAmount hmax h) (by simp [hn])
    simp [Number.isUpTo, hn, hno]

/-! ## Repair -/

/-- Whatever limits are repaired, the result is valid. -/
theorem valid_validate (l : Limits) : l.validate.Valid := by
  have hboost : l.validate.maxBoost.isFinite = true := isFinite_sane _ rfl
  have hfuzzy : l.validate.maxFuzzy.isFinite = true := isFinite_sane _ rfl
  have hdefault {value max fallback : Number} (hfallback : fallback.isNonneg = true)
      (hmax : max.isFinite = true) (hnonneg : max.isNonneg = true) :
      ((sane value fallback).minimum max).isUpTo max = true := by
    rw [← allowsAmount_eq_isUpTo hmax]
    exact allowsAmount_minimum (isNonneg_sane _ hfallback) hnonneg
  exact {
    length := l.maxInputLength_validate_pos
    maxBoost := hboost
    maxFuzzy := hfuzzy
    defaultBoost := hdefault rfl hboost (isNonneg_sane _ rfl)
    defaultFuzzy := hdefault rfl hfuzzy (isNonneg_sane _ rfl) }

/-- A maximum and a default that lies below it are left as they are. -/
theorem sane_of_isUpTo {n max : Number} (hmax : max.isFinite = true) (h : n.isUpTo max = true)
    (fallback fallback' : Number) :
    sane max fallback = max ∧ (sane n fallback').minimum max = n := by
  have hkept {n : Number} (hfinite : n.isFinite = true) (hnonneg : Number.zero.le n = true)
      (fallback : Number) : sane n fallback = n := by
    rw [sane, Number.isNonneg_eq_le hfinite, hfinite, hnonneg]
    rfl
  simp only [Number.isUpTo, Bool.and_eq_true] at h
  obtain ⟨⟨hn, hnonneg⟩, hle⟩ := h
  refine ⟨hkept hmax (Number.le_trans hnonneg hle) _, ?_⟩
  have hlt : max.lt n = false := by
    rw [Number.le_eq_not_lt hn hmax] at hle
    simpa using hle
  have hnan : n ≠ .nan := by
    rintro rfl
    cases hn
  rw [hkept hn hnonneg, Number.minimum, if_neg hnan, hlt]
  rfl

theorem Valid.validate_eq {l : Limits} (h : l.Valid) : l.validate = l := by
  obtain ⟨hlength, hboost, hfuzzy, hdefaultBoost, hdefaultFuzzy⟩ := h
  obtain ⟨length, maxBoost, defaultBoost, maxFuzzy, defaultFuzzy⟩ := l
  have hne : length ≠ 0 := Nat.one_le_iff_ne_zero.mp hlength
  obtain ⟨hmaxBoost, hminBoost⟩ := sane_of_isUpTo hboost hdefaultBoost .ten .one
  obtain ⟨hmaxFuzzy, hminFuzzy⟩ := sane_of_isUpTo hfuzzy hdefaultFuzzy .two .two
  simp only [validate, hmaxBoost, hminBoost, hmaxFuzzy, hminFuzzy, if_neg hne]

/-- **Limits are left unchanged if they are valid, and only then.** -/
theorem validate_eq_self_iff {l : Limits} : l.validate = l ↔ l.Valid :=
  ⟨fun h => h ▸ valid_validate l, Valid.validate_eq⟩

theorem Valid.allows_eq_bounds {l : Limits} (h : l.Valid) (m : Modifiers) :
    l.allows m = l.bounds m := by
  obtain ⟨sign, boost, fuzzy⟩ := m
  have hamount {max : Number} (hmax : max.isFinite = true) (amount : Option Number) :
      allowsAmount max amount = amount.all (·.isUpTo max) := by
    cases amount with
    | none => rfl
    | some n => exact allowsAmount_eq_isUpTo hmax
  rw [allows, bounds, hamount h.maxBoost, hamount h.maxFuzzy]

end Limits

namespace QueryParser

/-- **Limits hold from end to end**, whatever limits a parser is made with: the ones that it holds
are valid, repairing them again changes nothing, and they are the given ones exactly if those are
valid. Whatever text it reads, all boosts and fuzzies of the tree are finite and lie within them. -/
theorem limits_hold (l : Limits) (q : Text) :
    (withLimits l).limits.Valid ∧
      (withLimits l).limits.validate = (withLimits l).limits ∧
      ((withLimits l).limits = l ↔ l.Valid) ∧
      (Node.allModifiersList ((withLimits l).parse q)).all (withLimits l).limits.bounds = true := by
  have hvalid : l.validate.Valid := l.valid_validate
  refine ⟨hvalid, hvalid.validate_eq, Limits.validate_eq_self_iff, ?_⟩
  have hwithin := Query.areWithin_parseTokens l (scan q)
  rw [Node.areWithin_eq_all, List.all_eq_true] at hwithin
  rw [Node.allModifiersList_eq_flatMap, List.all_flatMap, List.all_eq_true]
  intro n hn
  have hallowed := hwithin n hn
  rw [Node.isWithin_eq_all, List.all_eq_true] at hallowed
  rw [List.all_eq_true]
  intro m hm
  exact hvalid.allows_eq_bounds m ▸ hallowed m hm

end QueryParser

end SearchLang
