import SearchLang.Number.Basic

/-!
# Limits

How long a query may be, and how large boosts and fuzziness may grow. Limits
come from the outside and may hold any number; `validate` repairs them.
-/

namespace SearchLang

/-- The limits of a query. -/
structure Limits where
  /-- The greatest length of a checked query, in bytes. -/
  maxInputLength : Nat := 4096
  /-- The greatest boost. -/
  maxBoost : Number := .ten
  /-- The boost of a sign without a number. -/
  defaultBoost : Number := .one
  /-- The greatest fuzziness. -/
  maxFuzzy : Number := .two
  /-- The fuzziness of a sign without a number. -/
  defaultFuzzy : Number := .two
  deriving DecidableEq, Repr

namespace Limits

/-- A limit that is finite and not below zero, or else the fallback. -/
def sane (value fallback : Number) : Number :=
  if value.isFinite && value.isNonneg then value else fallback

/-- Repairs limits: a length is at least one, maxima are finite and not below zero, and defaults
lie between zero and their maximum. -/
def validate (l : Limits) : Limits :=
  let maxBoost := sane l.maxBoost .ten
  let maxFuzzy := sane l.maxFuzzy .two
  { maxInputLength := if l.maxInputLength = 0 then 4096 else l.maxInputLength
    maxBoost
    defaultBoost := (sane l.defaultBoost .one).minimum maxBoost
    maxFuzzy
    defaultFuzzy := (sane l.defaultFuzzy .two).minimum maxFuzzy }

/-- Limits that need no repair: some byte may be read, maxima are finite, and defaults lie between
zero and their maximum. -/
structure Valid (l : Limits) : Prop where
  length : 1 ≤ l.maxInputLength
  maxBoost : l.maxBoost.isFinite = true
  maxFuzzy : l.maxFuzzy.isFinite = true
  defaultBoost : l.defaultBoost.isUpTo l.maxBoost = true
  defaultFuzzy : l.defaultFuzzy.isUpTo l.maxFuzzy = true

/-- The number a modifier gets: one that is finite is brought between zero and the maximum, and
the default stands in for any other. -/
def clamp (default max : Number) : Option Number → Number
  | some value => if value.isFinite then (value.maximum .zero).minimum max else default
  | none => default

/-- The boost for a number after the sign. -/
def boost (l : Limits) (value : Option Number) : Number :=
  clamp l.defaultBoost l.maxBoost value

/-- The fuzziness for a number after the sign. -/
def fuzzy (l : Limits) (value : Option Number) : Number :=
  clamp l.defaultFuzzy l.maxFuzzy value

theorem isFinite_sane (value : Number) {fallback : Number} (h : fallback.isFinite = true) :
    (sane value fallback).isFinite = true := by
  unfold sane
  split <;> simp_all

theorem maxInputLength_validate_pos (l : Limits) : 0 < l.validate.maxInputLength := by
  simp only [validate]
  split <;> omega

end Limits

end SearchLang
