import SearchLang.Node.Canonical
import SearchLang.Proofs.Parse.Finish

/-!
# The amounts of parsed trees

Every boost and every fuzziness of a parsed tree went through the limits: it lies
between zero and their maximum, whatever number the tokens give. What every way
of building a node keeps (`Hereditary`) holds of all nodes that are parsed.
-/

namespace SearchLang

/-! ## Numbers -/

namespace Number

theorem isNonneg_maximum_zero {n : Number} (h : n.isFinite = true) :
    (n.maximum .zero).isNonneg = true := by
  cases n with
  | infinite negative => simp [isFinite] at h
  | nan => simp [isFinite] at h
  | finite negative m =>
    unfold maximum
    rw [if_neg (by simp)]
    split
    · rfl
    · -- what is not below zero has no minus sign, or is zero
      rename_i hlt
      cases negative with
      | false => rfl
      | true =>
        have hle : ¬ (-(m.units : Int) < 0) := by
          simpa [lt, zero, signed, Magnitude.zero] using hlt
        have hunits : m.units = 0 := by omega
        simp [isNonneg, hunits]

end Number

namespace Limits

theorem isNonneg_sane (value : Number) {fallback : Number} (h : fallback.isNonneg = true) :
    (sane value fallback).isNonneg = true := by
  unfold sane
  split <;> simp_all

/-- Whatever is not below zero is allowed once it is brought down to the maximum. -/
theorem allowsAmount_minimum {n max : Number} (hn : n.isNonneg = true) (hmax : max.isNonneg = true) :
    allowsAmount max (some (n.minimum max)) = true := by
  unfold Number.minimum
  split
  · simp [allowsAmount, hmax]
  · split
    · simp [allowsAmount, hmax]
    · simp_all [allowsAmount]

/-- An amount is allowed if the default is. -/
theorem allowsAmount_clamp {default max : Number} (hmax : max.isNonneg = true)
    (hdefault : allowsAmount max (some default) = true) (value : Option Number) :
    allowsAmount max (some (clamp default max value)) = true := by
  cases value with
  | none => exact hdefault
  | some n =>
    rw [clamp]
    split
    · rename_i hfinite
      exact allowsAmount_minimum (Number.isNonneg_maximum_zero hfinite) hmax
    · exact hdefault

theorem allowsAmount_boost (l : Limits) (value : Option Number) :
    allowsAmount l.validate.maxBoost (some (l.validate.boost value)) = true := by
  have hmax : (sane l.maxBoost .ten).isNonneg = true := isNonneg_sane _ rfl
  exact allowsAmount_clamp hmax (allowsAmount_minimum (isNonneg_sane _ rfl) hmax) value

theorem allowsAmount_fuzzy (l : Limits) (value : Option Number) :
    allowsAmount l.validate.maxFuzzy (some (l.validate.fuzzy value)) = true := by
  have hmax : (sane l.maxFuzzy .two).isNonneg = true := isNonneg_sane _ rfl
  exact allowsAmount_clamp hmax (allowsAmount_minimum (isNonneg_sane _ rfl) hmax) value

end Limits

namespace Query

/-! ## Properties that parsing keeps -/

/-- A property of nodes that is kept by every way in which parsing builds a node. -/
structure Hereditary (limits : Limits) (P : Node → Prop) : Prop extends Modifiable limits P where
  leaf : ∀ l, P (.ofLeaf l)
  range : ∀ i, P (.ofInterval i)
  filter : ∀ field comparison {value}, P value → P (filterOn field comparison value)
  subquery : ∀ {nodes}, (∀ n ∈ nodes, P n) → P (.subquery nodes {})

namespace Hereditary

variable {limits : Limits} {P : Node → Prop} (hP : Hereditary limits P)

include hP

theorem ofLeaves (ls : List Leaf) : ∀ n ∈ ls.map Node.ofLeaf, P n := by
  intro n hn
  obtain ⟨l, -, rfl⟩ := List.mem_map.mp hn
  exact hP.leaf l

theorem rangeReading (r : RangeReading) : ∀ n ∈ r.nodes, P n := by
  cases r with
  | interval i => simpa [RangeReading.nodes] using hP.range i
  | leaves ls => exact hP.ofLeaves ls

theorem readFilter {body? : Option BodyParser} (hbody : ∀ body ∈ body?, ∀ ts, ∀ n ∈ body ts, P n)
    (field : Text) (sign : Option Sign) (comparison : Option Comparison) (ts : List Token) :
    ∀ n ∈ (readFilter body? field sign comparison ts).nodes, P n := by
  fun_induction Query.readFilter body? field sign comparison ts with
  | case1 | case2 | case7 | case15 => simp
  | case3 _ _ _ _ _ _ ih | case4 _ _ _ _ _ _ ih | case5 _ _ _ _ _ _ ih | case6 _ _ _ _ _ ih
  | case10 _ _ _ _ _ _ _ ih => exact ih
  | case8 sign comparison t ts _ body hb _ ih =>
    subst hb
    exact ih
  | case9 sign comparison t ts _ body hb =>
    have hnodes := hP.subquery (hbody body hb (subqueryBody ts))
    intro n hn
    obtain rfl := List.mem_singleton.mp hn
    exact hP.filter field comparison hnodes
  | case11 sign comparison t ts b _ ls rest _ => exact hP.ofLeaves ls
  | case12 sign comparison t ts b _ i rest _ =>
    intro n hn
    obtain rfl := List.mem_singleton.mp hn
    exact hP.filter field comparison (hP.range i)
  | case13 =>
    rename_i ih
    exact ih
  | case14 sign comparison t ts l rest =>
    intro n hn
    obtain rfl := List.mem_singleton.mp hn
    exact hP.filter field comparison (hP.leaf l)

/-- What one token adds has the property. -/
theorem step {body? : Option BodyParser} (hbody : ∀ body ∈ body?, ∀ ts, ∀ n ∈ body ts, P n)
    (sign : Option Sign) (t : Token) (ts : List Token) :
    ∀ n ∈ (step limits body? sign t ts).nodes, P n := by
  unfold Query.step
  split
  · simp
  · simp
  · simp
  · simp
  · split
    · simp
    · rename_i body
      refine hP.finish ?_ sign _
      have hnodes := hbody body rfl (subqueryBody ts)
      generalize body (subqueryBody ts) = nodes at hnodes
      cases nodes with
      | nil => simp [subqueryNodes]
      | cons n rest => simpa only [subqueryNodes, List.mem_singleton, forall_eq] using hP.subquery hnodes
  · exact hP.finish (hP.readFilter hbody _ _ _ _) _ _
  · split
    · simp
    · exact hP.finish (hP.rangeReading _) sign _
  · simp
  · simp
  · split
    · simp
    · rename_i l rest _
      exact hP.finish (by simpa using hP.leaf l) sign rest

theorem sequence {body? : Option BodyParser} (hbody : ∀ body ∈ body?, ∀ ts, ∀ n ∈ body ts, P n)
    (sign : Option Sign) (ts : List Token) : ∀ n ∈ sequence limits body? sign ts, P n := by
  fun_induction Query.sequence limits body? sign ts with
  | case1 sign => simp
  | case2 sign t ts p ih =>
    intro n hn
    rcases List.mem_append.mp hn with hn | hn
    · exact hP.step hbody sign t ts n hn
    · exact ih n hn

/-- **What every way of building a node keeps holds of every parsed node.** -/
theorem parseTokens (ts : List Token) : ∀ n ∈ parseTokens limits ts, P n := by
  refine hP.sequence (fun body hb us => ?_) none ts
  obtain rfl := Option.some.inj hb
  exact hP.sequence (by simp) none us

end Hereditary

/-! ## Amounts within limits -/

section

variable (l : Limits) {n : Node}

theorem isWithin_withModifiers {limits : Limits} (h : n.isWithin limits = true) {m : Modifiers}
    (hm : limits.allows m = true) : (n.withModifiers m).isWithin limits = true := by
  cases n <;> simp_all [Node.withModifiers, Node.isWithin]

theorem isWithin_withBoost (value : Option Number) (h : n.isWithin l.validate = true) :
    (n.withBoost (l.validate.boost value)).isWithin l.validate = true := by
  have hm := Node.allows_of_isWithin h
  have hboost := Limits.allowsAmount_boost l value
  simp only [Limits.allows, Bool.and_eq_true] at hm
  exact isWithin_withModifiers h (by simp [Limits.allows, hboost, hm.2])

theorem isWithin_withFuzzy (value : Option Number) (h : n.isWithin l.validate = true) :
    (n.withFuzzy (l.validate.fuzzy value)).isWithin l.validate = true := by
  have hm := Node.allows_of_isWithin h
  have hfuzzy := Limits.allowsAmount_fuzzy l value
  simp only [Limits.allows, Bool.and_eq_true] at hm
  exact isWithin_withModifiers h (by simp [Limits.allows, hfuzzy, hm.1])

theorem hereditary_isWithin :
    Hereditary l.validate (fun n => n.isWithin l.validate = true) where
  leaf _ := rfl
  range _ := rfl
  filter _ _ _ h := by simp [filterOn, Node.isWithin, h]
  subquery h := by simpa [Node.isWithin, Node.areWithin_eq_all] using h
  sign _ _ h := isWithin_withModifiers h (Node.allows_of_isWithin h)
  boost value _ h := isWithin_withBoost l value h
  fuzzy value _ _ h := isWithin_withFuzzy l value h

/-- **All amounts of parsed trees lie within validated limits.** -/
theorem areWithin_parseTokens (ts : List Token) :
    Node.areWithin l.validate (parseTokens l.validate ts) = true := by
  rw [Node.areWithin_eq_all, List.all_eq_true]
  exact (hereditary_isWithin l).parseTokens ts

end

end Query

end SearchLang
