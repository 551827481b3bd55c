import SearchLang.Query.Parse

/-!
# Finished nodes

New nodes take the waiting sign and the modifiers that follow them. A property
that signs and amounts do not change (`Modifiable`) is one of the finished nodes
if it was one of the new ones.
-/

namespace SearchLang.Query

/-- A property that a node keeps when it gets a sign, or an amount that it supports. -/
structure Modifiable (limits : Limits) (P : Node → Prop) : Prop where
  sign : ∀ sign {n}, P n → P (n.withSign sign)
  boost : ∀ value {n}, P n → P (n.withBoost (limits.boost value))
  fuzzy : ∀ value {n}, n.supportsFuzzy = true → P n → P (n.withFuzzy (limits.fuzzy value))

namespace Modifiable

variable {limits : Limits} {P : Node → Prop}

theorem attachModifiers (hP : Modifiable limits P) {n : Node} (h : P n) (ts : List Token) :
    P (attachModifiers limits n ts).1 := by
  fun_induction Query.attachModifiers limits n ts with
  | case1 n => exact h
  | case2 n t ts _ ih => exact ih (hP.boost _ h)
  | case3 n t ts _ node ih =>
    apply ih
    by_cases hs : n.supportsFuzzy = true
    · simp only [node, hs]
      exact hP.fuzzy _ hs h
    · simp only [node, hs, Bool.false_eq_true]
      exact h
  | case4 n t ts _ _ => exact h

theorem attachToLast (hP : Modifiable limits P) {nodes : List Node} (h : ∀ n ∈ nodes, P n)
    (ts : List Token) : ∀ n ∈ (attachToLast limits nodes ts).1, P n := by
  fun_induction Query.attachToLast limits nodes ts with
  | case1 ts => simp
  | case2 n ts => simpa using hP.attachModifiers (h n (by simp)) ts
  | case3 ts n rest _ ih =>
    intro m hm
    rcases List.mem_cons.mp hm with rfl | hm
    · exact h m (by simp)
    · exact ih (fun k hk => h k (by simp [hk])) m hm

/-- Finishing nodes changes signs and amounts only. -/
theorem finish (hP : Modifiable limits P) {nodes : List Node} (h : ∀ n ∈ nodes, P n)
    (sign : Option Sign) (ts : List Token) : ∀ n ∈ (finish limits sign nodes ts).nodes, P n := by
  have hsigned : ∀ n ∈ signFirst sign nodes, P n := by
    cases nodes with
    | nil => simp [signFirst]
    | cons n rest =>
      intro m hm
      rcases List.mem_cons.mp hm with rfl | hm
      · exact hP.sign sign (h n (by simp))
      · exact h m (by simp [hm])
  exact hP.attachToLast hsigned ts

end Modifiable

end SearchLang.Query
