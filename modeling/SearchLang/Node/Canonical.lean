import SearchLang.Limits
import SearchLang.Node.Shape

/-!
# Canonical trees

A well-shaped tree whose boosts and fuzzies lie within the limits. Parsing has
nothing to repair in such a tree.
-/

namespace SearchLang

/-- Whether an amount is missing, or lies between zero and a maximum. -/
def Limits.allowsAmount (max : Number) : Option Number → Bool
  | none => true
  | some n => n.isNonneg && !max.lt n

/-- Whether the boost and the fuzziness of a node lie within the limits. -/
def Limits.allows (limits : Limits) (m : Modifiers) : Bool :=
  allowsAmount limits.maxBoost m.boost && allowsAmount limits.maxFuzzy m.fuzzy

/-- Whether the boost and the fuzziness of a node are finite numbers between zero and the maxima. -/
def Limits.bounds (limits : Limits) (m : Modifiers) : Bool :=
  m.boost.all (·.isUpTo limits.maxBoost) && m.fuzzy.all (·.isUpTo limits.maxFuzzy)

theorem Limits.isFinite_of_allowsAmount {max n : Number} (hmax : max.isFinite = true)
    (h : allowsAmount max (some n) = true) : n.isFinite = true := by
  simp only [allowsAmount, Bool.and_eq_true, Bool.not_eq_true'] at h
  cases n with
  | finite negative m => rfl
  | infinite negative => cases max <;> simp_all [Number.isFinite, Number.isNonneg, Number.lt]
  | nan => simp [Number.isNonneg] at h

mutual

/-- Whether all amounts of a node lie within the limits. -/
def Node.isWithin (limits : Limits) : Node → Bool
  | .leaf _ m | .range _ m => limits.allows m
  | .filter _ _ value m => limits.allows m && value.isWithin limits
  | .subquery nodes m => limits.allows m && Node.areWithin limits nodes

/-- Whether all amounts of some nodes lie within the limits. -/
def Node.areWithin (limits : Limits) : List Node → Bool
  | [] => true
  | n :: rest => n.isWithin limits && Node.areWithin limits rest

end

mutual

/-- The modifiers of a node and of all nodes in it, from left to right. -/
def Node.allModifiers : Node → List Modifiers
  | .leaf _ m | .range _ m => [m]
  | .filter _ _ value m => m :: value.allModifiers
  | .subquery nodes m => m :: Node.allModifiersList nodes

/-- The modifiers of some nodes and of all nodes in them. -/
def Node.allModifiersList : List Node → List Modifiers
  | [] => []
  | n :: rest => n.allModifiers ++ Node.allModifiersList rest

end

@[simp] theorem Limits.allows_empty (limits : Limits) : limits.allows {} = true := rfl

theorem Node.allows_of_isWithin {limits : Limits} {n : Node} (h : n.isWithin limits = true) :
    limits.allows n.modifiers = true := by
  cases n <;> simp_all [Node.isWithin, Node.modifiers]

theorem Node.areWithin_eq_all (limits : Limits) (nodes : List Node) :
    Node.areWithin limits nodes = nodes.all (Node.isWithin limits) := by
  induction nodes with
  | nil => rw [Node.areWithin]; rfl
  | cons n rest ih => rw [Node.areWithin, ih]; rfl

theorem Node.allModifiersList_eq_flatMap (nodes : List Node) :
    Node.allModifiersList nodes = nodes.flatMap Node.allModifiers := by
  induction nodes with
  | nil => rw [Node.allModifiersList]; rfl
  | cons n rest ih => rw [Node.allModifiersList, ih]; rfl

/-- A node is within the limits if they allow the modifiers at every depth. -/
theorem Node.isWithin_eq_all (limits : Limits) (n : Node) :
    n.isWithin limits = n.allModifiers.all limits.allows := by
  induction n with
  | leaf l m | range i m => simp [Node.isWithin, Node.allModifiers]
  | filter f c value m ih => simp [Node.isWithin, Node.allModifiers, ih]
  | subquery nodes m ih =>
    simp only [Node.isWithin, Node.allModifiers, Node.areWithin_eq_all,
      Node.allModifiersList_eq_flatMap, List.all_cons, List.all_flatMap]
    congr 1
    rw [Bool.eq_iff_iff, List.all_eq_true, List.all_eq_true]
    exact forall₂_congr fun n hn => by rw [ih n hn]

/-- A well-shaped node with amounts within the limits. Its values and fields may be any. -/
def Node.isCanonical (limits : Limits) (n : Node) : Bool :=
  n.isWellShaped && n.isWithin limits

end SearchLang
