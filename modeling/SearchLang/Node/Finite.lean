import SearchLang.Node.Shape

/-!
# Finite trees

Trees without infinite numbers and without values that are no number, whether
they are leaves, bounds of ranges or amounts.
-/

namespace SearchLang

/-- Whether the number of a leaf is finite, if it has one. -/
def Leaf.isFinite (l : Leaf) : Bool :=
  l.number?.all Number.isFinite

/-- Whether the numbers that bound a range are finite. -/
def Interval.isFinite : Interval → Bool
  | words _ | dates _ => true
  | numbers r => r.bounds.all Number.isFinite

/-- Whether the boost and the fuzziness of a node are finite. -/
def Modifiers.isFinite (m : Modifiers) : Bool :=
  m.boost.all Number.isFinite && m.fuzzy.all Number.isFinite

mutual

/-- Whether all numbers of a node are finite. -/
def Node.isFinite : Node → Bool
  | .leaf l m => l.isFinite && m.isFinite
  | .range i m => i.isFinite && m.isFinite
  | .filter _ _ value m => value.isFinite && m.isFinite
  | .subquery nodes m => Node.areFinite nodes && m.isFinite

/-- Whether all numbers of some nodes are finite. -/
def Node.areFinite : List Node → Bool
  | [] => true
  | n :: rest => n.isFinite && Node.areFinite rest

end

theorem Node.areFinite_eq_all (nodes : List Node) :
    Node.areFinite nodes = nodes.all Node.isFinite := by
  induction nodes with
  | nil => rw [Node.areFinite]; rfl
  | cons n rest ih => rw [Node.areFinite, ih]; rfl

end SearchLang
