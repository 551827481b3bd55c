import SearchLang.Node.Basic

/-!
# Values of a tree

What a tree holds apart from its form: the values of its leaves, and the entries
of it, which are signs and values in the order of the text. Tokens have the same
two readings, so that what a query says can be compared before and after
parsing.
-/

namespace SearchLang

/-- A sign or a value. -/
inductive Entry where
  | sign (s : Sign)
  | value (l : Literal)
  deriving DecidableEq, Repr

/-! ## Of trees -/

/-- The value of a leaf. -/
def Leaf.literal : Leaf → Literal
  | word value _ => .text value
  | number value => .number value
  | text _ value => .text value

/-- The bounds that a range has, the lower one first. -/
def Interval.literals : Interval → List Literal
  | words r | dates r => (r.lower.toList ++ r.upper.toList).map .text
  | numbers r => (r.lower.toList ++ r.upper.toList).map .number

/-- The sign of a node, if it has one. -/
def Modifiers.entries (m : Modifiers) : List Entry :=
  m.sign.toList.map .sign

mutual

/-- The values of the leaves of a node, from left to right. Bounds are no leaves. -/
def Node.leafValues : Node → List Literal
  | .leaf l _ => [l.literal]
  | .range _ _ => []
  | .filter _ _ value _ => value.leafValues
  | .subquery nodes _ => Node.leafValuesList nodes

/-- The values of the leaves of some nodes. -/
def Node.leafValuesList : List Node → List Literal
  | [] => []
  | n :: rest => n.leafValues ++ Node.leafValuesList rest

end

mutual

/-- The entries of a node: its sign, then its value, its bounds or the entries of what it holds. -/
def Node.entries : Node → List Entry
  | .leaf l m => m.entries ++ [.value l.literal]
  | .range i m => m.entries ++ i.literals.map .value
  | .filter _ _ value m => m.entries ++ value.entries
  | .subquery nodes m => m.entries ++ Node.entriesList nodes

/-- The entries of some nodes. -/
def Node.entriesList : List Node → List Entry
  | [] => []
  | n :: rest => n.entries ++ Node.entriesList rest

end

theorem Node.leafValuesList_eq_flatMap (nodes : List Node) :
    Node.leafValuesList nodes = nodes.flatMap Node.leafValues := by
  induction nodes with
  | nil => rw [Node.leafValuesList]; rfl
  | cons n rest ih => rw [Node.leafValuesList, ih]; rfl

theorem Node.entriesList_eq_flatMap (nodes : List Node) :
    Node.entriesList nodes = nodes.flatMap Node.entries := by
  induction nodes with
  | nil => rw [Node.entriesList]; rfl
  | cons n rest ih => rw [Node.entriesList, ih]; rfl

/-! ## Of tokens -/

namespace Token

/-- The value of a token that stands for one. -/
def leafValues (t : Token) : List Literal :=
  if t.kind.isLeaf then t.literal.toList else []

/-- The entry of a token: its sign or its value. -/
def entries (t : Token) : List Entry :=
  match t.kind with
  | .sign s => [.sign s]
  | _ => t.leafValues.map .value

/-- Whether a number directly after a token belongs to it. -/
def takesNumber (t : Token) : Bool :=
  t.kind == .boost || t.kind == .fuzzy

/-- The tokens without the numbers of boosts and fuzzies. `taken` tells whether the token before
them takes a number. -/
def dropAmounts (taken : Bool) : List Token → List Token
  | [] => []
  | t :: rest =>
    if taken && t.kind == .number then dropAmounts false rest
    else t :: dropAmounts t.takesNumber rest

end Token

end SearchLang
