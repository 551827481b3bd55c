import SearchLang.Node.Basic

/-!
# Shapes

The form of a tree without its amounts. `Node.outline` forgets how large boosts
and fuzzies are, `Node.mirror` exchanges the two signs and the two kinds of
brackets, and `Node.isWellShaped` says which trees a query can stand for. The
bounds of a range come from tokens of its own type (`Interval.isDrawnFrom`).
-/

namespace SearchLang

/-! ## Outlines -/

/-- The modifiers with all amounts zero. -/
def Modifiers.outline (m : Modifiers) : Modifiers :=
  { m with boost := m.boost.map fun _ => .zero, fuzzy := m.fuzzy.map fun _ => .zero }

mutual

/-- The node with all amounts zero. -/
def Node.outline : Node → Node
  | .leaf l m => .leaf l m.outline
  | .range i m => .range i m.outline
  | .filter f c value m => .filter f c value.outline m.outline
  | .subquery nodes m => .subquery (Node.outlineList nodes) m.outline

/-- The outlines of some nodes. -/
def Node.outlineList : List Node → List Node
  | [] => []
  | n :: rest => n.outline :: Node.outlineList rest

end

theorem Node.outlineList_eq_map (nodes : List Node) :
    Node.outlineList nodes = nodes.map Node.outline := by
  induction nodes with
  | nil => rw [Node.outlineList]; rfl
  | cons n rest ih => rw [Node.outlineList, ih]; rfl

@[simp] theorem Node.supportsFuzzy_outline (n : Node) :
    n.outline.supportsFuzzy = n.supportsFuzzy := by
  induction n with
  | leaf l m => rw [Node.outline]; rfl
  | range i m => rw [Node.outline]; rfl
  | filter f c value m ih => rw [Node.outline, Node.supportsFuzzy, ih, Node.supportsFuzzy]
  | subquery nodes m => rw [Node.outline]; rfl

/-! ## Mirrors -/

/-- The other sign. -/
def Sign.mirror : Sign → Sign
  | .required => .prohibited
  | .prohibited => .required

/-- The other pair of brackets. -/
def Bracket.mirror : Bracket → Bracket
  | .inclusive => .exclusive
  | .exclusive => .inclusive

/-- The kind with the other sign or bracket. -/
def Kind.mirror : Kind → Kind
  | sign s => .sign s.mirror
  | rangeStart b => .rangeStart b.mirror
  | rangeEnd b => .rangeEnd b.mirror
  | k => k

/-- The token with the other sign or bracket. -/
def Token.mirror (t : Token) : Token :=
  { t with kind := t.kind.mirror }

/-- The range with the other brackets. -/
def Range.mirror {α : Type} (r : Range α) : Range α :=
  { r with exclusive := !r.exclusive }

/-- The range with the other brackets, by the type of its bounds. -/
def Interval.mirror : Interval → Interval
  | words r => .words r.mirror
  | numbers r => .numbers r.mirror
  | dates r => .dates r.mirror

/-- The modifiers with the other sign. -/
def Modifiers.mirror (m : Modifiers) : Modifiers :=
  { m with sign := m.sign.map Sign.mirror }

mutual

/-- The node with the other signs and brackets. -/
def Node.mirror : Node → Node
  | .leaf l m => .leaf l m.mirror
  | .range i m => .range i.mirror m.mirror
  | .filter f c value m => .filter f c value.mirror m.mirror
  | .subquery nodes m => .subquery (Node.mirrorList nodes) m.mirror

/-- The mirrors of some nodes. -/
def Node.mirrorList : List Node → List Node
  | [] => []
  | n :: rest => n.mirror :: Node.mirrorList rest

end

theorem Node.mirrorList_eq_map (nodes : List Node) :
    Node.mirrorList nodes = nodes.map Node.mirror := by
  induction nodes with
  | nil => rw [Node.mirrorList]; rfl
  | cons n rest ih => rw [Node.mirrorList, ih]; rfl

@[simp] theorem Sign.mirror_mirror (s : Sign) : s.mirror.mirror = s := by
  cases s <;> rfl

@[simp] theorem Bracket.mirror_mirror (b : Bracket) : b.mirror.mirror = b := by
  cases b <;> rfl

@[simp] theorem Kind.mirror_mirror (k : Kind) : k.mirror.mirror = k := by
  cases k <;> simp [Kind.mirror]

@[simp] theorem Token.mirror_mirror (t : Token) : t.mirror.mirror = t := by
  simp [Token.mirror]

@[simp] theorem Interval.mirror_mirror (i : Interval) : i.mirror.mirror = i := by
  cases i <;> simp [Interval.mirror, Range.mirror]

@[simp] theorem Modifiers.mirror_mirror (m : Modifiers) : m.mirror.mirror = m := by
  obtain ⟨sign, boost, fuzzy⟩ := m
  cases sign <;> simp [Modifiers.mirror]

/-- Mirroring twice changes nothing. -/
theorem Node.mirror_mirror (n : Node) : n.mirror.mirror = n := by
  induction n with
  | leaf l m => simp only [Node.mirror, Modifiers.mirror_mirror]
  | range i m => simp only [Node.mirror, Interval.mirror_mirror, Modifiers.mirror_mirror]
  | filter f c value m ih => simp only [Node.mirror, ih, Modifiers.mirror_mirror]
  | subquery nodes m ih =>
    simp only [Node.mirror, Node.mirrorList_eq_map, List.map_map, Modifiers.mirror_mirror]
    congr 1
    exact (List.map_congr_left ih).trans nodes.map_id

/-! ## Well-shaped trees -/

/-- A range with a bound. -/
def Range.hasBound {α : Type} (r : Range α) : Bool :=
  r.lower.isSome || r.upper.isSome

/-- A range with a bound, of whichever type. -/
def Interval.hasBound : Interval → Bool
  | words r | dates r => r.hasBound
  | numbers r => r.hasBound

/-- Whether a subquery stands anywhere in a node. -/
def Node.holdsSubquery : Node → Bool
  | .leaf _ _ | .range _ _ => false
  | .filter _ _ value _ => value.holdsSubquery
  | .subquery _ _ => true

/-- A leaf or a range. -/
def Node.isSimple : Node → Bool
  | .leaf _ _ | .range _ _ => true
  | _ => false

/-- Whether all subqueries in a node are made of leaves and ranges. -/
def Node.hasFlatSubqueries : Node → Bool
  | .leaf _ _ | .range _ _ => true
  | .filter _ _ value _ => value.hasFlatSubqueries
  | .subquery nodes _ => nodes.all Node.isSimple

/-- Whether a comparison may stand before a value: before leaves alone, and never an equality. -/
def Node.admitsComparison (value : Node) : Option Comparison → Bool
  | none => true
  | some c => !value.isCompound && c != .eq

/-- Whether a node may be the value of a filter: it is no filter, and has no modifiers. -/
def Node.isFilterValue (value : Node) : Bool :=
  value.tag != .filter && value.modifiers == {}

mutual

/-- A node that a query can stand for: ranges have a bound, subqueries have nodes and hold no
subquery, the value of a filter is bare, and only what supports a fuzziness has one. -/
def Node.isWellShaped : Node → Bool
  | .leaf l m => m.fuzzy.isNone || l.supportsFuzzy
  | .range i m => m.fuzzy.isNone && i.hasBound
  | .filter _ c value m =>
    (m.fuzzy.isNone || value.supportsFuzzy) && value.isFilterValue && value.admitsComparison c &&
      value.isWellShaped
  | .subquery nodes m =>
    m.fuzzy.isNone && !nodes.isEmpty && !nodes.any Node.holdsSubquery &&
      Node.areWellShaped nodes

/-- Whether all of some nodes are well shaped. -/
def Node.areWellShaped : List Node → Bool
  | [] => true
  | n :: rest => n.isWellShaped && Node.areWellShaped rest

end

theorem Node.areWellShaped_eq_all (nodes : List Node) :
    Node.areWellShaped nodes = nodes.all Node.isWellShaped := by
  induction nodes with
  | nil => rw [Node.areWellShaped]; rfl
  | cons n rest ih => rw [Node.areWellShaped, ih]; rfl

/-! ## Where the bounds of ranges come from -/

/-- The bounds that a range has, the lower one first. -/
def Range.bounds {α : Type} (r : Range α) : List α :=
  r.lower.toList ++ r.upper.toList

/-- Whether every bound of a range is the value of a token whose kind is that of the range: a word
or a phrase, a number, or a date. -/
def Interval.isDrawnFrom (ts : List Token) : Interval → Bool
  | words r => r.bounds.all fun s => ts.any fun t =>
    (t.kind == .word || t.kind == .text .phrase) && t.text? == some s
  | numbers r => r.bounds.all fun n => ts.any fun t => t.kind == .number && t.number? == some n
  | dates r => r.bounds.all fun s => ts.any fun t => t.kind == .text .date && t.text? == some s

mutual

/-- All ranges of a node, from left to right. -/
def Node.intervals : Node → List Interval
  | .leaf _ _ => []
  | .range i _ => [i]
  | .filter _ _ value _ => value.intervals
  | .subquery nodes _ => Node.intervalsList nodes

/-- All ranges of some nodes. -/
def Node.intervalsList : List Node → List Interval
  | [] => []
  | n :: rest => n.intervals ++ Node.intervalsList rest

end

theorem Node.intervalsList_eq_flatMap (nodes : List Node) :
    Node.intervalsList nodes = nodes.flatMap Node.intervals := by
  induction nodes with
  | nil => rw [Node.intervalsList]; rfl
  | cons n rest ih => rw [Node.intervalsList, ih]; rfl

end SearchLang
