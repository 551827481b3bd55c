import SearchLang.Node.Basic

/-!
# Walking trees

A walk through a tree is the list of its events: a leaf or a range is met once,
a filter and a subquery are entered before and left after what they hold. The
events are enough to build the tree again, which is what `Event.rebuild?` does.
-/

namespace SearchLang

/-- What happens on a walk. Each event names the node it is about. -/
inductive Event where
  | leaf (node : Node)
  | range (node : Node)
  | enterFilter (node : Node)
  | leaveFilter (node : Node)
  | enterSubquery (node : Node)
  | leaveSubquery (node : Node)
  deriving DecidableEq, Repr

mutual

/-- The events of a walk through a node. -/
def Node.walk : Node → List Event
  | .leaf l m => [.leaf (.leaf l m)]
  | .range i m => [.range (.range i m)]
  | .filter f c value m =>
    .enterFilter (.filter f c value m) :: value.walk ++ [.leaveFilter (.filter f c value m)]
  | .subquery nodes m =>
    .enterSubquery (.subquery nodes m) :: Node.walkList nodes ++
      [.leaveSubquery (.subquery nodes m)]

/-- The events of a walk through some nodes. -/
def Node.walkList : List Node → List Event
  | [] => []
  | n :: rest => n.walk ++ Node.walkList rest

end

/-- Builds nodes from events. `items` are the nodes so far, the newest first, and `entered` the
nodes that have been entered and not left, each with the items before it. A node is left in the
order in which nodes were entered, a filter with one item and a subquery with as many as it has. -/
def Event.rebuild? (entered : List (Node × List Node)) (items : List Node) :
    List Event → Option (List Node)
  | [] => if entered.isEmpty then some items.reverse else none
  | .leaf n :: rest | .range n :: rest => rebuild? entered (n :: items) rest
  | .enterFilter n :: rest | .enterSubquery n :: rest => rebuild? ((n, items) :: entered) [] rest
  | .leaveFilter n :: rest =>
    match entered, n, items with
    | (top, before) :: entered, .filter f c _ m, [value] =>
      if top = n then rebuild? entered (.filter f c value m :: before) rest else none
    | _, _, _ => none
  | .leaveSubquery n :: rest =>
    match entered, n with
    | (top, before) :: entered, .subquery nodes m =>
      if top = n ∧ items.length = nodes.length then
        rebuild? entered (.subquery items.reverse m :: before) rest
      else none
    | _, _ => none

/-! ## What a walk comes to -/

/-- Events that are bracketed: a node that is entered is left by an event of its own, and the events
in between are bracketed as well. Each event is the one for its kind of node. -/
inductive Event.Nested : List Event → Prop
  | nil : Nested []
  | leaf (l : Leaf) (m : Modifiers) {rest : List Event} (hrest : Nested rest) :
    Nested (.leaf (.leaf l m) :: rest)
  | range (i : Interval) (m : Modifiers) {rest : List Event} (hrest : Nested rest) :
    Nested (.range (.range i m) :: rest)
  | filter (f : Text) (c : Option Comparison) (v : Node) (m : Modifiers) {inner rest : List Event}
    (hinner : Nested inner) (hrest : Nested rest) :
    Nested (.enterFilter (.filter f c v m) :: (inner ++ .leaveFilter (.filter f c v m) :: rest))
  | subquery (ns : List Node) (m : Modifiers) {inner rest : List Event}
    (hinner : Nested inner) (hrest : Nested rest) :
    Nested (.enterSubquery (.subquery ns m) :: (inner ++ .leaveSubquery (.subquery ns m) :: rest))

/-- The node that an event meets: one that it enters or visits. -/
def Event.met? : Event → Option Node
  | .leaf n | .range n | .enterFilter n | .enterSubquery n => some n
  | .leaveFilter _ | .leaveSubquery _ => none

mutual

/-- A node and all nodes in it, each before those that it holds. -/
def Node.preorder : Node → List Node
  | .leaf l m => [.leaf l m]
  | .range i m => [.range i m]
  | .filter f c value m => .filter f c value m :: value.preorder
  | .subquery nodes m => .subquery nodes m :: Node.preorderList nodes

/-- Some nodes and all nodes in them, each before those that it holds. -/
def Node.preorderList : List Node → List Node
  | [] => []
  | n :: rest => n.preorder ++ Node.preorderList rest

end

@[simp] theorem Event.rebuild?_nil (items : List Node) :
    rebuild? [] items [] = some items.reverse := rfl

end SearchLang
