import SearchLang.Node.Walk

/-!
# Walks tell trees

The events of a walk are bracketed, meet every node once, in the order of the text,
and are enough to build the tree again. Each of these is proved for the events of a
node with any events around them, so that it passes from the parts of a tree to the
tree (`walkList_tells_tree`).
-/

namespace SearchLang

open Event

/-! ## Bracketing -/

theorem Event.Nested.walkList_append {ns : List Node} {rest : List Event}
    (h : ∀ n ∈ ns, ∀ {rest}, Nested rest → Nested (n.walk ++ rest)) (hrest : Nested rest) :
    Nested (Node.walkList ns ++ rest) := by
  induction ns with
  | nil =>
    rw [Node.walkList]
    exact hrest
  | cons n ns ih =>
    rw [Node.walkList, List.append_assoc]
    exact h n (by simp) (ih fun k hk => h k (List.mem_cons_of_mem n hk))

/-- Bracketed events stay so with a walk in front of them. -/
theorem Event.Nested.walk_append (n : Node) {rest : List Event} (hrest : Nested rest) :
    Nested (n.walk ++ rest) := by
  induction n generalizing rest with
  | leaf l m => exact .leaf l m hrest
  | range i m => exact .range i m hrest
  | filter f c v m ih =>
    have hinner : Nested v.walk := by simpa using ih .nil
    simpa [Node.walk] using Nested.filter f c v m hinner hrest
  | subquery ns m ih =>
    have hinner : Nested (Node.walkList ns) := by
      simpa using walkList_append (fun n hn _ => ih n hn) .nil
    simpa [Node.walk] using Nested.subquery ns m hinner hrest

theorem nested_walkList (nodes : List Node) : Nested (Node.walkList nodes) := by
  simpa using Nested.walkList_append (fun n _ _ => Nested.walk_append n) .nil

/-! ## Building the tree again -/

section Rebuild

variable (entered : List (Node × List Node)) (items : List Node) (rest : List Event)

theorem Event.rebuild?_walkList_append {ns : List Node}
    (h : ∀ n ∈ ns, ∀ entered items rest,
      rebuild? entered items (n.walk ++ rest) = rebuild? entered (n :: items) rest) :
    rebuild? entered items (Node.walkList ns ++ rest) =
      rebuild? entered (ns.reverse ++ items) rest := by
  induction ns generalizing items with
  | nil =>
    rw [Node.walkList]
    rfl
  | cons n ns ih =>
    rw [Node.walkList, List.append_assoc, h n (by simp),
      ih _ fun k hk => h k (List.mem_cons_of_mem n hk), List.reverse_cons, List.append_assoc,
      List.singleton_append]

/-- The events of a node add the node to those so far, whatever has been entered around it. -/
theorem Event.rebuild?_walk_append (n : Node) :
    rebuild? entered items (n.walk ++ rest) = rebuild? entered (n :: items) rest := by
  induction n generalizing entered items rest with
  | leaf l m => rw [Node.walk, List.singleton_append, rebuild?]
  | range i m => rw [Node.walk, List.singleton_append, rebuild?]
  | filter f c v m ih =>
    rw [Node.walk, List.cons_append, List.cons_append, List.append_assoc, rebuild?, ih,
      List.singleton_append, rebuild?]
    exact if_pos rfl
  | subquery ns m ih =>
    rw [Node.walk, List.cons_append, List.cons_append, List.append_assoc, rebuild?,
      rebuild?_walkList_append _ _ _ ih, List.append_nil, List.singleton_append, rebuild?]
    simp

end Rebuild

theorem rebuild?_walkList (nodes : List Node) :
    rebuild? [] [] (Node.walkList nodes) = some nodes := by
  have hwalk := rebuild?_walkList_append [] [] [] fun n (_ : n ∈ nodes) entered items rest =>
    rebuild?_walk_append entered items rest n
  rw [List.append_nil, List.append_nil] at hwalk
  rw [hwalk, rebuild?_nil, List.reverse_reverse]

/-! ## Meeting every node -/

theorem filterMap_met?_walkList {ns : List Node}
    (h : ∀ n ∈ ns, n.walk.filterMap met? = n.preorder) :
    (Node.walkList ns).filterMap met? = Node.preorderList ns := by
  induction ns with
  | nil => rw [Node.walkList, Node.preorderList, List.filterMap_nil]
  | cons n ns ih =>
    rw [Node.walkList, Node.preorderList, List.filterMap_append, h n (by simp),
      ih fun k hk => h k (List.mem_cons_of_mem n hk)]

theorem filterMap_met?_walk (n : Node) : n.walk.filterMap met? = n.preorder := by
  induction n with
  | leaf l m => rw [Node.walk, Node.preorder]; rfl
  | range i m => rw [Node.walk, Node.preorder]; rfl
  | filter f c v m ih => simp [Node.walk, Node.preorder, met?, ih]
  | subquery ns m ih => simp [Node.walk, Node.preorder, met?, filterMap_met?_walkList ih]

/-- **A walk tells the whole tree, once and in order**: its events are bracketed, building nodes
from them gives the nodes that were walked through, and they meet each of these and of the nodes in
them once. -/
theorem walkList_tells_tree (nodes : List Node) :
    Nested (Node.walkList nodes) ∧
      rebuild? [] [] (Node.walkList nodes) = some nodes ∧
      (Node.walkList nodes).filterMap met? = Node.preorderList nodes :=
  ⟨nested_walkList nodes, rebuild?_walkList nodes,
    filterMap_met?_walkList fun n _ => filterMap_met?_walk n⟩

end SearchLang
