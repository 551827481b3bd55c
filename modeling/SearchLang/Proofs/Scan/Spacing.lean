import SearchLang.Proofs.Scan.Render

/-!
# Spaces in rendered trees

The text of a tree has no runs of blanks if its leaves have none: what a query
collapses before it is cut into chunks leaves the text as it is. So nodes may
stand next to each other with spaces between them (`textScans_node`).
-/

namespace SearchLang

open Pattern Text Chunk Scan

/-! ## Leaves -/

theorem isBlank_of_mem_lead {m : Modifiers} : ∀ c ∈ m.lead, isBlank c = false :=
  fun c hc => isBlank_of_isTame (isTame_of_mem_lead c hc)

theorem isCollapsed_trail {m : Modifiers} (hm : FiniteAmounts m) : IsCollapsed m.trail := by
  have hamount {n : Number} (hn : n.isFinite = true) : IsCollapsed n.display :=
    (isCompact_leaf (l := .number n) hn).collapsed
  obtain ⟨sign, boost, fuzzy⟩ := m
  refine IsCollapsed.append ?_ ?_
  · cases boost with
    | none => exact isCollapsed_nil
    | some b => exact (hamount (hm.boost b rfl)).cons rfl
  · cases fuzzy with
    | none => exact isCollapsed_nil
    | some f => exact (hamount (hm.fuzzy f rfl)).cons rfl

/-- Modifiers around a text keep it compact. -/
theorem isCompact_modified {m : Modifiers} (hm : FiniteAmounts m) {body : Text}
    (hbody : IsCompact body) : IsCompact (m.lead ++ body ++ m.trail) :=
  (hbody.prepend isBlank_of_mem_lead).append (isCollapsed_trail hm)

theorem isCompact_of_bodyScans {spaced : Bool} {ns : List Node} (hns : BodyScans spaced ns)
    (hfinite : ∀ n ∈ ns, FiniteAmounts n.modifiers) : ∀ n ∈ ns, IsCompact n.render := by
  induction ns generalizing spaced with
  | nil => simp
  | cons n ns ih =>
    obtain ⟨l, m, rfl, hl, htail⟩ := hns.exists_leaf
    rw [List.forall_mem_cons] at hfinite ⊢
    exact ⟨isCompact_modified hfinite.1 hl.compact, ih htail hfinite.2⟩

/-! ## Compounds -/

theorem isCompact_renderList {ns : List Node} (hne : ns ≠ []) (hns : ∀ n ∈ ns, IsCompact n.render) :
    IsCompact (Node.renderList ns) := by
  rw [Node.renderList_eq_join]
  refine .join (by simpa using hne) fun t ht => ?_
  obtain ⟨n, hn, rfl⟩ := List.mem_map.mp ht
  exact hns n hn

theorem isCompact_range {α : Type} {bound : α → Text} {r : Range α}
    (hbound : ∀ a ∈ r.bounds, IsCompact (bound a)) : IsCompact (r.render bound) := by
  have hside (side : Option α) (hside : ∀ a ∈ side, a ∈ r.bounds) :
      IsCompact ((side.map bound).getD ['*']) := by
    cases side with
    | none => exact .cons rfl isCollapsed_nil
    | some a => exact hbound a (hside a rfl)
  have hopen : isBlank (openMark r.exclusive) = false := by cases r.exclusive <;> rfl
  have hclose : isBlank (closeMark r.exclusive) = false := by cases r.exclusive <;> rfl
  have hupper := (hside r.upper (mem_bounds r).2).append (isCollapsed_nil.cons hclose)
  have hupTo : IsCompact ('T' :: 'O' :: ' ' :: ((r.upper.map bound).getD ['*'] ++
      [closeMark r.exclusive])) :=
    .cons rfl (hupper.space.cons rfl)
  have htext := range_render_append bound r []
  rw [List.append_nil] at htext
  rw [htext]
  exact .cons hopen ((hside r.lower (mem_bounds r).1).append hupTo.space).collapsed

theorem isCompact_interval {i : Interval} (hi : IntervalScans i) : IsCompact i.render := by
  have hbounds {α : Type} {bound : α → Text} {token : α → Token} {r : Range α}
      (h : BoundsScan bound token r) : IsCompact (r.render bound) := by
    refine isCompact_range fun a ha => ?_
    obtain ⟨l, hl, hbound, -⟩ := h a ha
    rw [hbound]
    exact hl.compact
  cases i with
  | words r => exact hbounds hi
  | numbers r => exact hbounds hi
  | dates r => exact hbounds hi

variable {limits : Limits}
  (hlimits : limits.maxBoost.isFinite = true ∧ limits.maxFuzzy.isFinite = true)

include hlimits

theorem isCompact_subquery {nodes : List Node} {m : Modifiers} (hnodes : BodyScans false nodes)
    (hshape : (Node.subquery nodes m).isWellShaped = true)
    (hwithin : (Node.subquery nodes m).isWithin limits = true) :
    IsCompact (Node.subquery nodes m).render := by
  obtain ⟨hne, hfinite⟩ := of_subquery hlimits hshape hwithin
  have hm : FiniteAmounts m := finiteAmounts_of_isWithin hlimits hwithin
  have hlist : IsCompact (Node.renderList nodes) :=
    isCompact_renderList hne (isCompact_of_bodyScans hnodes hfinite)
  have hbody : IsCompact ('(' :: (Node.renderList nodes ++ [')'])) :=
    .cons rfl (hlist.append (isCollapsed_nil.cons rfl)).collapsed
  have hall := isCompact_modified hm hbody
  simpa [Node.render] using hall

theorem isCompact_filterValue {value : Node} (hvalue : ValueScans value)
    (hshape : value.isWellShaped = true) (hwithin : value.isWithin limits = true) :
    IsCompact value.render := by
  have hm : FiniteAmounts value.modifiers := finiteAmounts_of_isWithin hlimits hwithin
  cases value with
  | leaf l m =>
    have hl : ScansAt (before [] false) {} l := hvalue
    exact isCompact_modified hm hl.compact
  | range i m => exact isCompact_modified hm (isCompact_interval hvalue)
  | filter field comparison value m => exact hvalue.elim
  | subquery nodes m => exact isCompact_subquery hlimits hvalue hshape hwithin

theorem isCompact_node {n : Node} (hcanonical : n.isCanonical limits = true) (hn : NodeScans n) :
    IsCompact n.render := by
  simp only [Node.isCanonical, Bool.and_eq_true] at hcanonical
  obtain ⟨hshape, hwithin⟩ := hcanonical
  have hm : FiniteAmounts n.modifiers := finiteAmounts_of_isWithin hlimits hwithin
  cases n with
  | leaf l m =>
    have hl : ScansAt (before [] true) m l := hn
    exact isCompact_modified hm hl.compact
  | range i m => exact hn.elim
  | filter field comparison value m =>
    simp only [Node.isWellShaped, Node.isWithin, Bool.and_eq_true] at hshape hwithin
    have hvalue := isCompact_filterValue hlimits hn.2 hshape.2 hwithin.2
    obtain ⟨c, name, hfield, hc, hname⟩ := of_isPlainField hn.1
    have hfieldBlank : ∀ d ∈ field, isBlank d = false := fun d hd =>
      isBlank_of_isTame (isTame_of_isNameRest (isNameRest_of_mem_field hc hname d (hfield ▸ hd)))
    have hcomparison : ∀ d ∈ (comparison.map Comparison.mark).getD [], isBlank d = false := by
      cases comparison with
      | none => simp
      | some c => cases c <;> simp [Comparison.mark] <;> decide
    have hbody : IsCompact
        (field ++ ':' :: ((comparison.map Comparison.mark).getD [] ++ value.render)) :=
      (IsCompact.cons rfl (hvalue.prepend hcomparison).collapsed).prepend hfieldBlank
    have hall := isCompact_modified hm hbody
    simpa [Node.render, Node.modifiers] using hall
  | subquery nodes m => exact isCompact_subquery hlimits hn hshape hwithin

/-- A node is scanned to its tokens where a node may start. -/
theorem textScans_node {n : Node} (hcanonical : n.isCanonical limits = true) (hn : NodeScans n) :
    TextScans n.render (n.tokens isQuotedBound) :=
  ⟨fun hs _ hrest => after_node hlimits hs hcanonical hn hrest,
    isCompact_node hlimits hcanonical hn⟩

end SearchLang
