import SearchLang.Proofs.Scan.Compound

/-!
# Scanning rendered trees

A scan takes the text of a tree apart into the tokens of the tree if it does so
for each leaf where it stands, as it does for the leaves of plain trees. Each
node is scanned from a state in which nothing is open, and the space after it
leads back to such a state. So does any other text that is scanned from there
on its own (`TextScans`), and such texts are scanned one by one (`scan_join`).
-/

namespace SearchLang.Scan

open Pattern Chunk

/-! ## Nodes -/

/-- Where the next node may start: nothing is open, and a space or a filter has ended. -/
structure Settled (s : Scan) (ts : List Token) : Prop where
  kept : s.kept = ts
  filter : s.inFilter = false
  subquery : s.inSubquery = false
  range : s.range = none
  last : s.lastKind = .whitespace ∨ s.lastKind = .filterEnd

theorem Settled.ready {s : Scan} {ts : List Token} (hs : s.Settled ts) :
    s.Ready ∧ s.atClauseStart = true := by
  rcases hs.last with h | h
  · exact ⟨.of_kind h (by simp), by simp [atClauseStart, h, hs.filter, hs.subquery]⟩
  · exact ⟨.of_kind h (by simp), by simp [atClauseStart, h, hs.filter, hs.subquery]⟩

/-- A sign before a subquery is a piece of its own. -/
theorem after_lead {s : Scan} (hs : s.Ready) (m : Modifiers) (afterSpace : Bool) (rest : Text) :
    ∃ b, s.after afterSpace (m.lead ++ '(' :: rest) =
      (s.push m.leadTokens).after b ('(' :: rest) := by
  cases hm : m.sign with
  | none => exact ⟨afterSpace, by simp [Modifiers.lead, Modifiers.leadTokens, hm]⟩
  | some sign =>
    have hact : s.symbol (.sign sign) = s.push [.mark (.sign sign)] :=
      addOnce_eq_push (hs.ne_sign sign)
    have htame : ∀ c ∈ [sign.mark], isTame c = true :=
      List.forall_mem_singleton.mpr (by cases sign <;> decide)
    have hsymbol : Symbol.ofChunk? [sign.mark] = some (.sign sign) := by cases sign <;> rfl
    have hnumber : number? [sign.mark] = none := by cases sign <;> rfl
    have hafter : s.after afterSpace ([sign.mark] ++ '(' :: rest) =
        (s.push [.mark (.sign sign)]).after false ('(' :: rest) :=
      after_tameSymbol (List.cons_ne_nil _ []) htame (stops_cons rfl rest) hnumber hsymbol hact
        (by simp)
    refine ⟨false, ?_⟩
    simpa [Modifiers.lead, Modifiers.leadTokens, hm] using hafter

/-- What the filters are about that are scanned to their tokens: a leaf, a range or a subquery of
leaves. -/
def ValueScans : Node → Prop
  | .leaf l _ => ScansAt (before [] false) {} l
  | .range i _ => IntervalScans i
  | .subquery nodes _ => BodyScans false nodes
  | .filter .. => False

theorem valueScans_of_isPlainValue {value : Node} (h : value.isPlainValue = true) :
    ValueScans value := by
  cases value with
  | leaf l m =>
    simp only [Node.isPlainValue, Node.isPlainLeaf, Bool.and_eq_true] at h
    exact (scansAt_of_isPlain h.1 (.inr rfl)).before stops_nil false
  | range i m => exact intervalScans_of_isPlain h
  | filter field comparison value m => simp [Node.isPlainValue, Node.isPlainLeaf] at h
  | subquery nodes m => exact bodyScans_of_isPlainLeaf (List.all_eq_true.mp h) false

/-- No value of a filter starts with a slash, so that no link starts at the field. -/
theorem head?_render_value {value : Node} (hvalue : ValueScans value)
    (hbare : value.modifiers = {}) (rest : Text) : (value.render ++ rest).head? ≠ some '/' := by
  cases value with
  | leaf l m =>
    obtain rfl : m = {} := hbare
    have hl : ScansAt (before [] false) {} l := hvalue
    obtain ⟨c, cs, hcs⟩ := List.exists_cons_of_ne_nil hl.compact.ne_nil
    have hhead := hl.head
    simp only [Node.render, Modifiers.lead, Modifiers.trail, List.nil_append, List.append_nil]
    simpa [hcs] using hhead
  | range i m =>
    obtain rfl : m = {} := hbare
    have hmark (exclusive : Bool) : (if exclusive then '{' else '[') ≠ '/' := by
      cases exclusive <;> decide
    cases i <;> simp [Node.render, Modifiers.lead, Interval.render, Range.render, hmark]
  | filter field comparison value m => exact hvalue.elim
  | subquery nodes m =>
    obtain rfl : m = {} := hbare
    simp [Node.render, Modifiers.lead]

/-- The value of a filter and the modifiers after it are scanned to their tokens, with the end of
the filter between them. -/
theorem after_value {s : Scan} (hfilter : s.inFilter = true) (hsubquery : s.inSubquery = false)
    (hrange : s.range = none) (hs : startsValue s.lastKind = true) {value : Node}
    (hvalue : ValueScans value) (hbare : value.modifiers = {})
    (hne : ∀ ns m, value = .subquery ns m → ns ≠ [] ∧ ∀ n ∈ ns, FiniteAmounts n.modifiers)
    {m : Modifiers} (hm : FiniteAmounts m) {rest : Text} (hrest : EndsNode rest) :
    ∃ s' : Scan, s.after false (value.render ++ (m.trail ++ rest)) = s'.after false rest ∧
      s'.Ended (s.kept ++ (value.tokens isQuotedBound ++ .mark .filterEnd :: m.trailTokens)) := by
  obtain ⟨hready, hbracket⟩ := of_startsValue hs
  cases value with
  | leaf l k =>
    obtain rfl : k = {} := hbare
    have hl : ScansAt (before [] false) {} l := hvalue
    have hleaf : s.after false (l.render ++ (m.trail ++ rest)) =
        (s.push l.tokens).after false (m.trail ++ rest) :=
      hl.after hready false ((endsNode_trail m hrest).before false)
    have hkept : (s.push l.tokens).kept = s.kept ++ l.tokens := by
      have htokens := filter_isKept_tokens isQuotedBound (.leaf l {})
      simp only [Node.tokens, Modifiers.leadTokens_empty, Modifiers.trailTokens_empty,
        List.nil_append, List.append_nil] at htokens
      rw [kept_push, htokens]
    obtain ⟨s', htrail, hended⟩ := after_trail_of_open hkept hfilter hsubquery hrange
      (endsLeaf_push_tokens s l) hm hrest.stops
    refine ⟨s', ?_, ?_⟩
    · simpa [Node.render, Modifiers.lead, Modifiers.trail] using hleaf.trans htrail
    · simpa [Node.tokens] using hended
  | range i k =>
    obtain rfl : k = {} := hbare
    obtain ⟨s', hafter, hstands⟩ :=
      after_interval hvalue hfilter hsubquery hrange hbracket (m.trail ++ rest)
    obtain ⟨s'', htrail, hended⟩ := hstands.after_trail hm hrest.stops
    refine ⟨s'', ?_, ?_⟩
    · simpa [Node.render, Modifiers.lead, Modifiers.trail] using hafter.trans htrail
    · simpa [Node.tokens] using hended
  | filter field comparison value k => exact hvalue.elim
  | subquery nodes k =>
    obtain rfl : k = {} := hbare
    obtain ⟨hnil, hfinite⟩ := hne nodes {} rfl
    obtain ⟨s', hafter, hstands⟩ := after_subquery isQuotedBound hsubquery hrange hfilter false hnil
      hvalue hfinite (endsNode_trail m hrest)
    obtain ⟨s'', htrail, hended⟩ := hstands.after_trail hm hrest.stops
    refine ⟨s'', ?_, ?_⟩
    · simpa [Node.render, Modifiers.lead, Modifiers.trail] using hafter.trans htrail
    · simpa [Node.tokens] using hended

/-- A filter is scanned to its tokens, up to its end if nothing shows that yet. -/
theorem after_filter {s : Scan} {ts : List Token} (hs : s.Settled ts) (afterSpace : Bool)
    {field : Text} (hfield : Text.isPlainField field = true) (comparison : Option Comparison)
    {value : Node} (hscans : ValueScans value) (hbare : value.modifiers = {})
    (hne : ∀ ns m, value = .subquery ns m → ns ≠ [] ∧ ∀ n ∈ ns, FiniteAmounts n.modifiers)
    {m : Modifiers} (hm : FiniteAmounts m) {rest : Text} (hrest : EndsNode rest) :
    ∃ s' : Scan, s.after afterSpace ((Node.filter field comparison value m).render ++ rest) =
        s'.after false rest ∧
      s'.Ended (ts ++ (Node.filter field comparison value m).tokens isQuotedBound) := by
  obtain ⟨hready, hclause⟩ := hs.ready
  have hslash : ((comparison.map Comparison.mark).getD [] ++
      (value.render ++ (m.trail ++ rest))).head? ≠ some '/' := by
    have hvalue := head?_render_value hscans hbare (m.trail ++ rest)
    cases comparison with
    | none => exact hvalue
    | some c =>
      cases c with
      | eq => exact hvalue
      | gt | gte | lt | lte => simp [Comparison.mark]
  obtain ⟨hcomparison, hstarts⟩ := after_comparison
    (s := { s with inFilter := true }.push (m.leadTokens ++ [Token.ofText .filterStart field])) rfl
    (lastKind_push_append _ _ _) comparison (value.render ++ (m.trail ++ rest))
  obtain ⟨s', hvalue, hended⟩ := after_value
    (s := ({ s with inFilter := true }.push (m.leadTokens ++ [Token.ofText .filterStart field])).push
      ((comparison.map Comparison.tokens).getD []))
    rfl hs.subquery hs.range hstarts hscans hbare hne hm hrest
  refine ⟨s', ?_, ?_⟩
  · have hafter := after_field hready hclause afterSpace m hfield hslash
    have hall := hafter.trans (hcomparison.trans hvalue)
    simpa [Node.render] using hall
  · have hcomparison : ((comparison.map Comparison.tokens).getD []).filter isKept =
        (comparison.map Comparison.tokens).getD [] := by
      cases comparison with
      | none => rfl
      | some c => cases c <;> rfl
    have hstart : [Token.ofText .filterStart field].filter isKept = [.ofText .filterStart field] := rfl
    have hkept : { s with inFilter := true }.kept = ts := hs.kept
    rw [kept_push, kept_push, hkept, List.filter_append, filter_isKept_leadTokens, hstart,
      hcomparison] at hended
    simpa [Node.tokens] using hended

/-- A node that is scanned to its tokens outside of brackets. -/
def NodeScans : Node → Prop
  | .leaf l m => ScansAt (before [] true) m l
  | .filter field _ value _ => Text.isPlainField field = true ∧ ValueScans value
  | .subquery nodes _ => BodyScans false nodes
  | .range .. => False

theorem nodeScans_of_isPlain {limits : Limits} {n : Node} (h : n.isPlain limits = true) : NodeScans n := by
  simp only [Node.isPlain, Bool.and_eq_true] at h
  obtain ⟨-, hplain⟩ := h
  cases n with
  | leaf l m =>
    simp only [Node.isPlainLeaf, Bool.and_eq_true, Bool.or_eq_true] at hplain
    exact (scansAt_of_isPlain hplain.1 hplain.2).before stops_nil true
  | range i m => simp [Node.isPlainLeaf] at hplain
  | filter field comparison value m =>
    simp only [Bool.and_eq_true] at hplain
    exact ⟨hplain.1, valueScans_of_isPlainValue hplain.2⟩
  | subquery nodes m => exact bodyScans_of_isPlainLeaf (List.all_eq_true.mp hplain) false

/-- A space is not among the tokens that count. -/
theorem kept_addOnce_whitespace (s : Scan) : (s.addOnce .whitespace).kept = s.kept := by
  unfold addOnce
  split
  · rfl
  · simp [kept, add, isKept_mark]

/-- **A space settles what a scan holds.** Outside of subqueries and ranges it ends the filter, as
the end of the query would. -/
theorem settled_space {s : Scan} (hsubquery : s.inSubquery = false) (hrange : s.range = none)
    (hne : s.inFilter = true → s.lastKind ≠ .filterEnd) :
    ((s.addOnce .whitespace).settle).Settled s.close.kept := by
  have hspace : (s.addOnce .whitespace).lastKind = .whitespace := lastKind_addOnce _ _
  have hkept : (s.addOnce .whitespace).kept = s.kept := kept_addOnce_whitespace s
  cases hfilter : s.inFilter with
  | false =>
    -- nothing is open, so the space is all that is added
    have hsettle : (s.addOnce .whitespace).settle = s.addOnce .whitespace :=
      if_neg fun h => by simp [hfilter] at h
    rw [hsettle, close_of_not_open hfilter hsubquery]
    exact ⟨hkept, by simpa using hfilter, by simpa using hsubquery, by simpa using hrange,
      .inl hspace⟩
  | true =>
    have hopen : (s.addOnce .whitespace).lastKind = .whitespace ∧
        (s.addOnce .whitespace).inFilter = true ∧ (s.addOnce .whitespace).range = none ∧
        ¬ (s.addOnce .whitespace).inSubquery = true :=
      ⟨hspace, by simpa using hfilter, by simpa using hrange, by simp [hsubquery]⟩
    have hsettle : (s.addOnce .whitespace).settle = (s.addOnce .whitespace).closeFilter :=
      if_pos hopen
    have hend : s.close = { s with inFilter := false }.push [.mark .filterEnd] := by
      rw [← closeFilter_eq_push (hne hfilter)]
      simp [Scan.close, hsubquery, hfilter]
    rw [hsettle, closeFilter_eq_push (by simp [hspace])]
    refine ⟨?_, rfl, by simpa using hsubquery, by simpa using hrange, .inr rfl⟩
    have hspaced : { s.addOnce .whitespace with inFilter := false }.kept = s.kept := hkept
    rw [hend, kept_push, kept_push, hspaced]
    rfl

/-- The space after a node ends its filter. -/
theorem after_space_of_ended {s : Scan} {ts : List Token} (hs : s.Ended ts) (rest : Text) :
    ∃ s' : Scan, s.after false (' ' :: rest) = s'.after true rest ∧ s'.Settled ts := by
  refine ⟨_, after_space s false rest, ?_⟩
  have hsettled := settled_space hs.subquery hs.range hs.ne_filterEnd
  rwa [hs.close] at hsettled

/-! ## Texts with spaces between them -/

/-- A text that is scanned to some tokens where a node may start, up to the end of a filter if
nothing shows that yet. -/
structure TextScans (text : Text) (tokens : List Token) : Prop where
  after : ∀ {s : Scan} {ts : List Token}, s.Settled ts → ∀ {rest : Text}, EndsNode rest →
    ∃ s' : Scan, s.after true (text ++ rest) = s'.after false rest ∧ s'.Ended (ts ++ tokens)
  compact : Text.IsCompact text

section

variable {α : Type} {text : α → Text} {tokens : α → List Token} {as : List α}
  (h : ∀ a ∈ as, TextScans (text a) (tokens a))

include h

theorem after_join {s : Scan} {ts : List Token} (hs : s.Settled ts) :
    (s.after true (Text.join [' '] (as.map text))).close.kept = ts ++ as.flatMap tokens := by
  induction as generalizing s ts with
  | nil =>
    show (s.after true []).close.kept = ts ++ []
    rw [after_nil, close_of_not_open hs.filter hs.subquery, hs.kept, List.append_nil]
  | cons a as ih =>
    have ha := h a List.mem_cons_self
    cases as with
    | nil =>
      obtain ⟨s', hafter, hended⟩ := ha.after hs endsNode_nil
      rw [List.append_nil, after_nil] at hafter
      simpa [hafter] using hended.close
    | cons b as =>
      obtain ⟨s', hafter, hended⟩ :=
        ha.after hs (endsNode_space (Text.join [' '] ((b :: as).map text)))
      obtain ⟨s'', hspace, hsettled⟩ :=
        after_space_of_ended hended (Text.join [' '] ((b :: as).map text))
      have hrest := ih (fun c hc => h c (List.mem_cons_of_mem a hc)) hsettled
      have htext : Text.join [' '] ((a :: b :: as).map text) =
          text a ++ ' ' :: Text.join [' '] ((b :: as).map text) := Text.join_cons_cons ..
      rw [htext, hafter, hspace, hrest, List.append_assoc]
      rfl

/-- **Texts with spaces between them are scanned one by one.** -/
theorem scan_join : scan (Text.join [' '] (as.map text)) = as.flatMap tokens := by
  have hcollapse : Text.collapseBlanks (' ' :: Text.join [' '] (as.map text)) =
      ' ' :: Text.join [' '] (as.map text) := by
    cases as with
    | nil => rfl
    | cons a as =>
      have hcompact : Text.IsCompact (Text.join [' '] ((a :: as).map text)) := by
        refine .join (by simp) fun t ht => ?_
        obtain ⟨b, hb, rfl⟩ := List.mem_map.mp ht
        exact (h b hb).compact
      exact hcompact.space.collapseBlanks_eq
  have hstart : Settled {} [] := ⟨rfl, rfl, rfl, rfl, .inl rfl⟩
  show (ofQuery (Text.join [' '] (as.map text))).close.kept = _
  rw [ofQuery_of_collapsed hcollapse, after_join h hstart, List.nil_append]

end

/-! ## Trees within limits -/

variable {limits : Limits}

variable (hlimits : limits.maxBoost.isFinite = true ∧ limits.maxFuzzy.isFinite = true)

include hlimits

/-- The amounts of a node within finite limits are finite. -/
theorem finiteAmounts_of_allows {m : Modifiers} (h : limits.allows m = true) : FiniteAmounts m := by
  simp only [Limits.allows, Bool.and_eq_true] at h
  refine ⟨fun n hn => ?_, fun n hn => ?_⟩
  · exact Limits.isFinite_of_allowsAmount hlimits.1 (Option.mem_def.mp hn ▸ h.1)
  · exact Limits.isFinite_of_allowsAmount hlimits.2 (Option.mem_def.mp hn ▸ h.2)

theorem finiteAmounts_of_isWithin {n : Node} (h : n.isWithin limits = true) :
    FiniteAmounts n.modifiers :=
  finiteAmounts_of_allows hlimits (Node.allows_of_isWithin h)

/-- The parts of a well-shaped subquery within finite limits. -/
theorem of_subquery {nodes : List Node} {m : Modifiers}
    (hshape : (Node.subquery nodes m).isWellShaped = true)
    (hwithin : (Node.subquery nodes m).isWithin limits = true) :
    nodes ≠ [] ∧ ∀ n ∈ nodes, FiniteAmounts n.modifiers := by
  simp only [Node.isWellShaped, Node.isWithin, Node.areWithin_eq_all, Bool.and_eq_true,
    Bool.not_eq_true', List.isEmpty_eq_false_iff, List.all_eq_true] at hshape hwithin
  exact ⟨hshape.1.1.2, fun n hn => finiteAmounts_of_isWithin hlimits (hwithin.2 n hn)⟩

/-- A node is scanned to its tokens, up to the end of a filter if nothing shows that yet. -/
theorem after_node {s : Scan} {ts : List Token} (hs : s.Settled ts) {n : Node}
    (hcanonical : n.isCanonical limits = true) (hn : NodeScans n) {rest : Text}
    (hrest : EndsNode rest) :
    ∃ s' : Scan, s.after true (n.render ++ rest) = s'.after false rest ∧
      s'.Ended (ts ++ n.tokens isQuotedBound) := by
  simp only [Node.isCanonical, Bool.and_eq_true] at hcanonical
  obtain ⟨hshape, hwithin⟩ := hcanonical
  have hready := hs.ready.1
  cases n with
  | leaf l m =>
    have hm := finiteAmounts_of_allows hlimits hwithin
    obtain ⟨hafter, -⟩ := after_leafNode isQuotedBound hready hs.range (by simp [hs.filter])
      hn hm ((endsNode_trail m hrest).before true) hrest.stops
    refine ⟨_, hafter, ?_, hs.subquery, hs.range, by simp [hs.filter]⟩
    rw [kept_close_push hs.filter hs.subquery, hs.kept, filter_isKept_tokens]
  | range i m => exact hn.elim
  | filter field comparison value m =>
    simp only [Node.isWellShaped, Node.isWithin, Node.isFilterValue, Bool.and_eq_true,
      beq_iff_eq] at hshape hwithin
    obtain ⟨⟨⟨-, -, hbare⟩, -⟩, hvalue⟩ := hshape
    refine after_filter hs true hn.1 comparison hn.2 hbare ?_
      (finiteAmounts_of_allows hlimits hwithin.1) hrest
    rintro ns k rfl
    exact of_subquery hlimits hvalue hwithin.2
  | subquery nodes m =>
    obtain ⟨hne, hfinite⟩ := of_subquery hlimits hshape hwithin
    have hm : FiniteAmounts m := finiteAmounts_of_isWithin hlimits hwithin
    obtain ⟨b, hlead⟩ := after_lead hready m true
      (Node.renderList nodes ++ ')' :: (m.trail ++ rest))
    obtain ⟨s', hafter, hstands⟩ := after_subquery isQuotedBound (s := s.push m.leadTokens)
      hs.subquery hs.range hs.filter b hne hn hfinite (endsNode_trail m hrest)
    obtain ⟨s'', htrail, hended⟩ := hstands.after_trail hm hrest.stops
    refine ⟨s'', ?_, ?_⟩
    · have hall := hlead.trans (hafter.trans htrail)
      simpa [Node.render] using hall
    · rw [kept_push, hs.kept, filter_isKept_leadTokens] at hended
      simpa [Node.tokens] using hended

end SearchLang.Scan
