import SearchLang.Node.Readable
import SearchLang.Proofs.Node.TokenKinds
import SearchLang.Proofs.Scan.Leaf

/-!
# Scanning rendered subqueries, ranges and filters

The constructs that open and close something. A range and a subquery end the
filter they are the value of; a filter on a leaf is ended by what follows it, a
modifier or a space, or at the end of the text.
-/

namespace SearchLang.Scan

open Pattern Chunk

/-! ## Subqueries -/

theorem lastKind_push_trailTokens (s : Scan) (m : Modifiers) :
    (s.push m.trailTokens).lastKind = s.lastKind ∨ (s.push m.trailTokens).lastKind = .number := by
  obtain ⟨sign, boost, fuzzy⟩ := m
  cases fuzzy with
  | some f => cases boost <;> exact .inr rfl
  | none =>
    cases boost with
    | some b => exact .inr rfl
    | none => exact .inl rfl

theorem endsLeaf_push_trailTokens {s : Scan} (hs : endsLeaf s.lastKind = true) (m : Modifiers) :
    endsLeaf (s.push m.trailTokens).lastKind = true := by
  rcases lastKind_push_trailTokens s m with h | h
  · rwa [h]
  · rw [h]
    rfl

theorem TakesModifier.of_endsLeaf {s : Scan} (hs : endsLeaf s.lastKind = true)
    (hrange : s.range = none) (hfilter : s.inFilter = true → s.inSubquery = true) :
    s.TakesModifier := by
  refine ⟨⟨?_, ?_, ?_⟩, hrange, hfilter⟩
  · exact ne_of_endsLeaf hs rfl
  · exact ne_of_endsLeaf hs rfl
  · exact ne_of_endsLeaf hs rfl

/-- A leaf with its modifiers is scanned to its tokens. -/
theorem after_leafNode (quoted : Text → Bool) {s : Scan} (hs : s.Ready) (hrange : s.range = none)
    (hfilter : s.inFilter = true → s.inSubquery = true) {place : Place} {l : Leaf} {m : Modifiers}
    (hl : ScansAt place m l) (hm : FiniteAmounts m) {afterSpace : Bool} {rest : Text}
    (hplace : place afterSpace (m.trail ++ rest)) (hrest : Stops rest) :
    s.after afterSpace ((Node.leaf l m).render ++ rest) =
        (s.push ((Node.leaf l m).tokens quoted)).after false rest ∧
      endsLeaf (s.push ((Node.leaf l m).tokens quoted)).lastKind = true := by
  have hends : endsLeaf (s.push (m.leadTokens ++ l.tokens)).lastKind = true := by
    rw [push_append]
    exact endsLeaf_push_tokens _ l
  have hleaf := hl.after hs afterSpace hplace
  have htrail := after_trail (.of_endsLeaf hends hrange hfilter) hm hrest
  simp only [Node.render, Node.tokens, List.append_assoc, push_append] at hleaf htrail hends ⊢
  exact ⟨hleaf.trans htrail, endsLeaf_push_trailTokens hends m⟩

/-- The tokens so far that count. -/
def kept (s : Scan) : List Token :=
  s.tokens.reverse.filter isKept

theorem kept_push (s : Scan) (ts : List Token) : (s.push ts).kept = s.kept ++ ts.filter isKept := by
  simp [kept, push]

/-- All tokens of a tree count. -/
theorem filter_isKept_tokens (quoted : Text → Bool) (n : Node) :
    (n.tokens quoted).filter isKept = n.tokens quoted := by
  rw [List.filter_eq_self]
  intro t ht
  have hwrites := n.writesTree_of_mem quoted t ht
  cases hk : t.kind <;> simp_all [Kind.writesTree, isKept]

theorem Ready.of_kind {s : Scan} {k : Kind} (hs : s.lastKind = k)
    (hk : k ≠ .word ∧ ∀ sign, k ≠ .sign sign) : s.Ready :=
  ⟨hs ▸ hk.1, hs ▸ hk.2⟩

theorem ready_push_whitespace (s : Scan) : (s.push [.mark .whitespace]).Ready :=
  ⟨by simp, by simp⟩

theorem stops_bracketAfter (m : Modifiers) (ns : List Node) : Stops (Node.bracketAfter m ns) := by
  unfold Node.bracketAfter
  split
  · exact stops_cons rfl []
  · exact stops_nil

/-- The last leaf of a subquery stands before the bracket, or before its modifiers. -/
theorem before_end (m : Modifiers) (spaced : Bool) {rest : Text} (hrest : EndsNode rest) :
    before (Node.bracketAfter m []) spaced spaced (m.trail ++ ')' :: rest) := by
  rcases trail_cases m with ⟨htrail, -⟩ | ⟨modifier, text, htrail⟩
  · have hnext : Node.bracketAfter m [] = [')'] := by simp [Node.bracketAfter, htrail]
    rw [hnext, htrail]
    exact ⟨rfl, rest, rfl, hrest⟩
  · have hnext : Node.bracketAfter m [] = [] := by simp [Node.bracketAfter, htrail]
    have hends : EndsNode (m.trail ++ ')' :: rest) := by
      intro c hc
      obtain rfl : modifierMark modifier = c := by simpa [htrail] using hc
      cases modifier
      · exact .inr (.inl rfl)
      · exact .inr (.inr rfl)
    rw [hnext]
    exact hends.before spaced

/-- Every other leaf stands before a space, or before its modifiers. -/
theorem before_next (m : Modifiers) (spaced : Bool) (n : Node) (ns : List Node) (rest : Text) :
    before (Node.bracketAfter m (n :: ns)) spaced spaced (m.trail ++ ' ' :: rest) :=
  (endsNode_trail m (endsNode_space rest)).before spaced

/-- The nodes of a subquery that are scanned to their tokens in it: leaves, with spaces between
them. -/
def BodyScans (spaced : Bool) : List Node → Prop
  | [] => True
  | .leaf l m :: ns => ScansAt (before (Node.bracketAfter m ns) spaced) m l ∧ BodyScans true ns
  | _ :: _ => False

theorem bodyScans_of_isPlainLeaf {ns : List Node} (h : ∀ n ∈ ns, n.isPlainLeaf = true)
    (spaced : Bool) : BodyScans spaced ns := by
  induction ns generalizing spaced with
  | nil => exact trivial
  | cons n ns ih =>
    have hn := h n (by simp)
    have hns := ih (fun k hk => h k (List.mem_cons_of_mem n hk)) true
    cases n with
    | leaf l m =>
      simp only [Node.isPlainLeaf, Bool.and_eq_true, Bool.or_eq_true] at hn
      exact ⟨(scansAt_of_isPlain hn.1 hn.2).before (stops_bracketAfter m ns) spaced, hns⟩
    | range i m => simp [Node.isPlainLeaf] at hn
    | filter field comparison value m => simp [Node.isPlainLeaf] at hn
    | subquery nodes m => simp [Node.isPlainLeaf] at hn

/-- The first node of a subquery is a leaf. -/
theorem BodyScans.exists_leaf {spaced : Bool} {n : Node} {ns : List Node}
    (h : BodyScans spaced (n :: ns)) :
    ∃ l m, n = .leaf l m ∧ ScansAt (before (Node.bracketAfter m ns) spaced) m l ∧
      BodyScans true ns := by
  cases n with
  | leaf l m => exact ⟨l, m, rfl, h⟩
  | range i m => exact h.elim
  | filter field comparison value m => exact h.elim
  | subquery nodes m => exact h.elim

/-- Leaves in a subquery, with spaces between them, are scanned to their tokens. -/
theorem after_leafNodes (quoted : Text → Bool) {s : Scan} (hs : s.Ready) (hrange : s.range = none)
    (hsubquery : s.inSubquery = true) (spaced : Bool) {ns : List Node} (hne : ns ≠ [])
    (hns : BodyScans spaced ns) (hfinite : ∀ n ∈ ns, FiniteAmounts n.modifiers) {rest : Text}
    (hrest : EndsNode rest) :
    ∃ ts, s.after spaced (Node.renderList ns ++ ')' :: rest) =
        (s.push ts).after false (')' :: rest) ∧
      ts.filter isKept = Node.tokensList quoted ns ∧ endsLeaf (s.push ts).lastKind = true := by
  -- the spaces between the leaves are tokens of their own, which do not count
  induction ns generalizing s spaced with
  | nil => exact absurd rfl hne
  | cons n ns ih =>
    obtain ⟨l, m, rfl, hl, htail⟩ := hns.exists_leaf
    have hm : FiniteAmounts m := hfinite (.leaf l m) (by simp)
    cases ns with
    | nil =>
      obtain ⟨hafter, hends⟩ := after_leafNode quoted hs hrange (fun _ => hsubquery) hl hm
        (before_end m spaced hrest) (stops_cons rfl rest)
      exact ⟨(Node.leaf l m).tokens quoted, by rw [Node.renderList_singleton, hafter],
        by simp [filter_isKept_tokens, Node.tokensList], hends⟩
    | cons k ns =>
      obtain ⟨hafter, hends⟩ := after_leafNode quoted hs hrange (fun _ => hsubquery) hl hm
        (before_next m spaced k ns (Node.renderList (k :: ns) ++ ')' :: rest)) (stops_cons rfl _)
      have hspace : (s.push ((Node.leaf l m).tokens quoted)).lastKind ≠ .whitespace :=
        ne_of_endsLeaf hends rfl
      obtain ⟨ts, hrestafter, hkept, hlast⟩ :=
        ih (ready_push_whitespace (s.push ((Node.leaf l m).tokens quoted))) hrange hsubquery true
          (by simp) htail fun n hn => hfinite n (List.mem_cons_of_mem _ hn)
      refine ⟨(Node.leaf l m).tokens quoted ++ [.mark .whitespace] ++ ts, ?_, ?_, ?_⟩
      · rw [Node.renderList_cons_cons, List.append_assoc, List.cons_append, hafter,
          after_space_of_open hspace (.inl hsubquery), hrestafter, push_append, push_append]
      · rw [List.filter_append, List.filter_append, filter_isKept_tokens, hkept,
          Node.tokensList_cons quoted (.leaf l m)]
        simp [isKept]
      · rwa [push_append, push_append]

/-- Where a node ends outside of filters and subqueries: the tokens so far, and a newest token that
may have modifiers. -/
structure Stands (s : Scan) (ts : List Token) : Prop where
  kept : s.kept = ts
  filter : s.inFilter = false
  subquery : s.inSubquery = false
  range : s.range = none
  last : s.lastKind ≠ .whitespace ∧ s.lastKind ≠ .boost ∧ s.lastKind ≠ .fuzzy

/-- The end of a subquery ends the filter it is the value of. -/
theorem after_subqueryEnd {s : Scan} (hsubquery : s.inSubquery = true) (hrange : s.range = none)
    {filtered : Bool} (hfilter : s.inFilter = filtered) (rest : Text) :
    ∃ s' : Scan, s.after false (')' :: rest) = s'.after false rest ∧
      s'.Stands (s.kept ++ .mark .subqueryEnd ::
        if filtered then [.mark .filterEnd] else []) := by
  have hopen : ¬ (¬ s.inSubquery = true ∨ s.range.isSome = true) := by simp [hsubquery, hrange]
  cases filtered with
  | false =>
    have hact : s.symbol .subqueryEnd = { s with inSubquery := false }.push [.mark .subqueryEnd] := by
      show s.closeSubquery = _
      rw [closeSubquery, if_neg hopen]
      exact if_neg (by simp [add, hfilter])
    refine ⟨_, after_mark (by decide) (.inl rfl) rfl hact (by simp) rest, ?_⟩
    exact ⟨by simp [kept, push, isKept], hfilter, rfl, hrange, by simp⟩
  | true =>
    have hact : s.symbol .subqueryEnd = { s with inSubquery := false, inFilter := false }.push
        [.mark .subqueryEnd, .mark .filterEnd] := by
      show s.closeSubquery = _
      rw [closeSubquery, if_neg hopen]
      simp only
      rw [if_pos (by simp [add, hfilter])]
      exact addOnce_eq_push (by simp [add, lastKind])
    refine ⟨_, after_mark (by decide) (.inl rfl) rfl hact (by simp [lastKind, push]) rest, ?_⟩
    exact ⟨by simp [kept, push, isKept], rfl, rfl, hrange, by simp [lastKind, push]⟩

/-- A subquery of leaves is scanned to its tokens. -/
theorem after_subquery (quoted : Text → Bool) {s : Scan} (hsubquery : s.inSubquery = false)
    (hrange : s.range = none) {filtered : Bool} (hfilter : s.inFilter = filtered)
    (afterSpace : Bool) {ns : List Node} (hne : ns ≠ []) (hns : BodyScans false ns)
    (hfinite : ∀ n ∈ ns, FiniteAmounts n.modifiers) {rest : Text} (hrest : EndsNode rest) :
    ∃ s' : Scan, s.after afterSpace ('(' :: (Node.renderList ns ++ ')' :: rest)) = s'.after false rest ∧
      s'.Stands (s.kept ++ .mark .subqueryStart :: (Node.tokensList quoted ns ++
        .mark .subqueryEnd :: if filtered then [.mark .filterEnd] else [])) := by
  have hact : s.symbol .subqueryStart =
      { s with inSubquery := true }.push [.mark .subqueryStart] := by
    show s.openSubquery = _
    rw [openSubquery, if_neg (by simp [hsubquery, hrange])]
    rfl
  obtain ⟨ts, hafter, htokens, -⟩ := after_leafNodes quoted
    (s := { s with inSubquery := true }.push [.mark .subqueryStart]) (.of_kind rfl (by simp))
    hrange rfl false hne hns hfinite hrest
  have hkept : (({ s with inSubquery := true }.push [.mark .subqueryStart]).push ts).kept =
      s.kept ++ .mark .subqueryStart :: Node.tokensList quoted ns := by
    rw [kept_push, kept_push, htokens, List.append_assoc]
    rfl
  obtain ⟨s', hend, hstands⟩ := after_subqueryEnd
    (s := ({ s with inSubquery := true }.push [.mark .subqueryStart]).push ts) rfl hrange hfilter rest
  rw [hkept, List.append_assoc, List.cons_append] at hstands
  refine ⟨s', ?_, hstands⟩
  rw [after_mark (by decide) (.inr (by decide)) rfl hact (by simp), hafter, hend]

/-! ## Ranges -/

theorem mem_bounds {α : Type} (r : Range α) :
    (∀ a ∈ r.lower, a ∈ r.bounds) ∧ ∀ a ∈ r.upper, a ∈ r.bounds := by
  refine ⟨fun a ha => ?_, fun a ha => ?_⟩ <;> simp [Range.bounds, Option.mem_def.mp ha]

/-- A range whose bounds are written as leaves that are scanned to their tokens. -/
def BoundsScan {α : Type} (bound : α → Text) (token : α → Token) (r : Range α) : Prop :=
  ∀ a ∈ r.bounds, ∃ l : Leaf, ScansAt anywhere {} l ∧ bound a = l.render ∧ l.tokens = [token a]

/-- A bound between brackets is scanned to its token. -/
theorem after_bound {α : Type} {bound : α → Text} {token : α → Token} {r : Range α}
    (hleaf : BoundsScan bound token r)
    (side : Option α) (hside : ∀ a ∈ side, a ∈ r.bounds) {s : Scan} (hs : s.Ready)
    (hkind : s.lastKind ≠ .wildcard) (afterSpace : Bool) {rest : Text}
    (hrest : Stops rest) :
    s.after afterSpace ((side.map bound).getD ['*'] ++ rest) =
      (s.push [(side.map token).getD (.mark .wildcard)]).after false rest := by
  cases side with
  | some a =>
    obtain ⟨l, hl, hbound, htokens⟩ := hleaf a (hside a rfl)
    have hafter := hl.after hs afterSpace hrest
    simpa [hbound, htokens, Modifiers.lead] using hafter
  | none =>
    have hact : s.symbol .wildcard = s.push [.mark .wildcard] := addOnce_eq_push hkind
    exact after_tameSymbol (List.cons_ne_nil '*' []) (by simp; decide) hrest rfl rfl hact (by simp)

theorem endsLeaf_bound {α : Type} {bound : α → Text} {token : α → Token} {r : Range α}
    (hleaf : BoundsScan bound token r)
    (side : Option α) (hside : ∀ a ∈ side, a ∈ r.bounds) :
    endsLeaf ((side.map token).getD (.mark .wildcard)).kind = true := by
  cases side with
  | none => rfl
  | some a =>
    obtain ⟨l, -, -, htokens⟩ := hleaf a (hside a rfl)
    have hends := endsLeaf_push_tokens {} l
    rwa [htokens] at hends

theorem isKept_mark (k : Kind) : isKept (.mark k) = (k != .whitespace && k != .ignored) := rfl

theorem isKept_of_endsLeaf {t : Token} (h : endsLeaf t.kind = true) : isKept t = true := by
  cases hk : t.kind <;> simp_all [endsLeaf, Kind.isLeaf, isKept]

/-- The character of an opening bracket. -/
def openMark (exclusive : Bool) : Char :=
  if exclusive then '{' else '['

/-- The character of a closing bracket. -/
def closeMark (exclusive : Bool) : Char :=
  if exclusive then '}' else ']'

theorem range_render_append {α : Type} (bound : α → Text) (r : Range α) (rest : Text) :
    r.render bound ++ rest = openMark r.exclusive :: ((r.lower.map bound).getD ['*'] ++
      (" TO ".toList ++ ((r.upper.map bound).getD ['*'] ++ closeMark r.exclusive :: rest))) := by
  simp [Range.render, openMark, closeMark]

theorem after_rangeStart {α : Type} {s : Scan} (hfilter : s.inFilter = true)
    (hrange : s.range = none) (hs : ∀ b, s.lastKind ≠ .rangeStart b) (r : Range α) (rest : Text) :
    s.after false (openMark r.exclusive :: rest) =
      ({ s with range := some r.bracket }.push [.mark (.rangeStart r.bracket)]).after false rest := by
  have hact : s.symbol (.rangeStart r.bracket) =
      { s with range := some r.bracket }.push [.mark (.rangeStart r.bracket)] := by
    show s.openRange r.bracket = _
    rw [openRange, if_pos ⟨hfilter, hrange⟩]
    exact addOnce_eq_push (hs r.bracket)
  have hstructural : isStructural (openMark r.exclusive) = true := by
    cases r.exclusive <;> decide
  have hchar : Symbol.ofChar? (openMark r.exclusive) = some (.rangeStart r.bracket) := by
    unfold Range.bracket
    cases r.exclusive <;> rfl
  exact after_mark hstructural (.inl rfl) hchar hact (by simp) rest

theorem after_rangeEnd {s : Scan} {b : Bracket} (hrange : s.range = some b)
    (hs : s.lastKind ≠ .rangeEnd b) (exclusive : Bool) (rest : Text) :
    s.after false (closeMark exclusive :: rest) =
      ({ s with range := none, inFilter := false }.push
        [.mark (.rangeEnd b), .mark .filterEnd]).after false rest := by
  have hact : s.symbol .rangeEnd =
      { s with range := none, inFilter := false }.push [.mark (.rangeEnd b), .mark .filterEnd] := by
    show s.closeRange = _
    rw [closeRange, hrange]
    simp only [addOnce_eq_push hs, closeFilter]
    exact addOnce_eq_push (by simp [lastKind, push])
  have hstructural : isStructural (closeMark exclusive) = true := by cases exclusive <;> decide
  have hchar : Symbol.ofChar? (closeMark exclusive) = some .rangeEnd := by cases exclusive <;> rfl
  exact after_mark hstructural (.inl rfl) hchar hact (by simp [lastKind, push]) rest

/-- Between the bounds of a range stand a keyword and two spaces. -/
theorem after_upTo {s : Scan} (hrange : s.range.isSome = true) (hs : s.lastKind ≠ .whitespace)
    (rest : Text) :
    s.after false (" TO ".toList ++ rest) =
      (s.push [.mark .whitespace, .mark .upTo, .mark .whitespace]).after true rest := by
  have hact : (s.push [.mark .whitespace]).symbol .upTo =
      s.push [.mark .whitespace, .mark .upTo] := by
    show (if (s.push [.mark .whitespace]).range.isSome = true then _ else _) = _
    rw [range_push, if_pos hrange, addOnce_eq_push (by simp), ← push_append]
    rfl
  -- the space before the keyword, the keyword, and the space after it
  have hkind : (s.push [.mark .whitespace, .mark .upTo]).lastKind = .upTo := rfl
  have hnumber : number? ['T', 'O'] = none := number?_lead {} ['O'] (by decide)
  have hto : (s.push [.mark .whitespace]).after true (['T', 'O'] ++ ' ' :: rest) =
      (s.push [.mark .whitespace, .mark .upTo]).after false (' ' :: rest) :=
    after_tameSymbol (by simp) (by simp; decide) (stops_cons rfl rest) hnumber (by decide) hact
      (by simp [hkind])
  show s.after false (' ' :: (['T', 'O'] ++ ' ' :: rest)) = _
  rw [after_space_of_open hs (.inr hrange), hto,
    after_space_of_open (s := s.push [.mark .whitespace, .mark .upTo]) (by simp [hkind]) (.inr hrange),
    ← push_append]
  rfl

/-- The bounds of an open range are scanned to their tokens. -/
theorem after_bounds {α : Type} {bound : α → Text} {token : α → Token} {r : Range α}
    (hleaf : BoundsScan bound token r)
    {s : Scan} (hs : s.lastKind = .rangeStart r.bracket) (hrange : s.range.isSome = true)
    {rest : Text} (hrest : Stops rest) :
    s.after false ((r.lower.map bound).getD ['*'] ++
        (" TO ".toList ++ ((r.upper.map bound).getD ['*'] ++ rest))) =
      (s.push [(r.lower.map token).getD (.mark .wildcard), .mark .whitespace, .mark .upTo,
        .mark .whitespace, (r.upper.map token).getD (.mark .wildcard)]).after false rest := by
  have hlowerEnds := endsLeaf_bound hleaf r.lower (mem_bounds r).1
  have hstart : s.Ready := .of_kind hs (by simp)
  have hstop : Stops (" TO ".toList ++ ((r.upper.map bound).getD ['*'] ++ rest)) := stops_cons rfl _
  rw [after_bound hleaf r.lower (mem_bounds r).1 hstart (by simp [hs]) false hstop]
  generalize (r.lower.map token).getD (.mark .wildcard) = lower at hlowerEnds
  have hkind : (s.push [lower]).lastKind ≠ .whitespace := ne_of_endsLeaf hlowerEnds rfl
  rw [after_upTo (s := s.push [lower]) hrange hkind]
  have hspace : ((s.push [lower]).push [.mark .whitespace, .mark .upTo, .mark .whitespace]).lastKind =
      .whitespace := rfl
  rw [after_bound hleaf r.upper (mem_bounds r).2 (.of_kind hspace (by simp)) (by simp [hspace]) true
    hrest, ← push_append, ← push_append]
  rfl

/-- A range in a filter is scanned to its tokens, and the filter ends with it. -/
theorem after_range {α : Type} {bound : α → Text} {token : α → Token} {r : Range α}
    (hleaf : BoundsScan bound token r)
    {s : Scan} (hfilter : s.inFilter = true) (hsubquery : s.inSubquery = false)
    (hrange : s.range = none) (hs : ∀ b, s.lastKind ≠ .rangeStart b) (rest : Text) :
    ∃ s' : Scan, s.after false (r.render bound ++ rest) = s'.after false rest ∧
      s'.Stands (s.kept ++ r.tokens token ++ [.mark .filterEnd]) := by
  have hclose : Stops (closeMark r.exclusive :: rest) := by
    refine stops_cons ?_ rest
    cases r.exclusive <;> rfl
  have hlower := isKept_of_endsLeaf (endsLeaf_bound hleaf r.lower (mem_bounds r).1)
  have hupperEnds := endsLeaf_bound hleaf r.upper (mem_bounds r).2
  have hupper := isKept_of_endsLeaf hupperEnds
  rw [range_render_append, after_rangeStart hfilter hrange hs, after_bounds hleaf rfl rfl hclose,
    after_rangeEnd rfl ?_]
  · refine ⟨_, rfl, ?_, rfl, hsubquery, rfl, by simp [lastKind, push]⟩
    simp [kept, push, Range.tokens, List.filter_cons, hlower, hupper, isKept_mark]
  · show ((r.upper.map token).getD (.mark .wildcard)).kind ≠ _
    exact ne_of_endsLeaf hupperEnds rfl

/-- Whether a bound of a word range is written between quotes. -/
def isQuotedBound (s : Text) : Bool :=
  !(isBareBound s || s.contains '"')

theorem isBareBound_of_isPlainWord {s : Text} (h : Text.isPlainWord s = true) :
    isBareBound s = true := by
  obtain ⟨hne, halpha, hkeyword⟩ := of_isPlainWord h
  have hname : ∀ c ∈ s, isNameChar c = true := fun c hc => isNameChar_of_isAlpha (halpha c hc)
  have halphanumeric : ∀ c ∈ s, Text.isAlphanumeric c = true := fun c hc =>
    Text.isAlphanumeric_of_isAlphanum (by simp [Char.isAlphanum, halpha c hc])
  have hdots : Text.splitAtDots s = none := splitAtDots_eq_none fun c hc =>
    (startsNoNumber_of_isAlpha (halpha c hc)).2.1
  have hbreaks : s.any breaksBound = false := by
    rw [List.any_eq_false]
    intro c hc
    have hbare := of_isNameChar (p := fun c => !breaksBound c) (by decide) (hname c hc)
    simpa using hbare
  have hdate : isDate s = false := by
    refine isDate_eq_false fun hmem => ?_
    simpa using halpha '-' hmem
  have hliteral : Decimal.isLiteral s = false := by
    obtain ⟨c, cs, rfl⟩ := List.exists_cons_of_ne_nil hne
    obtain ⟨hdigit, hpoint, hsigns⟩ := startsNoNumber_of_isAlpha (halpha c (by simp))
    have hread : Decimal.read? (c :: cs) = none :=
      read?_lead {} hsigns (readUnsigned?_eq_none cs ⟨hdigit, hpoint⟩)
    simp [Decimal.isLiteral, hread]
  obtain ⟨first, hfirst⟩ : ∃ c, s.head? = some c := by
    cases s with
    | nil => exact absurd rfl hne
    | cons c cs => exact ⟨c, rfl⟩
  obtain ⟨last, hlast⟩ : ∃ c, s.getLast? = some c := by
    cases hl : s.getLast? with
    | none => exact absurd (List.getLast?_eq_none_iff.mp hl) hne
    | some c => exact ⟨c, rfl⟩
  simp [isBareBound, hfirst, hlast, halphanumeric first (List.mem_of_mem_head? hfirst),
    halphanumeric last (List.mem_of_getLast? hlast), hdots, hbreaks, hkeyword, hliteral, hdate]

/-- The leaf that a bound of a word range is written as. -/
theorem exists_leaf_of_isPlainBound {s : Text} (h : Text.isPlainBound s = true) :
    ∃ l : Leaf, l.isPlain = true ∧ renderWordBound s = l.render ∧
      l.tokens = [.ofWordBound isQuotedBound s] := by
  simp only [Text.isPlainBound, Bool.or_eq_true, Bool.and_eq_true] at h
  rcases h with h | ⟨h, hspace⟩
  · have hbare := isBareBound_of_isPlainWord h
    refine ⟨.word s false, h, ?_, ?_⟩
    · simp [renderWordBound, hbare, Leaf.render]
    · simp [Leaf.tokens, Token.ofWordBound, isQuotedBound, hbare]
  · have hquote : '"' ∉ s := fun hmem => (of_isPlainPhrase h).2.1 '"' hmem rfl
    have hbare : isBareBound s = false := by
      have hbreaks : s.any breaksBound = true :=
        List.any_eq_true.mpr ⟨' ', List.contains_iff_mem.mp hspace, by decide⟩
      unfold isBareBound
      split
      · simp [hbreaks]
      · rfl
    refine ⟨.text .phrase s, h, ?_, ?_⟩
    · simp [renderWordBound, hbare, hquote, Leaf.render]
    · simp [Leaf.tokens, Token.ofWordBound, isQuotedBound, hbare, hquote]

/-- A range of either type whose bounds are scanned to their tokens. -/
def IntervalScans : Interval → Prop
  | .words r => BoundsScan renderWordBound (.ofWordBound isQuotedBound) r
  | .numbers r => BoundsScan Number.display .ofNumber r
  | .dates r => BoundsScan id (.ofText (.text .date)) r

theorem intervalScans_of_isPlain {i : Interval} (hi : i.isPlain = true) : IntervalScans i := by
  cases i with
  | words r =>
    intro a ha
    obtain ⟨l, hl, hbound⟩ := exists_leaf_of_isPlainBound (List.all_eq_true.mp hi a ha)
    exact ⟨l, scansAt_of_isPlain hl (.inr rfl), hbound⟩
  | numbers r =>
    intro a ha
    have hl : (Leaf.number a).isPlain = true := List.all_eq_true.mp hi a ha
    exact ⟨.number a, scansAt_of_isPlain hl (.inr rfl), rfl, rfl⟩
  | dates r =>
    intro a ha
    have hl : (Leaf.text .date a).isPlain = true := List.all_eq_true.mp hi a ha
    exact ⟨.text .date a, scansAt_of_isPlain hl (.inr rfl), rfl, rfl⟩

/-- A range in a filter is scanned to its tokens, whatever its type. -/
theorem after_interval {i : Interval} (hi : IntervalScans i) {s : Scan} (hfilter : s.inFilter = true)
    (hsubquery : s.inSubquery = false) (hrange : s.range = none)
    (hs : ∀ b, s.lastKind ≠ .rangeStart b) (rest : Text) :
    ∃ s' : Scan, s.after false (i.render ++ rest) = s'.after false rest ∧
      s'.Stands (s.kept ++ i.tokens isQuotedBound ++ [.mark .filterEnd]) := by
  cases i with
  | words r => exact after_range hi hfilter hsubquery hrange hs rest
  | numbers r => exact after_range hi hfilter hsubquery hrange hs rest
  | dates r => exact after_range hi hfilter hsubquery hrange hs rest

/-! ## Filters -/

/-- What may stand before the value of a filter. -/
def startsValue (k : Kind) : Bool :=
  k == .filterStart || k == .greater || k == .less || k == .equals

theorem of_startsValue {s : Scan} (hs : startsValue s.lastKind = true) :
    s.Ready ∧ ∀ b, s.lastKind ≠ .rangeStart b := by
  refine ⟨⟨?_, ?_⟩, ?_⟩
  · intro h
    simp [h, startsValue] at hs
  · intro sign h
    simp [h, startsValue] at hs
  · intro b h
    simp [h, startsValue] at hs

/-- A comparison after a field is scanned to its tokens. -/
theorem after_comparison {s : Scan} (hfilter : s.inFilter = true) (hs : s.lastKind = .filterStart)
    (comparison : Option Comparison) (rest : Text) :
    s.after false ((comparison.map Comparison.mark).getD [] ++ rest) =
        (s.push ((comparison.map Comparison.tokens).getD [])).after false rest ∧
      startsValue (s.push ((comparison.map Comparison.tokens).getD [])).lastKind = true := by
  have hgreater : s.symbol .greater = s.push [.mark .greater] := by
    show (if s.inFilter then _ else _) = _
    rw [if_pos hfilter, addOnce_eq_push (by simp [hs])]
  have hless : s.symbol .less = s.push [.mark .less] := by
    show (if s.inFilter then _ else _) = _
    rw [if_pos hfilter, addOnce_eq_push (by simp [hs])]
  have hequals {s : Scan} (hs : s.lastKind = .greater ∨ s.lastKind = .less) :
      s.symbol .equals = s.push [.mark .equals] := by
    show (if _ then _ else _) = _
    rw [if_pos hs, addOnce_eq_push (by rcases hs with h | h <;> simp [h])]
  have hgt (rest : Text) : s.after false ('>' :: rest) = (s.push [.mark .greater]).after false rest :=
    after_mark (by decide) (.inl rfl) rfl hgreater (by simp) rest
  have hlt (rest : Text) : s.after false ('<' :: rest) = (s.push [.mark .less]).after false rest :=
    after_mark (by decide) (.inl rfl) rfl hless (by simp) rest
  cases comparison with
  | none => exact ⟨rfl, by simp [startsValue, hs]⟩
  | some c =>
    cases c with
    | eq => exact ⟨rfl, by simp [startsValue, hs, Comparison.tokens]⟩
    | gt => exact ⟨hgt rest, rfl⟩
    | lt => exact ⟨hlt rest, rfl⟩
    | gte =>
      refine ⟨(hgt ('=' :: rest)).trans ?_, rfl⟩
      exact after_mark (by decide) (.inl rfl) rfl (hequals (.inl rfl)) (by simp) rest
    | lte =>
      refine ⟨(hlt ('=' :: rest)).trans ?_, rfl⟩
      exact after_mark (by decide) (.inl rfl) rfl (hequals (.inr rfl)) (by simp) rest

/-- Where a node ends outside of subqueries: the tokens so far once an open filter is closed. -/
structure Ended (s : Scan) (ts : List Token) : Prop where
  close : s.close.kept = ts
  subquery : s.inSubquery = false
  range : s.range = none
  ne_filterEnd : s.inFilter = true → s.lastKind ≠ .filterEnd

theorem close_of_not_open {s : Scan} (hfilter : s.inFilter = false)
    (hsubquery : s.inSubquery = false) : s.close = s := by
  simp [Scan.close, hfilter, hsubquery]

theorem kept_close_push {s : Scan} (hfilter : s.inFilter = false) (hsubquery : s.inSubquery = false)
    (ts : List Token) : (s.push ts).close.kept = s.kept ++ ts.filter isKept := by
  have hclose : (s.push ts).close = s.push ts := close_of_not_open hfilter hsubquery
  rw [hclose, kept_push]

theorem closeFilter_eq_push {s : Scan} (hs : s.lastKind ≠ .filterEnd) :
    s.closeFilter = { s with inFilter := false }.push [.mark .filterEnd] :=
  addOnce_eq_push hs

theorem filter_isKept_leadTokens (m : Modifiers) : m.leadTokens.filter isKept = m.leadTokens := by
  obtain ⟨sign, boost, fuzzy⟩ := m
  cases sign <;> rfl

theorem filter_isKept_trailTokens (m : Modifiers) : m.trailTokens.filter isKept = m.trailTokens := by
  obtain ⟨sign, boost, fuzzy⟩ := m
  cases boost <;> cases fuzzy <;> rfl

/-- The modifiers after a node that stands alone end it. -/
theorem Stands.after_trail {s : Scan} {ts : List Token} (hs : s.Stands ts) {m : Modifiers}
    (hm : FiniteAmounts m) {rest : Text} (hrest : Stops rest) :
    ∃ s' : Scan, s.after false (m.trail ++ rest) = s'.after false rest ∧
      s'.Ended (ts ++ m.trailTokens) := by
  obtain ⟨hkept, hfilter, hsubquery, hrange, hlast⟩ := hs
  refine ⟨s.push m.trailTokens,
    Scan.after_trail ⟨hlast, hrange, by simp [hfilter]⟩ hm hrest, ?_, hsubquery, hrange,
    by simp [hfilter]⟩
  rw [kept_close_push hfilter hsubquery, hkept, filter_isKept_trailTokens]

/-- A modifier ends the filter whose value it follows. -/
theorem after_modifierMark_of_open {s : Scan} (hfilter : s.inFilter = true)
    (hsubquery : s.inSubquery = false) (hrange : s.range = none)
    (hends : endsLeaf s.lastKind = true) (modifier : Modifier) (rest : Text) :
    s.after false (modifierMark modifier :: rest) =
      s.closeFilter.after false (modifierMark modifier :: rest) := by
  have hspace : s.lastKind ≠ .whitespace := ne_of_endsLeaf hends rfl
  have hkind := lastKind_closeFilter s
  have hne : s.closeFilter.lastKind ≠ modifier.kind := by
    rw [hkind]
    cases modifier <;> simp [Modifier.kind]
  have hopen : s.addModifier modifier = s.closeFilter.push [.mark modifier.kind] := by
    rw [addModifier, if_neg (by simp [hspace, hrange]), if_pos ⟨hfilter, by simp [hsubquery]⟩,
      addOnce_eq_push hne]
  have hclosed : s.closeFilter.addModifier modifier = s.closeFilter.push [.mark modifier.kind] :=
    addModifier_eq_push ⟨by simp [hkind], by simp [hrange], by simp⟩ modifier
  have hlast : (s.closeFilter.push [.mark modifier.kind]).lastKind ≠ .whitespace := by
    cases modifier <;> simp [Modifier.kind]
  rw [after_modifierMark hopen hlast, after_modifierMark hclosed hlast]

/-- The modifiers after the value of an open filter end the filter. -/
theorem after_trail_of_open {s : Scan} {ts : List Token} (hkept : s.kept = ts)
    (hfilter : s.inFilter = true) (hsubquery : s.inSubquery = false) (hrange : s.range = none)
    (hends : endsLeaf s.lastKind = true) {m : Modifiers} (hm : FiniteAmounts m) {rest : Text}
    (hrest : Stops rest) :
    ∃ s' : Scan, s.after false (m.trail ++ rest) = s'.after false rest ∧
      s'.Ended (ts ++ .mark .filterEnd :: m.trailTokens) := by
  have hend : s.lastKind ≠ .filterEnd := ne_of_endsLeaf hends rfl
  have hclose := closeFilter_eq_push hend
  have hstands : s.closeFilter.Stands (ts ++ [.mark .filterEnd]) := by
    rw [hclose]
    exact ⟨by rw [kept_push, ← hkept]; rfl, rfl, hsubquery, hrange, by simp⟩
  rcases trail_cases m with ⟨htrail, htokens⟩ | ⟨modifier, text, htrail⟩
  · -- the filter stays open, and its end is the one that closing the scan would add
    rw [htrail, htokens]
    have hfinish : s.close = s.closeFilter := by simp [Scan.close, hsubquery, hfilter]
    exact ⟨s, rfl, by rw [hfinish, hstands.kept], hsubquery, hrange, fun _ => hend⟩
  · -- a modifier closes the filter, so it may as well be closed before
    obtain ⟨s', hafter, hended⟩ := hstands.after_trail hm hrest
    refine ⟨s', ?_, by simpa using hended⟩
    rw [htrail, List.cons_append] at hafter ⊢
    rw [after_modifierMark_of_open hfilter hsubquery hrange hends, hafter]

end SearchLang.Scan
