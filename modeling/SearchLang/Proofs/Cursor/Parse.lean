import SearchLang.Proofs.Parse.Trace
import SearchLang.Query.Cursor

/-!
# What a parser with a cursor reads

A cursor that stands before some tokens reads what the readers of token lists read
off them, and then stands before what those leave (`Agrees`). Whatever has happened
to a cursor, parsing starts it over, so the nodes are those of its tokens
(`parse_eq`).
-/

namespace SearchLang.Cursor

open Query

variable {c : Cursor} {ts : List Token}

/-- The cursor stands before some tokens and has peeked at none of them. -/
structure Fresh (c : Cursor) (ts : List Token) : Prop where
  before : c.Before ts
  peeked : c.peeked = 0

/-- A reader with a cursor and one of a list make the same of their tokens, and leave the same. -/
def Agrees {α : Type} (p : α × Cursor) (q : α × List Token) : Prop :=
  p.1 = q.1 ∧ Fresh p.2 q.2

/-- A reader that reads nothing leaves the tokens as they are. -/
def orLeave {α : Type} (ts : List Token) : Option (α × List Token) → Option α × List Token
  | none => (none, ts)
  | some (a, rest) => (some a, rest)

theorem Agrees.of_none {α : Type} {p : Option α × Cursor} {read : Option (α × List Token)}
    (h : Agrees p (orLeave ts read)) (hnone : p.1 = none) : read = none ∧ Fresh p.2 ts := by
  cases read with
  | none => exact ⟨rfl, h.2⟩
  | some r => cases hnone.symm.trans h.1

theorem Agrees.of_some {α : Type} {p : Option α × Cursor} {read : Option (α × List Token)} {a : α}
    (h : Agrees p (orLeave ts read)) (hsome : p.1 = some a) :
    ∃ rest, read = some (a, rest) ∧ Fresh p.2 rest := by
  cases read with
  | none => cases hsome.symm.trans h.1
  | some r =>
    obtain ⟨a', rest⟩ := r
    cases hsome.symm.trans h.1
    exact ⟨rest, rfl, h.2⟩

/-! ## Single tokens -/

theorem peeked_moveNext (c : Cursor) : c.moveNext.peeked = 0 := by
  unfold moveNext
  split <;> rfl

theorem Fresh.moveNext (h : Fresh c ts) : Fresh c.moveNext ts.tail :=
  ⟨h.before.moveNext, peeked_moveNext c⟩

theorem fresh_reset_moveNext (c : Cursor) : Fresh c.reset.moveNext c.tokens :=
  ⟨before_reset_moveNext c, peeked_moveNext c.reset⟩

theorem Fresh.eq_nil (h : Fresh c ts) (hnext : c.lookahead = none) : ts = [] := by
  rw [h.before.lookahead] at hnext
  exact List.head?_eq_none_iff.mp hnext

theorem Fresh.exists_cons {t : Token} (h : Fresh c ts) (hnext : c.lookahead = some t) :
    ∃ rest, ts = t :: rest := by
  rw [h.before.lookahead] at hnext
  exact List.head?_eq_some_iff.mp hnext

theorem Fresh.bump {t : Token} (h : Fresh c (t :: ts)) : Agrees c.bump (some t, ts) := by
  have hnext : c.lookahead = some t := h.before.lookahead
  rw [bump_of_some hnext]
  exact ⟨rfl, h.moveNext⟩

theorem Fresh.bump_nil (h : Fresh c []) : c.bump = (none, c) :=
  bump_of_none h.before.lookahead

theorem Fresh.isNext (h : Fresh c ts) (k : Kind) :
    c.isNext k = ts.head?.any fun t => t.kind == k := by
  rw [Cursor.isNext, h.before.lookahead]

theorem Fresh.skipNext_cons {t : Token} (h : Fresh c (t :: ts)) (k : Kind) :
    Fresh (c.skipNext k) (if t.kind = k then ts else t :: ts) := by
  unfold skipNext
  rw [h.isNext]
  by_cases hk : t.kind = k
  · simpa [hk] using h.bump.2
  · simpa [hk] using h

theorem Fresh.skipNext_nil (h : Fresh c []) (k : Kind) : Fresh (c.skipNext k) [] := by
  unfold skipNext
  rw [h.isNext]
  exact h

theorem Fresh.takeEquals (h : Fresh c ts) :
    Agrees (c.isNext .equals, c.skipNext .equals) (takeEquals ts) := by
  refine ⟨?_, ?_⟩
  · show c.isNext .equals = _
    rw [h.isNext]
    cases ts with
    | nil => rfl
    | cons t ts => by_cases hk : t.kind = .equals <;> simp [Query.takeEquals, hk]
  · cases ts with
    | nil => exact h.skipNext_nil .equals
    | cons t ts =>
      have hskip := h.skipNext_cons .equals
      by_cases hk : t.kind = .equals <;> simpa [Query.takeEquals, hk] using hskip

theorem Fresh.dropFilterEnd (h : Fresh c ts) :
    Fresh (c.skipNext .filterEnd) (dropFilterEnd ts) := by
  cases ts with
  | nil => exact h.skipNext_nil .filterEnd
  | cons t ts => exact h.skipNext_cons .filterEnd

theorem Fresh.skipNumber (h : Fresh c ts) :
    Fresh (c.skipNext .number) (Query.takeNumber ts).2 := by
  cases ts with
  | nil => exact h.skipNext_nil .number
  | cons t ts =>
    have hskip := h.skipNext_cons .number
    by_cases hk : t.kind = .number <;> simpa [Query.takeNumber, hk] using hskip

theorem Fresh.takeNumber (h : Fresh c ts) : Agrees c.takeNumber (Query.takeNumber ts) := by
  unfold Cursor.takeNumber
  rw [h.isNext]
  cases ts with
  | nil => exact ⟨rfl, h⟩
  | cons t ts =>
    obtain ⟨hfirst, hrest⟩ := h.bump
    by_cases hk : t.kind = .number
    · simpa [Query.takeNumber, hk, hfirst] using ⟨rfl, hrest⟩
    · simpa [Query.takeNumber, hk] using ⟨rfl, h⟩

theorem Fresh.readLeaf? (h : Fresh c ts) (t : Token) :
    Agrees (c.readLeaf? t) (orLeave ts (Query.readLeaf? t ts)) := by
  unfold Cursor.readLeaf? Query.readLeaf?
  cases t.kind with
  | word =>
    cases t.text? with
    | none => exact ⟨rfl, h⟩
    | some value =>
      have hnext := h.isNext .wildcard
      cases ts with
      | nil => exact ⟨by simp [hnext, orLeave], h.skipNext_nil .wildcard⟩
      | cons u us =>
        have hskip := h.skipNext_cons .wildcard
        by_cases hk : u.kind = .wildcard
        · simpa [Agrees, orLeave, hnext, hk] using hskip
        · simpa [Agrees, orLeave, hnext, hk] using hskip
  | number => cases t.number? <;> exact ⟨rfl, h⟩
  | text form => cases t.text? <;> exact ⟨rfl, h⟩
  | _ => exact ⟨rfl, h⟩

/-! ## Ranges -/

theorem resetPeek_peek (c : Cursor) : c.peek.2.resetPeek = c.resetPeek := by
  unfold peek
  split <;> rfl

/-- A peek takes one token off those that it is made on. -/
theorem drop_peek {us : List Token} (hafter : c.tokens.drop (c.position + c.peeked) = us) :
    c.peek.2.tokens.drop (c.peek.2.position + c.peek.2.peeked) = us.tail := by
  subst hafter
  unfold peek
  cases h : c.tokens[c.position + c.peeked]? with
  | none =>
    have hend : c.tokens.drop (c.position + c.peeked) = [] :=
      List.drop_of_length_le (List.getElem?_eq_none_iff.mp h)
    simp only [hend, List.tail_nil]
  | some t =>
    rw [List.tail_drop]
    rfl

/-- Peeking from the first token of `us` on finds what a search of `us` finds, and changes nothing
but how many tokens have been peeked at. -/
theorem findRangeEnd_eq {us : List Token} {next : Option Token} (hnext : next = us.head?)
    (hafter : c.tokens.drop (c.position + c.peeked) = us.tail) :
    (findRangeEnd next c).1 = Query.hasRangeEnd us ∧
      (findRangeEnd next c).2.resetPeek = c.resetPeek := by
  subst hnext
  induction us generalizing c with
  | nil =>
    rw [List.head?_nil, findRangeEnd]
    exact ⟨rfl, rfl⟩
  | cons u us ih =>
    rw [List.head?_cons, findRangeEnd]
    have hpeek : c.peek.1 = us.head? := by
      rw [fst_peek, ← List.head?_drop, hafter, List.tail_cons]
    by_cases hend : u.kind.isRangeEnd = true
    · simp [hend, Query.hasRangeEnd]
    · by_cases hstop : endsSearch u = true
      · simp [hend, hstop, Query.hasRangeEnd]
      · have hrest : Query.hasRangeEnd (u :: us) = Query.hasRangeEnd us := by
          simp [Query.hasRangeEnd, hend, hstop]
        obtain ⟨hfound, hcursor⟩ := ih (drop_peek hafter)
        rw [if_neg hend, if_neg hstop, hpeek, hrest]
        exact ⟨hfound, hcursor.trans (resetPeek_peek c)⟩

theorem Fresh.hasRangeEnd (h : Fresh c ts) : c.hasRangeEnd = (Query.hasRangeEnd ts, c) := by
  have hafter : c.tokens.drop (c.position + c.peeked) = ts.tail := by
    rw [h.peeked]
    exact h.before.after
  obtain ⟨hfound, hcursor⟩ := findRangeEnd_eq h.before.lookahead hafter
  have hpeeked : c.resetPeek = c := by
    rw [resetPeek, ← h.peeked]
  rw [Cursor.hasRangeEnd, hfound, hcursor, hpeeked]

theorem Fresh.readBound (h : Fresh c ts) : Agrees c.readBound (Query.readBound ts) := by
  unfold Cursor.readBound
  rw [h.before.lookahead]
  cases ts with
  | nil => exact ⟨rfl, h⟩
  | cons t ts =>
    simp only [List.head?_cons, Query.readBound]
    have hbump : Fresh c.bump.2 ts := h.bump.2
    by_cases hwildcard : t.kind = .wildcard
    · rw [if_pos hwildcard, if_pos hwildcard]
      exact ⟨rfl, hbump⟩
    · rw [if_neg hwildcard, if_neg hwildcard]
      by_cases hleaf : t.kind.isLeaf = true
      · rw [if_pos hleaf, if_pos hleaf]
        have hread := hbump.readLeaf? t
        cases hlist : Query.readLeaf? t ts with
        | none => rwa [hlist] at hread
        | some r => rwa [hlist] at hread
      · rw [if_neg hleaf, if_neg hleaf]
        exact ⟨rfl, h⟩

theorem Fresh.skipWhile (h : Fresh c ts) (p : Token → Bool) :
    Fresh (c.skipWhile p) (ts.dropWhile p) := by
  refine ⟨h.before.skipWhile p, ?_⟩
  fun_induction Cursor.skipWhile p c generalizing ts with
  | case1 c t _ _ ih => exact ih h.moveNext
  | case2 => exact h.peeked
  | case3 => exact h.peeked

theorem Fresh.skipToUpper (h : Fresh c ts) : Fresh c.skipToUpper (Query.skipToUpper ts) := by
  have hskip := h.skipWhile fun t => t.kind != .upTo && !t.kind.isRangeEnd
  unfold Cursor.skipToUpper Query.skipToUpper
  cases hrest : ts.dropWhile fun t => t.kind != .upTo && !t.kind.isRangeEnd with
  | nil =>
    rw [hrest] at hskip
    exact hskip.skipNext_nil .upTo
  | cons t rest =>
    rw [hrest] at hskip
    exact hskip.skipNext_cons .upTo

theorem Fresh.skipRangeEnd (h : Fresh c ts) : Fresh c.skipRangeEnd (Query.skipRangeEnd ts) := by
  have hskip := h.skipWhile fun t => !t.kind.isRangeEnd
  unfold Cursor.skipRangeEnd Query.skipRangeEnd
  cases hrest : ts.dropWhile fun t => !t.kind.isRangeEnd with
  | nil =>
    rw [hrest] at hskip
    rw [hskip.bump_nil]
    exact hskip
  | cons t rest =>
    rw [hrest] at hskip
    exact hskip.bump.2

theorem Fresh.readRange? (h : Fresh c ts) (b : Bracket) :
    Agrees (c.readRange? b) (orLeave ts (Query.readRange? b ts)) := by
  unfold Cursor.readRange? Query.readRange?
  rw [h.hasRangeEnd]
  by_cases hend : Query.hasRangeEnd ts = true
  · obtain ⟨hlower, hrest⟩ := h.readBound
    obtain ⟨hupper, hrest'⟩ := hrest.skipToUpper.readBound
    simp only [hend, if_true]
    refine ⟨?_, hrest'.skipRangeEnd⟩
    rw [hlower, hupper]
    rfl
  · simp only [hend, Bool.false_eq_true, if_false]
    exact ⟨rfl, h⟩

/-! ## Modifiers -/

theorem Fresh.attachModifiers (h : Fresh c ts) (limits : Limits) (node : Node) :
    Agrees (attachModifiers limits node c) (Query.attachModifiers limits node ts) := by
  fun_induction Cursor.attachModifiers limits node c generalizing ts with
  | case1 node c hnext =>
    obtain rfl := h.eq_nil hnext
    rw [Query.attachModifiers]
    exact ⟨rfl, h⟩
  | case2 node c t hnext hk | case3 node c t hnext hk =>
    rename_i ih
    obtain ⟨rest, rfl⟩ := h.exists_cons hnext
    obtain ⟨hvalue, hrest⟩ := h.bump.2.takeNumber
    rw [Query.attachModifiers]
    simp only [hk]
    rw [← hvalue]
    exact ih hrest
  | case4 node c t hnext hboost hfuzzy =>
    obtain ⟨rest, rfl⟩ := h.exists_cons hnext
    rw [attachModifiers_of_ne limits node rest hboost hfuzzy]
    exact ⟨rfl, h⟩

theorem Fresh.attachToLast (h : Fresh c ts) (limits : Limits) (nodes : List Node) :
    Agrees (attachToLast limits nodes c) (Query.attachToLast limits nodes ts) := by
  induction nodes with
  | nil => exact ⟨rfl, h⟩
  | cons n ns ih =>
    cases ns with
    | nil =>
      obtain ⟨hnode, hrest⟩ := h.attachModifiers limits n
      exact ⟨congrArg (fun n => [n]) hnode, hrest⟩
    | cons m ms => exact ⟨congrArg (n :: ·) ih.1, ih.2⟩

/-- A reader with a cursor and one of a list make the same of their tokens, and leave the same. -/
structure Matches (p : Progress) (q : Query.Progress) : Prop where
  nodes : p.nodes = q.nodes
  sign : p.sign = q.sign
  rest : Fresh p.cursor q.rest

theorem Fresh.finish (h : Fresh c ts) (limits : Limits) (sign : Option Sign) (nodes : List Node) :
    Matches (finish limits sign nodes c) (Query.finish limits sign nodes ts) := by
  obtain ⟨hnodes, hrest⟩ := h.attachToLast limits (signFirst sign nodes)
  exact ⟨hnodes, rfl, hrest⟩

/-! ## Subqueries and filters -/

/-- A cursor reads the bodies of subqueries off its tokens as they are read alone. -/
inductive BodiesMatch : Option BodyReader → Option BodyParser → Prop
  | none : BodiesMatch none none
  | some {reader : BodyReader} {body : BodyParser}
    (h : ∀ {c ts}, Fresh c ts → Agrees (reader.read c) (body (subqueryBody ts), afterSubquery ts)) :
    BodiesMatch (some reader) (some body)

variable {reader? : Option BodyReader} {body? : Option BodyParser}

theorem Fresh.readSubquery {reader : BodyReader} {nodes : List Node} {rest : List Token}
    (hread : Agrees (reader.read c) (nodes, rest)) :
    Agrees (c.readSubquery reader) (subqueryNode? nodes, rest) :=
  ⟨congrArg subqueryNode? hread.1, hread.2⟩

/-- What is left of a filter of which a value may have been read: the value, which an end of the
filter may follow, or all that a filter reads. -/
def filterFrom (body? : Option BodyParser) (field : Text) (sign : Option Sign)
    (comparison : Option Comparison) (ts : List Token) : Option Node → Query.Progress
  | none => Query.readFilter body? field sign comparison ts
  | some value => ⟨[filterOn field comparison value], sign, Query.dropFilterEnd ts⟩

/-- After a subquery, a filter goes on with its node. -/
theorem readFilter_subquery (body : BodyParser) (field : Text) (sign : Option Sign)
    (comparison : Option Comparison) {t : Token} (hk : t.kind = .subqueryStart) :
    Query.readFilter (some body) field sign comparison (t :: ts) =
      filterFrom (some body) field sign comparison (afterSubquery ts)
        (subqueryNode? (body (subqueryBody ts))) := by
  rw [Query.readFilter.eq_def]
  simp only [hk]
  cases body (subqueryBody ts) with
  | nil => rfl
  | cons n ns => rfl

/-- After a token that may stand for a leaf, a filter goes on with the leaf, if it is one. -/
theorem readFilter_orLeave (body? : Option BodyParser) (field : Text) (sign : Option Sign)
    (comparison : Option Comparison) {t : Token} (hleaf : t.kind.isLeaf = true) :
    Query.readFilter body? field sign comparison (t :: ts) =
      filterFrom body? field sign comparison (orLeave ts (Query.readLeaf? t ts)).2
        ((orLeave ts (Query.readLeaf? t ts)).1.map .ofLeaf) := by
  rw [readFilter_leaf body? field sign comparison hleaf]
  cases Query.readLeaf? t ts with
  | none => rfl
  | some r => rfl

/-- **A filter is read alike**, from wherever its reading has got to. -/
theorem Fresh.readFilter (h : Fresh c ts) (hbody : BodiesMatch reader? body?) (field : Text)
    (sign : Option Sign) (comparison : Option Comparison) (value : Option Node) :
    Matches (readFilter reader? field sign comparison value c)
      (filterFrom body? field sign comparison ts value) := by
  fun_induction Cursor.readFilter reader? field sign comparison value c generalizing ts with
  | case1 sign comparison value c hnext =>
    obtain rfl := h.eq_nil hnext
    cases value with
    | none =>
      rw [filterFrom, Query.readFilter]
      exact ⟨rfl, rfl, h⟩
    | some value => exact ⟨rfl, rfl, h⟩
  | case2 sign comparison value c t hnext hk =>
    obtain ⟨rest, rfl⟩ := h.exists_cons hnext
    cases value with
    | none =>
      rw [filterFrom, Query.readFilter.eq_def]
      simp only [hk]
      exact ⟨rfl, rfl, h.bump.2⟩
    | some value =>
      rw [filterFrom, Query.dropFilterEnd, if_pos hk]
      exact ⟨rfl, rfl, h.bump.2⟩
  | case3 sign comparison value c t hnext hk hvalue =>
    obtain ⟨rest, rfl⟩ := h.exists_cons hnext
    obtain ⟨value, rfl⟩ := Option.isSome_iff_exists.mp hvalue
    rw [filterFrom, Query.dropFilterEnd, if_neg hk]
    exact ⟨rfl, rfl, h⟩
  -- from here on no value has been read
  | case4 sign comparison value c t hnext hend hvalue s hk ih
  | case7 sign comparison value c t hnext hend hvalue hk ih =>
    obtain rfl : value = none := by simpa using hvalue
    obtain ⟨rest, rfl⟩ := h.exists_cons hnext
    rw [filterFrom, Query.readFilter.eq_def]
    simp only [hk]
    exact ih h.bump.2
  | case5 sign comparison value c t hnext hend hvalue hk ih
  | case6 sign comparison value c t hnext hend hvalue hk ih =>
    obtain rfl : value = none := by simpa using hvalue
    obtain ⟨rest, rfl⟩ := h.exists_cons hnext
    obtain ⟨hequals, hrest⟩ := h.bump.2.takeEquals
    rw [filterFrom, Query.readFilter.eq_def]
    simp only [hk, ← hequals]
    exact ih hrest
  -- a subquery: where there are none, and with a reader of its body
  | case8 sign comparison value c t hnext hend hvalue hk =>
    obtain rfl : value = none := by simpa using hvalue
    obtain ⟨rest, rfl⟩ := h.exists_cons hnext
    rename_i hnone
    subst hnone
    cases hbody
    rw [filterFrom, Query.readFilter.eq_def]
    simp only [hk]
    exact ⟨rfl, rfl, h⟩
  | case9 sign comparison value c t hnext hend hvalue hk =>
    rename_i reader hreader subquery ih
    obtain rfl : value = none := by simpa using hvalue
    obtain ⟨rest, rfl⟩ := h.exists_cons hnext
    subst hreader
    cases hbody with
    | @some _ body hread =>
      obtain ⟨hnode, hrest⟩ := Fresh.readSubquery (hread h.bump.2)
      have hvalue := ih hrest
      rw [hnode] at hvalue ⊢
      rwa [filterFrom, readFilter_subquery body field sign comparison hk]
  -- a range: without an end, as the values of its bounds, and as one
  | case10 sign comparison value c t hnext hend hvalue b hk =>
    rename_i range hnone ih
    obtain rfl : value = none := by simpa using hvalue
    obtain ⟨rest, rfl⟩ := h.exists_cons hnext
    obtain ⟨hread, hrest⟩ := (h.bump.2.readRange? b).of_none hnone
    rw [filterFrom, Query.readFilter.eq_def]
    simp only [hk, hread]
    exact ih hrest
  | case11 sign comparison value c t hnext hend hvalue b hk =>
    rename_i range ls hleaves
    obtain rfl : value = none := by simpa using hvalue
    obtain ⟨rest, rfl⟩ := h.exists_cons hnext
    obtain ⟨after, hread, hrest⟩ := (h.bump.2.readRange? b).of_some hleaves
    rw [filterFrom, Query.readFilter.eq_def]
    simp only [hk, hread]
    exact ⟨rfl, rfl, hrest.dropFilterEnd⟩
  | case12 sign comparison value c t hnext hend hvalue b hk =>
    rename_i range i hinterval ih
    obtain rfl : value = none := by simpa using hvalue
    obtain ⟨rest, rfl⟩ := h.exists_cons hnext
    obtain ⟨after, hread, hrest⟩ := (h.bump.2.readRange? b).of_some hinterval
    rw [filterFrom, Query.readFilter.eq_def]
    simp only [hk, hread]
    exact ih hrest
  | case13 sign comparison value c t hnext hend hvalue =>
    rename_i leaf _ _ _ _ _ _ hleaf ih
    obtain rfl : value = none := by simpa using hvalue
    obtain ⟨rest, rfl⟩ := h.exists_cons hnext
    have hread : Agrees leaf (orLeave rest (Query.readLeaf? t rest)) := h.bump.2.readLeaf? t
    rw [filterFrom, readFilter_orLeave body? field sign comparison hleaf, ← hread.1]
    exact ih hread.2
  | case14 sign comparison value c t hnext hend hvalue =>
    obtain rfl : value = none := by simpa using hvalue
    obtain ⟨rest, rfl⟩ := h.exists_cons hnext
    have hother : Query.readFilter body? field sign comparison (t :: rest) =
        ⟨[], sign, t :: rest⟩ := by
      rw [Query.readFilter.eq_def]
      cases hk : t.kind <;> simp_all [Kind.isLeaf]
    rw [filterFrom, hother]
    exact ⟨rfl, rfl, h⟩

/-! ## Sequences -/

/-- A token that stands for a leaf gives one; any other is passed over. -/
theorem Fresh.step_leaf (h : Fresh c ts) (limits : Limits) (sign : Option Sign) (t : Token) :
    Matches
      (match (c.readLeaf? t).1 with
        | none => ⟨[], sign, (c.readLeaf? t).2⟩
        | some l => Cursor.finish limits sign [.ofLeaf l] (c.readLeaf? t).2)
      (match Query.readLeaf? t ts with
        | none => ⟨[], sign, ts⟩
        | some (l, rest) => Query.finish limits sign [.ofLeaf l] rest) := by
  have hread := h.readLeaf? t
  cases hl : (c.readLeaf? t).1 with
  | none =>
    obtain ⟨hnone, hrest⟩ := hread.of_none hl
    rw [hnone]
    exact ⟨rfl, rfl, hrest⟩
  | some l =>
    obtain ⟨rest, hsome, hrest⟩ := hread.of_some hl
    rw [hsome]
    exact hrest.finish limits sign [.ofLeaf l]

theorem Fresh.step (h : Fresh c ts) (hbody : BodiesMatch reader? body?) (limits : Limits)
    (sign : Option Sign) (t : Token) :
    Matches (step limits reader? sign t c) (Query.step limits body? sign t ts) := by
  obtain ⟨kind, literal⟩ := t
  have hleaf := h.step_leaf limits sign ⟨kind, literal⟩
  cases kind with
  | sign s => exact ⟨rfl, rfl, h⟩
  | and | or | subqueryEnd => exact ⟨rfl, rfl, h⟩
  | boost | fuzzy => exact ⟨rfl, rfl, h.skipNumber⟩
  | subqueryStart =>
    cases hbody with
    | none => exact ⟨rfl, rfl, h⟩
    | @some reader body hread =>
      have hsubquery := Fresh.readSubquery (hread h)
      have hnodes : (c.readSubquery reader).1.toList = subqueryNodes (body (subqueryBody ts)) := by
        rw [hsubquery.1]
        cases body (subqueryBody ts) <;> rfl
      simp only [Cursor.step, Query.step, hnodes]
      exact hsubquery.2.finish limits sign _
  | filterStart =>
    have hfilter := h.readFilter hbody ((Token.text? ⟨.filterStart, literal⟩).getD []) sign none
      none
    simp only [Cursor.step, Query.step, hfilter.nodes, hfilter.sign]
    exact hfilter.rest.finish limits _ _
  | rangeStart b =>
    have hread := h.readRange? b
    simp only [Cursor.step, Query.step]
    cases hrange : (c.readRange? b).1 with
    | none =>
      obtain ⟨hnone, hrest⟩ := hread.of_none hrange
      rw [hnone]
      exact ⟨rfl, rfl, hrest⟩
    | some reading =>
      obtain ⟨rest, hsome, hrest⟩ := hread.of_some hrange
      rw [hsome]
      exact hrest.finish limits sign reading.nodes
  | _ => exact hleaf

/-- Inside a subquery a cursor reads what `traceBody` reads. -/
theorem Fresh.sequence_none (h : Fresh c ts) (limits : Limits) (sign : Option Sign) :
    Agrees (sequence limits none sign c)
      ((traceBody limits sign ts).nodes, (traceBody limits sign ts).rest) := by
  generalize hbody : (none : Option BodyReader) = reader?
  fun_induction Cursor.sequence limits reader? sign c generalizing ts with
  | case1 sign c hnext =>
    obtain rfl := h.eq_nil hnext
    rw [traceBody]
    exact ⟨rfl, h⟩
  | case2 sign c t hnext hend =>
    obtain ⟨rest, rfl⟩ := h.exists_cons hnext
    rw [traceBody, if_pos hend.1]
    exact ⟨rfl, h.bump.2⟩
  | case3 sign c t hnext hend p =>
    rename_i ih
    subst hbody
    obtain ⟨rest, rfl⟩ := h.exists_cons hnext
    have hend' : t.kind ≠ .subqueryEnd := by simpa using hend
    have hstep : Matches p (Query.step limits none sign t rest) := h.bump.2.step .none limits sign t
    obtain ⟨hnodes, hleft⟩ := ih hstep.rest
    rw [traceBody, if_neg hend']
    simp only [← hstep.nodes, ← hstep.sign]
    exact ⟨congrArg (p.nodes ++ ·) hnodes, hleft⟩

theorem bodiesMatch_subqueryReader (limits : Limits) :
    BodiesMatch (some (subqueryReader limits)) (some (parseBody limits)) := by
  refine .some fun {c ts} h => ?_
  obtain ⟨hnodes, hrest⟩ := traceBody_eq limits ts
  rw [← hnodes, ← hrest]
  exact h.sequence_none limits none

/-- Outside of subqueries a cursor reads all of its tokens. -/
theorem Fresh.sequence_some (h : Fresh c ts) {reader : BodyReader} {body : BodyParser}
    (hbody : BodiesMatch (some reader) (some body)) (limits : Limits) (sign : Option Sign) :
    Agrees (sequence limits (some reader) sign c)
      (Query.sequence limits (some body) sign ts, []) := by
  generalize hreader : some reader = reader? at hbody
  fun_induction Cursor.sequence limits reader? sign c generalizing ts with
  | case1 sign c hnext =>
    obtain rfl := h.eq_nil hnext
    rw [Query.sequence]
    exact ⟨rfl, h⟩
  | case2 sign c t hnext hend =>
    subst hreader
    simp at hend
  | case3 sign c t hnext hend p =>
    rename_i ih
    obtain ⟨rest, rfl⟩ := h.exists_cons hnext
    have hstep : Matches p (Query.step limits (some body) sign t rest) :=
      h.bump.2.step hbody limits sign t
    obtain ⟨hnodes, hleft⟩ := ih hstep.rest
    rw [sequence_cons, ← hstep.nodes, ← hstep.sign]
    exact ⟨congrArg (p.nodes ++ ·) hnodes, hleft⟩

/-- **Parsing starts a cursor over**, so that its nodes are those of its tokens, wherever it
stands and whatever it has peeked at. -/
theorem parse_eq (limits : Limits) (c : Cursor) : c.parse limits = parseTokens limits c.tokens :=
  ((fresh_reset_moveNext c).sequence_some (bodiesMatch_subqueryReader limits) limits none).1

end SearchLang.Cursor
