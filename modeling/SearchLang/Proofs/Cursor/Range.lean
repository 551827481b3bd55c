import Mathlib.Data.List.TakeWhile
import SearchLang.Proofs.Cursor.Counter
import SearchLang.Proofs.Parse.Extent
import SearchLang.Proofs.Parse.Shape

/-!
# Ranges under a cursor

Before a range is read, the tokens after its start are searched for its end, and
only peeking is used for that. What is then read token by token stops exactly where
the search did: after the first range end, if nothing before it shows that the range
was left unfinished, and otherwise not one token further (`readRange?_takes_bracket`).
Every bound that was read is a bound of the range or a value of its own.
-/

namespace SearchLang

/-! ## Bounds -/

namespace Query

/-- The tags of the leaves that can bound a range of a type. -/
def BoundClass.tags : BoundClass → List Tag
  | .word => [.word, .text .phrase]
  | .number => [.number]
  | .date => [.text .date]

/-- A range has two sides: open where there is no bound, and with the value of the bound where
there is one. -/
structure IsBetween {α : Type} (value : Leaf → Option α) (lower upper : Option Leaf)
    (exclusive : Bool) (r : Range α) : Prop where
  lower : r.lower.map some = lower.map value
  upper : r.upper.map some = upper.map value
  exclusive : r.exclusive = exclusive

/-- A range of a type between two bounds. -/
inductive Spans (lower upper : Option Leaf) (exclusive : Bool) : BoundClass → Interval → Prop
  | words {r : Range Text} :
    IsBetween Leaf.text? lower upper exclusive r → Spans lower upper exclusive .word (.words r)
  | numbers {r : Range Number} :
    IsBetween Leaf.number? lower upper exclusive r →
      Spans lower upper exclusive .number (.numbers r)
  | dates {r : Range Text} :
    IsBetween Leaf.text? lower upper exclusive r → Spans lower upper exclusive .date (.dates r)

/-- A reading of two bounds that drops neither. -/
structure RangeReading.KeepsBounds (lower upper : Option Leaf) (exclusive : Bool)
    (r : RangeReading) : Prop where
  /-- There are no nodes if there are no bounds, and only then. -/
  empty : r.nodes = [] ↔ lower = none ∧ upper = none
  /-- Bounds that are all of one type make a range. -/
  interval : ∀ cls : BoundClass, lower.toList ++ upper.toList ≠ [] →
    (∀ l ∈ lower.toList ++ upper.toList, l.tag ∈ cls.tags) →
      ∃ i, r = .interval i ∧ Spans lower upper exclusive cls i
  /-- All other bounds are values of their own, in their order. -/
  leaves : (∀ cls : BoundClass, ∃ l ∈ lower.toList ++ upper.toList, l.tag ∉ cls.tags) →
    r = .leaves (lower.toList ++ upper.toList)

theorem boundClass?_eq_some_iff (l : Leaf) (cls : BoundClass) :
    boundClass? l = some cls ↔ l.tag ∈ cls.tags := by
  cases l with
  | word value wildcard => cases cls <;> simp [boundClass?, Leaf.tag, BoundClass.tags]
  | number value => cases cls <;> simp [boundClass?, Leaf.tag, BoundClass.tags]
  | text form value =>
    cases form <;> cases cls <;> simp [boundClass?, Leaf.tag, BoundClass.tags]

theorem sharedClass?_eq_some_iff {lower upper : Option Leaf} {cls : BoundClass} :
    sharedClass? lower upper = some cls ↔
      lower.toList ++ upper.toList ≠ [] ∧
        ∀ l ∈ lower.toList ++ upper.toList, l.tag ∈ cls.tags := by
  simp only [← boundClass?_eq_some_iff]
  cases lower <;> cases upper <;> simp [sharedClass?]
  grind

/-- A leaf that can bound words or dates holds a text. -/
theorem exists_text_of_mem_tags {l : Leaf} {cls : BoundClass} (h : l.tag ∈ cls.tags)
    (hne : cls ≠ .number) : ∃ s, l.text? = some s := by
  cases l with
  | word s wildcard => exact ⟨s, rfl⟩
  | text form s => exact ⟨s, rfl⟩
  | number n => cases cls <;> simp [Leaf.tag, BoundClass.tags] at h hne

theorem exists_number_of_mem_tags {l : Leaf} (h : l.tag ∈ BoundClass.number.tags) :
    ∃ n, l.number? = some n := by
  cases l with
  | number n => exact ⟨n, rfl⟩
  | word s wildcard => simp [Leaf.tag, BoundClass.tags] at h
  | text form s => simp [Leaf.tag, BoundClass.tags] at h

theorem map_some_bind {α : Type} {value : Leaf → Option α} {bound : Option Leaf}
    (h : ∀ l ∈ bound, ∃ a, value l = some a) :
    (bound.bind value).map some = bound.map value := by
  cases bound with
  | none => rfl
  | some l =>
    obtain ⟨a, ha⟩ := h l rfl
    simp [ha]

/-- Between bounds that all have a value, and of which there is one, there is a range. -/
theorem exists_of?_isBetween {α : Type} {value : Leaf → Option α} {lower upper : Option Leaf}
    (exclusive : Bool) (hne : lower.toList ++ upper.toList ≠ [])
    (h : ∀ l ∈ lower.toList ++ upper.toList, ∃ a, value l = some a) :
    ∃ r, Range.of? (lower.bind value) (upper.bind value) exclusive = some r ∧
      IsBetween value lower upper exclusive r := by
  have hlower : (lower.bind value).map some = lower.map value :=
    map_some_bind fun l hl => h l (List.mem_append_left _ (Option.mem_toList.mpr hl))
  have hupper : (upper.bind value).map some = upper.map value :=
    map_some_bind fun l hl => h l (List.mem_append_right _ (Option.mem_toList.mpr hl))
  refine ⟨⟨lower.bind value, upper.bind value, exclusive⟩, ?_, hlower, hupper, rfl⟩
  unfold Range.of?
  rw [if_neg]
  intro hnone
  rw [Bool.and_eq_true, Option.isNone_iff_eq_none, Option.isNone_iff_eq_none] at hnone
  rw [hnone.1] at hlower
  rw [hnone.2] at hupper
  cases lower <;> cases upper <;> simp_all

/-- **Bounds that share a type always make a range of that type.** -/
theorem exists_interval?_spans {lower upper : Option Leaf} {cls : BoundClass}
    (h : sharedClass? lower upper = some cls) (exclusive : Bool) :
    ∃ i, interval? lower upper exclusive = some i ∧ Spans lower upper exclusive cls i := by
  obtain ⟨hne, htags⟩ := sharedClass?_eq_some_iff.mp h
  unfold interval?
  rw [h]
  cases cls with
  | word =>
    obtain ⟨r, hr, hbetween⟩ := exists_of?_isBetween exclusive hne fun l hl =>
      exists_text_of_mem_tags (htags l hl) (by simp)
    exact ⟨.words r, by simp [hr], .words hbetween⟩
  | number =>
    obtain ⟨r, hr, hbetween⟩ := exists_of?_isBetween exclusive hne fun l hl =>
      exists_number_of_mem_tags (htags l hl)
    exact ⟨.numbers r, by simp [hr], .numbers hbetween⟩
  | date =>
    obtain ⟨r, hr, hbetween⟩ := exists_of?_isBetween exclusive hne fun l hl =>
      exists_text_of_mem_tags (htags l hl) (by simp)
    exact ⟨.dates r, by simp [hr], .dates hbetween⟩

theorem keepsBounds_ofBounds (lower upper : Option Leaf) (exclusive : Bool) :
    (RangeReading.ofBounds lower upper exclusive).KeepsBounds lower upper exclusive := by
  have hnil : lower.toList ++ upper.toList = [] ↔ lower = none ∧ upper = none := by
    cases lower <;> cases upper <;> simp
  cases hshared : sharedClass? lower upper with
  | some cls =>
    obtain ⟨i, hi, hspans⟩ := exists_interval?_spans hshared exclusive
    obtain ⟨hne, htags⟩ := sharedClass?_eq_some_iff.mp hshared
    have hreading : RangeReading.ofBounds lower upper exclusive = .interval i := by
      simp [RangeReading.ofBounds, hi]
    rw [hreading]
    refine ⟨?_, fun cls' _ htags' => ?_, fun hmixed => ?_⟩
    · rw [← hnil]
      simp only [RangeReading.nodes, List.cons_ne_nil, hne]
    · have hshared' := sharedClass?_eq_some_iff.mpr ⟨hne, htags'⟩
      obtain rfl : cls = cls' := Option.some.inj (hshared.symm.trans hshared')
      exact ⟨i, rfl, hspans⟩
    · obtain ⟨l, hl, hnot⟩ := hmixed cls
      exact absurd (htags l hl) hnot
  | none =>
    have hreading : RangeReading.ofBounds lower upper exclusive =
        .leaves (lower.toList ++ upper.toList) := by
      simp [RangeReading.ofBounds, interval?, hshared]
    rw [hreading]
    refine ⟨?_, fun cls hne htags => ?_, fun _ => rfl⟩
    · rw [← hnil, RangeReading.nodes, List.map_eq_nil_iff]
    · rw [sharedClass?_eq_some_iff.mpr ⟨hne, htags⟩] at hshared
      cases hshared

/-! ## The end of a range -/

/-- Some tokens are the inside of a range, its end, and the tokens after it. Nothing inside shows
that the range was left unfinished. -/
structure ClosesRange (ts inner : List Token) (close : Token) (after : List Token) : Prop where
  split : ts = inner ++ close :: after
  close : close.kind.isRangeEnd = true
  inner : ∀ t ∈ inner, t.kind.isRangeEnd = false ∧ endsSearch t = false

/-- The tokens after the first `TO`. -/
def afterTo (ts : List Token) : List Token :=
  (ts.dropWhile fun t => t.kind != .upTo).drop 1

theorem hasRangeEnd_iff (ts : List Token) :
    hasRangeEnd ts = true ↔ ∃ inner close after, ClosesRange ts inner close after := by
  unfold hasRangeEnd
  constructor
  · intro h
    split at h
    · rename_i t ht
      obtain ⟨-, inner, after, rfl, hinner⟩ := List.find?_eq_some_iff_append.mp ht
      exact ⟨inner, t, after, rfl, h, by simpa using hinner⟩
    · simp at h
  · rintro ⟨inner, close, after, rfl, hclose, hinner⟩
    have hfind : (inner ++ close :: after).find? (fun t => t.kind.isRangeEnd || endsSearch t) =
        some close :=
      List.find?_eq_some_iff_append.mpr ⟨by simp [hclose], inner, after, rfl, by simpa using hinner⟩
    rw [hfind]
    exact hclose

section Close

variable {close : Token} (hclose : close.kind.isRangeEnd = true) (after : List Token)
include hclose

/-- A bound before the end of a range is read without it. -/
theorem readBound_append_rangeEnd (ts : List Token) :
    readBound (ts ++ close :: after) =
      ((readBound ts).1, (readBound ts).2 ++ close :: after) := by
  have hkind : close.kind ≠ .wildcard ∧ close.kind.isLeaf = false := by
    cases hk : close.kind <;> simp_all [Kind.isRangeEnd, Kind.isLeaf]
  cases ts with
  | nil => simp [readBound, hkind]
  | cons t ts =>
    rw [List.cons_append, readBound, readBound, readLeaf?_append (by simpa using hkind.1)]
    split
    · rfl
    · split
      · cases readLeaf? t ts <;> rfl
      · rfl

theorem skipRangeEnd_rangeEnd {ts : List Token} (hts : ∀ t ∈ ts, t.kind.isRangeEnd = false) :
    skipRangeEnd (ts ++ close :: after) = after := by
  have hdrop : ts.dropWhile (fun t => !t.kind.isRangeEnd) = [] :=
    List.dropWhile_eq_nil_iff.mpr (by simpa using hts)
  simp [skipRangeEnd, List.dropWhile_append, hdrop, hclose]

/-- Inside of a range the way to the upper bound is the way past the first `TO`, and without one
there is no upper bound. -/
theorem skipToUpper_rangeEnd {ts : List Token} (hts : ∀ t ∈ ts, t.kind.isRangeEnd = false) :
    skipToUpper (ts ++ close :: after) = afterTo ts ++ close :: after := by
  have hupTo : close.kind ≠ .upTo := by
    intro hk
    simp [hk, Kind.isRangeEnd] at hclose
  induction ts with
  | nil => simp [skipToUpper, afterTo, hclose, hupTo]
  | cons t ts ih =>
    have ht : t.kind.isRangeEnd = false := hts t (by simp)
    by_cases hk : t.kind = .upTo
    · simp [skipToUpper, afterTo, hk]
    · have hrest := ih fun u hu => hts u (List.mem_cons_of_mem _ hu)
      simpa [skipToUpper, afterTo, hk, ht] using hrest

end Close

theorem afterTo_cons {t : Token} (ht : t.kind ≠ .upTo) (ts : List Token) :
    afterTo (t :: ts) = afterTo ts := by
  simp [afterTo, ht]

/-- The lower bound does not reach past the first `TO`. -/
theorem afterTo_readBound (ts : List Token) : afterTo (readBound ts).2 = afterTo ts := by
  cases ts with
  | nil => rfl
  | cons t ts =>
    rw [readBound]
    split
    · rename_i hk
      rw [afterTo_cons (by simp [hk])]
    · split
      · rename_i hleaf
        have hk : t.kind ≠ .upTo := by
          intro hk
          simp [hk, Kind.isLeaf] at hleaf
        rw [afterTo_cons hk]
        cases hread : readLeaf? t ts with
        | none => rfl
        | some p =>
          rcases rest_of_readLeaf? hread with hrest | ⟨w, hw, hrest⟩
          · rw [hrest]
          · rw [hrest, afterTo_cons (by simp [hw])]
      · rfl

theorem readRange?_of_closesRange (b : Bracket) {ts inner after : List Token} {close : Token}
    (h : ClosesRange ts inner close after) :
    readRange? b ts =
      some (.ofBounds (readBound inner).1 (readBound (afterTo inner)).1 (b == .exclusive),
        after) := by
  have hend := (hasRangeEnd_iff ts).mpr ⟨inner, close, after, h⟩
  obtain ⟨rfl, hclose, hinner⟩ := h
  have hlower : ∀ t ∈ (readBound inner).2, t.kind.isRangeEnd = false := fun t ht =>
    (hinner t ((readBound_suffix inner).subset ht)).1
  have hupper : ∀ t ∈ (readBound (afterTo inner)).2, t.kind.isRangeEnd = false := by
    intro t ht
    have hmem : t ∈ inner :=
      (List.dropWhile_suffix _).subset (List.mem_of_mem_drop ((readBound_suffix _).subset ht))
    exact (hinner t hmem).1
  unfold readRange?
  rw [if_pos hend, readBound_append_rangeEnd hclose]
  simp only [skipToUpper_rangeEnd hclose after hlower, afterTo_readBound,
    readBound_append_rangeEnd hclose, skipRangeEnd_rangeEnd hclose after hupper]

end Query

/-! ## Walks -/

namespace Cursor

open Query

/-- One cursor comes out of another by moving past tokens that are there. -/
inductive Walk : Cursor → Cursor → Prop
  | stay (c : Cursor) : Walk c c
  | step {c c' : Cursor} {t : Token} : c.lookahead = some t → Walk c.moveNext c' → Walk c c'

variable {c c' c'' : Cursor} {ts rest : List Token}

theorem Walk.trans (h : Walk c c') (h' : Walk c' c'') : Walk c c'' := by
  induction h with
  | stay c => exact h'
  | step hnext _ ih => exact .step hnext (ih h')

theorem Before.unique (h : c.Before ts) (h' : c.Before rest) : ts = rest := by
  have hhead : ts.head? = rest.head? := h.lookahead.symm.trans h'.lookahead
  have htail : ts.tail = rest.tail := h.after.symm.trans h'.after
  cases ts with
  | nil => exact (List.head?_eq_none_iff.mp hhead.symm).symm
  | cons t ts =>
    obtain ⟨rest, rfl⟩ := List.head?_eq_some_iff.mp hhead.symm
    rw [List.tail_cons, List.tail_cons] at htail
    rw [htail]

/-- How far a walk has led is seen from the tokens before and after it. -/
theorem Walk.exists_taken (h : Walk c c') (hc : c.Before ts) (hc' : c'.Before rest) :
    ∃ taken, ts = taken ++ rest ∧ c' = moveNext^[taken.length] c := by
  induction h generalizing ts with
  | stay c => exact ⟨[], hc.unique hc', rfl⟩
  | @step c c' t hnext _ ih =>
    obtain ⟨ts, rfl⟩ := List.head?_eq_some_iff.mp (hc.lookahead.symm.trans hnext)
    obtain ⟨taken, htaken, hmoved⟩ := ih hc.moveNext hc'
    refine ⟨t :: taken, ?_, hmoved⟩
    rw [List.tail_cons] at htaken
    rw [htaken, List.cons_append]

theorem walk_bump (c : Cursor) : Walk c c.bump.2 := by
  cases hnext : c.lookahead with
  | none =>
    rw [bump_of_none hnext]
    exact .stay c
  | some t =>
    rw [bump_of_some hnext]
    exact .step hnext (.stay _)

theorem walk_skipNext (c : Cursor) (k : Kind) : Walk c (c.skipNext k) := by
  unfold skipNext
  split
  · exact walk_bump c
  · exact .stay c

theorem walk_skipWhile (p : Token → Bool) (c : Cursor) : Walk c (c.skipWhile p) := by
  fun_induction skipWhile p c with
  | case1 c t hnext _ ih => exact .step hnext ih
  | case2 c => exact .stay c
  | case3 c => exact .stay c

theorem walk_readLeaf? (t : Token) (c : Cursor) : Walk c (readLeaf? t c).2 := by
  unfold Cursor.readLeaf?
  split
  · split
    · exact walk_skipNext c .wildcard
    · exact .stay c
  all_goals exact .stay c

theorem walk_readBound (c : Cursor) : Walk c c.readBound.2 := by
  unfold Cursor.readBound
  split
  · exact .stay c
  · split
    · exact walk_bump c
    · split
      · exact (walk_bump c).trans (walk_readLeaf? _ _)
      · exact .stay c

theorem walk_skipToUpper (c : Cursor) : Walk c c.skipToUpper :=
  (walk_skipWhile _ c).trans (walk_skipNext _ .upTo)

theorem walk_skipRangeEnd (c : Cursor) : Walk c c.skipRangeEnd :=
  (walk_skipWhile _ c).trans (walk_bump _)

/-- A range is read by a walk from where its start left the cursor. -/
theorem Fresh.walk_readRange? (h : Fresh c ts) (b : Bracket) : Walk c (c.readRange? b).2 := by
  unfold Cursor.readRange?
  rw [h.hasRangeEnd]
  split
  · exact (walk_readBound _).trans ((walk_skipToUpper _).trans
      ((walk_readBound _).trans (walk_skipRangeEnd _)))
  · exact .stay c

/-! ## Ranges -/

theorem Fresh.readRange?_of_closesRange (h : Fresh c ts) (b : Bracket) {inner after : List Token}
    {close : Token} (hclose : ClosesRange ts inner close after) :
    c.readRange? b =
      (some (.ofBounds (Query.readBound inner).1 (Query.readBound (afterTo inner)).1
        (b == .exclusive)), Cursor.moveNext^[inner.length + 1] c) := by
  obtain ⟨hread, hafter⟩ := h.readRange? b
  rw [Query.readRange?_of_closesRange b hclose] at hread hafter
  obtain ⟨taken, htaken, hmoved⟩ := (h.walk_readRange? b).exists_taken h.before hafter.before
  have hsplit : inner ++ [close] = taken := by
    rw [hclose.split, ← List.singleton_append, ← List.append_assoc] at htaken
    exact List.append_cancel_right htaken
  rw [← hsplit, List.length_append, List.length_singleton] at hmoved
  exact Prod.ext hread hmoved

theorem Fresh.readRange?_of_unclosed (h : Fresh c ts) (b : Bracket)
    (hopen : ∀ inner close after, ¬ClosesRange ts inner close after) :
    c.readRange? b = (none, c) := by
  have hend : ¬Query.hasRangeEnd ts = true := by
    rw [hasRangeEnd_iff]
    rintro ⟨inner, close, after, hclose⟩
    exact hopen inner close after hclose
  rw [Cursor.readRange?, h.hasRangeEnd, if_neg hend]

theorem advances_iterate (d : Nat) (n : Counter) (hn : n.peeks = 0) :
    Counter.advance^[d] n = ⟨n.advances + d, 0⟩ := by
  induction d with
  | zero => rw [Function.iterate_zero_apply, Nat.add_zero, ← hn]
  | succ d ih =>
    rw [Function.iterate_succ_apply', ih]
    rfl

/-- The cursor that has just moved past a token stands before the tokens after it. -/
theorem fresh_iterate_moveNext (before : List Token) (t : Token) (ts : List Token) :
    let c := moveNext^[before.length + 2] (ofTokens (before ++ t :: ts))
    c.current = some t ∧ Fresh c ts := by
  intro c
  have hc : c = Counter.cursor ⟨before.length + 2, 0⟩ (before ++ t :: ts) := by
    show moveNext^[_] _ = _
    rw [← Counter.cursor_zero, Counter.iterate_moveNext_cursor, advances_iterate _ _ rfl,
      Nat.zero_add]
  have hahead : Counter.ahead ⟨before.length + 2, 0⟩ (before ++ t :: ts) = ts := by
    simp [Counter.ahead, List.drop_append]
  rw [hc]
  refine ⟨?_, ?_, rfl⟩
  · rw [(Counter.shows_cursor _ _).current]
    simp
  · have hbefore := Counter.before_cursor (before ++ t :: ts) ⟨before.length + 2, 0⟩ (by simp)
    rwa [hahead] at hbefore

/-- **A range takes exactly its own brackets and keeps its bounds.** When a cursor has just moved
past a range start, it reads up to the first range end, if no filter end, range start or subquery
start or end comes before it, and not further; the bounds that it reads on the way make a range or
are values of their own. In all other cases it reads nothing and is left as it was. Bounds that
share a type never fail to make a range. -/
theorem readRange?_takes_bracket (before : List Token) (b : Bracket) (literal : Option Literal)
    (rest : List Token) :
    let c := moveNext^[before.length + 2] (ofTokens (before ++ ⟨.rangeStart b, literal⟩ :: rest))
    c.current = some ⟨.rangeStart b, literal⟩ ∧
      (∀ inner close after, ClosesRange rest inner close after →
        ∃ reading, c.readRange? b = (some reading, moveNext^[inner.length + 1] c) ∧
          reading.KeepsBounds (Query.readBound inner).1 (Query.readBound (afterTo inner)).1
            (b == .exclusive)) ∧
      ((∀ inner close after, ¬ClosesRange rest inner close after) →
        c.readRange? b = (none, c)) ∧
      ∀ lower upper cls, sharedClass? lower upper = some cls →
        interval? lower upper (b == .exclusive) ≠ none := by
  intro c
  obtain ⟨hcurrent, hfresh⟩ := fresh_iterate_moveNext before ⟨.rangeStart b, literal⟩ rest
  refine ⟨hcurrent, fun inner close after hclose => ?_, hfresh.readRange?_of_unclosed b, ?_⟩
  · exact ⟨_, hfresh.readRange?_of_closesRange b hclose, keepsBounds_ofBounds _ _ _⟩
  · intro lower upper cls hshared
    obtain ⟨i, hi, -⟩ := exists_interval?_spans hshared (b == .exclusive)
    rw [hi]
    exact Option.some_ne_none i

/-- Of `{a - TO 2] b` the tokens up to the bracket are taken, and of `{a - TO 2) b` none. -/
theorem readRange?_takes_bracket_mixed :
    let inner : List Token :=
      [.ofText .word ['a'], .mark (.sign .prohibited), .mark .upTo, .ofNumber (.ofNat 2)]
    let closed := moveNext^[2] (ofTokens (.mark (.rangeStart .exclusive) ::
      (inner ++ [.mark (.rangeEnd .inclusive), .ofText .word ['b']])))
    let unclosed := moveNext^[2] (ofTokens (.mark (.rangeStart .exclusive) ::
      (inner ++ [.mark .filterEnd, .ofText .word ['b']])))
    closed.readRange? .exclusive =
        (some (.leaves [.word ['a'] false, .number (.ofNat 2)]), moveNext^[5] closed) ∧
      unclosed.readRange? .exclusive = (none, unclosed) ∧
      interval? (some (.word ['a'] false)) none true ≠ none := by
  intro inner closed unclosed
  refine ⟨?_, ?_, ?_⟩
  · have hclose : ClosesRange (inner ++ [.mark (.rangeEnd .inclusive), .ofText .word ['b']]) inner
        (.mark (.rangeEnd .inclusive)) [.ofText .word ['b']] := ⟨rfl, rfl, by decide⟩
    obtain ⟨-, hread, -⟩ := readRange?_takes_bracket [] .exclusive none
      (inner ++ [.mark (.rangeEnd .inclusive), .ofText .word ['b']])
    obtain ⟨reading, hreading, hkeeps⟩ := hread _ _ _ hclose
    have hleaves := hkeeps.leaves fun cls => by cases cls <;> decide
    rw [hleaves] at hreading
    exact hreading
  · obtain ⟨-, -, hunclosed, -⟩ := readRange?_takes_bracket [] .exclusive none
      (inner ++ [.mark .filterEnd, .ofText .word ['b']])
    refine hunclosed fun inner' close after hclose => ?_
    have hend := (hasRangeEnd_iff _).mpr ⟨inner', close, after, hclose⟩
    exact absurd hend (by decide)
  · obtain ⟨-, -, -, hmade⟩ := readRange?_takes_bracket [] .exclusive none []
    exact hmade (some (.word ['a'] false)) none .word rfl

end Cursor

end SearchLang
