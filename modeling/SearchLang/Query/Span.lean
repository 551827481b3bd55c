import SearchLang.Node.Basic

/-!
# Spans of tokens

The parts of a token list that belong together: a leaf with its wildcard, a
range between brackets, the body of a subquery. Each reader gives what it read
and the tokens that follow; what follows is a suffix of what was there.
-/

namespace SearchLang.Query

/-! ## Leaves -/

/-- The leaf that a token stands for, and the tokens after it. A wildcard directly after a word
belongs to the word. A token whose value does not fit its kind stands for nothing. -/
def readLeaf? (t : Token) (rest : List Token) : Option (Leaf × List Token) :=
  match t.kind with
  | .word =>
    t.text?.map fun value =>
      match rest with
      | w :: after => if w.kind = .wildcard then (.word value true, after) else (.word value false, rest)
      | [] => (.word value false, [])
  | .number => t.number?.map fun value => (.number value, rest)
  | .text form => t.text?.map fun value => (.text form value, rest)
  | _ => none

theorem readLeaf?_suffix {t : Token} {rest after : List Token} {l : Leaf}
    (h : readLeaf? t rest = some (l, after)) : after <:+ rest := by
  unfold readLeaf? at h
  split at h
  · simp only [Option.map_eq_some_iff] at h
    obtain ⟨value, _, h⟩ := h
    split at h
    · split at h <;> cases h
      · exact List.suffix_cons _ _
      · exact List.suffix_refl _
    · cases h
      exact List.suffix_refl _
  · simp only [Option.map_eq_some_iff, Prod.mk.injEq] at h
    obtain ⟨_, _, _, rfl⟩ := h
    exact List.suffix_refl _
  · simp only [Option.map_eq_some_iff, Prod.mk.injEq] at h
    obtain ⟨_, _, _, rfl⟩ := h
    exact List.suffix_refl _
  · simp at h

/-! ## Ranges -/

/-- A token that shows that a range was left unfinished. -/
def endsSearch (t : Token) : Bool :=
  match t.kind with
  | .filterEnd | .rangeStart _ | .subqueryStart | .subqueryEnd => true
  | _ => false

/-- Whether a range end comes before the filter, the subquery or the query ends and before
another range or subquery starts. -/
def hasRangeEnd (ts : List Token) : Bool :=
  match ts.find? fun t => t.kind.isRangeEnd || endsSearch t with
  | some t => t.kind.isRangeEnd
  | none => false

/-- Reads one bound. A wildcard or the lack of a value leaves the side open. -/
def readBound : List Token → Option Leaf × List Token
  | [] => (none, [])
  | t :: rest =>
    if t.kind = .wildcard then (none, rest)
    else if t.kind.isLeaf then
      match readLeaf? t rest with
      | some (l, after) => (some l, after)
      | none => (none, rest)
    else (none, t :: rest)

/-- The tokens after the first `TO`, or from the first range end if that comes sooner. -/
def skipToUpper (ts : List Token) : List Token :=
  match ts.dropWhile fun t => t.kind != .upTo && !t.kind.isRangeEnd with
  | t :: rest => if t.kind = .upTo then rest else t :: rest
  | [] => []

/-- The tokens after the first range end. -/
def skipRangeEnd (ts : List Token) : List Token :=
  (ts.dropWhile fun t => !t.kind.isRangeEnd).drop 1

/-- The types of bounds. -/
inductive BoundClass where
  | word
  | number
  | date
  deriving DecidableEq, Repr

/-- The type of a bound that a leaf can be. -/
def boundClass? : Leaf → Option BoundClass
  | .word .. => some .word
  | .text .phrase _ => some .word
  | .number _ => some .number
  | .text .date _ => some .date
  | _ => none

/-- The type that the bounds share; of two bounds both must have it. -/
def sharedClass? : Option Leaf → Option Leaf → Option BoundClass
  | none, none => none
  | some l, none => boundClass? l
  | none, some u => boundClass? u
  | some l, some u => if boundClass? l = boundClass? u then boundClass? l else none

/-- The range between two bounds, if there is one and they share a type. -/
def interval? (lower upper : Option Leaf) (exclusive : Bool) : Option Interval :=
  match sharedClass? lower upper with
  | none => none
  | some .word =>
    (Range.of? (lower.bind Leaf.text?) (upper.bind Leaf.text?) exclusive).map .words
  | some .number =>
    (Range.of? (lower.bind Leaf.number?) (upper.bind Leaf.number?) exclusive).map .numbers
  | some .date =>
    (Range.of? (lower.bind Leaf.text?) (upper.bind Leaf.text?) exclusive).map .dates

/-- What stands after a range start. -/
inductive RangeReading where
  /-- A range. -/
  | interval (i : Interval)
  /-- Bounds that make no range; they count as values of their own. -/
  | leaves (ls : List Leaf)
  deriving Repr

/-- The reading of two bounds. -/
def RangeReading.ofBounds (lower upper : Option Leaf) (exclusive : Bool) : RangeReading :=
  match interval? lower upper exclusive with
  | some i => .interval i
  | none => .leaves (lower.toList ++ upper.toList)

/-- Reads a range after its start, and gives the tokens after its end. A range without an end is
none. -/
def readRange? (b : Bracket) (ts : List Token) : Option (RangeReading × List Token) :=
  if hasRangeEnd ts then
    let (lower, rest) := readBound ts
    let (upper, rest) := readBound (skipToUpper rest)
    some (.ofBounds lower upper (b == .exclusive), skipRangeEnd rest)
  else
    none

theorem readBound_suffix (ts : List Token) : (readBound ts).2 <:+ ts := by
  cases ts with
  | nil => exact List.suffix_refl _
  | cons t rest =>
    rw [readBound]
    split
    · exact List.suffix_cons _ _
    · split
      · split
        · rename_i h
          exact (readLeaf?_suffix h).trans (List.suffix_cons _ _)
        · exact List.suffix_cons _ _
      · exact List.suffix_refl _

theorem skipToUpper_suffix (ts : List Token) : skipToUpper ts <:+ ts := by
  unfold skipToUpper
  split
  · rename_i t rest h
    have hs : t :: rest <:+ ts := h ▸ List.dropWhile_suffix _
    split
    · exact (List.suffix_cons _ _).trans hs
    · exact hs
  · exact List.nil_suffix

theorem skipRangeEnd_suffix (ts : List Token) : skipRangeEnd ts <:+ ts :=
  (List.drop_suffix _ _).trans (List.dropWhile_suffix _)

theorem readRange?_suffix {b : Bracket} {ts rest : List Token} {r : RangeReading}
    (h : readRange? b ts = some (r, rest)) : rest <:+ ts := by
  unfold readRange? at h
  split at h
  · simp only [Option.some.injEq, Prod.mk.injEq] at h
    obtain ⟨_, rfl⟩ := h
    exact (skipRangeEnd_suffix _).trans ((readBound_suffix _).trans
      ((skipToUpper_suffix _).trans (readBound_suffix _)))
  · simp at h

/-! ## Subqueries -/

/-- The tokens of a subquery after its start: all up to its end, or to the end of the query. -/
def subqueryBody (ts : List Token) : List Token :=
  ts.takeWhile fun t => t.kind != .subqueryEnd

/-- The tokens after a subquery. -/
def afterSubquery (ts : List Token) : List Token :=
  (ts.dropWhile fun t => t.kind != .subqueryEnd).drop 1

theorem afterSubquery_suffix (ts : List Token) : afterSubquery ts <:+ ts :=
  (List.drop_suffix _ _).trans (List.dropWhile_suffix _)

/-! ## Single marks -/

/-- The tokens without a number at the front, and the value that it carries. -/
def takeNumber : List Token → Option Number × List Token
  | [] => (none, [])
  | t :: rest => if t.kind = .number then (t.number?, rest) else (none, t :: rest)

/-- The tokens without an equals sign at the front, and whether there was one. -/
def takeEquals : List Token → Bool × List Token
  | [] => (false, [])
  | t :: rest => if t.kind = .equals then (true, rest) else (false, t :: rest)

/-- The tokens without a filter end at the front. -/
def dropFilterEnd : List Token → List Token
  | [] => []
  | t :: rest => if t.kind = .filterEnd then rest else t :: rest

theorem takeNumber_suffix (ts : List Token) : (takeNumber ts).2 <:+ ts := by
  cases ts with
  | nil => exact List.suffix_refl _
  | cons t rest =>
    rw [takeNumber]
    split
    · exact List.suffix_cons _ _
    · exact List.suffix_refl _

theorem takeEquals_suffix (ts : List Token) : (takeEquals ts).2 <:+ ts := by
  cases ts with
  | nil => exact List.suffix_refl _
  | cons t rest =>
    rw [takeEquals]
    split
    · exact List.suffix_cons _ _
    · exact List.suffix_refl _

theorem dropFilterEnd_suffix (ts : List Token) : dropFilterEnd ts <:+ ts := by
  cases ts with
  | nil => exact List.suffix_refl _
  | cons t rest =>
    rw [dropFilterEnd]
    split
    · exact List.suffix_cons _ _
    · exact List.suffix_refl _

end SearchLang.Query
