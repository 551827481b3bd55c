import SearchLang.Query.Parse
import SearchLang.Token.Cursor

/-!
# Parsing with a cursor

The parser as it moves a cursor along the tokens. It looks at the next token,
moves past the tokens that it takes, and peeks further ahead only to see whether a
range has an end. Every reader gives what it read and the cursor that it leaves.
`Proofs.Cursor.Parse` shows that the nodes are those of `parseTokens`.
-/

namespace SearchLang.Cursor

open Query

/-! ## Single tokens -/

/-- Moves past the next token, if there is one, and gives it. -/
def bump (c : Cursor) : Option Token × Cursor :=
  match c.lookahead with
  | some _ => (c.moveNext.current, c.moveNext)
  | none => (none, c)

theorem bump_of_some {c : Cursor} {t : Token} (h : c.lookahead = some t) :
    c.bump = (some t, c.moveNext) := by
  simp [bump, h, current_moveNext]

theorem bump_of_none {c : Cursor} (h : c.lookahead = none) : c.bump = (none, c) := by
  simp [bump, h]

theorem remaining_bump_le (c : Cursor) : c.bump.2.remaining ≤ c.remaining := by
  unfold bump
  split
  · exact remaining_moveNext_le c
  · exact Nat.le_refl _

theorem remaining_bump_lt {c : Cursor} {t : Token} (h : c.lookahead = some t) :
    c.bump.2.remaining < c.remaining := by
  rw [bump_of_some h]
  exact remaining_moveNext_lt h

/-- Moves past the next token if it has a kind. -/
def skipNext (c : Cursor) (k : Kind) : Cursor :=
  if c.isNext k then c.bump.2 else c

theorem remaining_skipNext_le (c : Cursor) (k : Kind) : (c.skipNext k).remaining ≤ c.remaining := by
  unfold skipNext
  split
  · exact remaining_bump_le c
  · exact Nat.le_refl _

/-- Moves past a number, and gives the value that it carries. -/
def takeNumber (c : Cursor) : Option Number × Cursor :=
  if c.isNext .number then (c.bump.1.bind Token.number?, c.bump.2) else (none, c)

theorem remaining_takeNumber_le (c : Cursor) : c.takeNumber.2.remaining ≤ c.remaining := by
  unfold takeNumber
  split
  · exact remaining_bump_le c
  · exact Nat.le_refl _

/-! ## Leaves -/

/-- The leaf that a token stands for, which the cursor has moved past. -/
def readLeaf? (t : Token) (c : Cursor) : Option Leaf × Cursor :=
  match t.kind with
  | .word =>
    match t.text? with
    | some value => (some (.word value (c.isNext .wildcard)), c.skipNext .wildcard)
    | none => (none, c)
  | .number => (t.number?.map .number, c)
  | .text form => (t.text?.map (.text form), c)
  | _ => (none, c)

theorem remaining_readLeaf?_le (t : Token) (c : Cursor) :
    (readLeaf? t c).2.remaining ≤ c.remaining := by
  unfold readLeaf?
  split
  · split
    · exact remaining_skipNext_le c .wildcard
    · exact Nat.le_refl _
  all_goals exact Nat.le_refl _

/-! ## Ranges -/

/-- Peeks at one token after the other, from `next` on, up to one that decides whether the range
has an end. -/
def findRangeEnd (next : Option Token) (c : Cursor) : Bool × Cursor :=
  match next with
  | none => (false, c)
  | some t =>
    if t.kind.isRangeEnd then (true, c)
    else if endsSearch t then (false, c)
    else findRangeEnd c.peek.1 c.peek.2
termination_by c.tokens.length - (c.position + c.peeked) + if next.isSome then 1 else 0
decreasing_by
  unfold peek
  split
  · rename_i t' h
    have hin := (List.getElem?_eq_some_iff.mp h).1
    simp only [Option.isSome_some, if_true]
    omega
  · simp

/-- Whether a range end comes before anything that shows that there is none. What has been peeked
at on the way is forgotten. -/
def hasRangeEnd (c : Cursor) : Bool × Cursor :=
  ((findRangeEnd c.lookahead c).1, (findRangeEnd c.lookahead c).2.resetPeek)

theorem remaining_findRangeEnd (next : Option Token) (c : Cursor) :
    (findRangeEnd next c).2.remaining = c.remaining := by
  fun_induction findRangeEnd next c with
  | case1 | case2 | case3 => rfl
  | case4 c t _ _ ih =>
    rw [ih]
    unfold peek
    split <;> rfl

theorem remaining_hasRangeEnd (c : Cursor) : c.hasRangeEnd.2.remaining = c.remaining :=
  remaining_findRangeEnd c.lookahead c

theorem remaining_skipWhile_le (p : Token → Bool) (c : Cursor) :
    (c.skipWhile p).remaining ≤ c.remaining := by
  fun_induction skipWhile p c with
  | case1 c t h hp ih =>
    have hmove := remaining_moveNext_le c
    omega
  | case2 => exact Nat.le_refl _
  | case3 => exact Nat.le_refl _

/-- Reads one bound. A wildcard or the lack of a value leaves the side open. -/
def readBound (c : Cursor) : Option Leaf × Cursor :=
  match c.lookahead with
  | none => (none, c)
  | some t =>
    if t.kind = .wildcard then (none, c.bump.2)
    else if t.kind.isLeaf then readLeaf? t c.bump.2
    else (none, c)

theorem remaining_readBound_le (c : Cursor) : c.readBound.2.remaining ≤ c.remaining := by
  unfold readBound
  split
  · exact Nat.le_refl _
  · split
    · exact remaining_bump_le c
    · split
      · exact Nat.le_trans (remaining_readLeaf?_le _ _) (remaining_bump_le c)
      · exact Nat.le_refl _

/-- The cursor after the first `TO`, or before the first range end if that comes sooner. -/
def skipToUpper (c : Cursor) : Cursor :=
  (c.skipWhile fun t => t.kind != .upTo && !t.kind.isRangeEnd).skipNext .upTo

/-- The cursor after the first range end. -/
def skipRangeEnd (c : Cursor) : Cursor :=
  (c.skipWhile fun t => !t.kind.isRangeEnd).bump.2

/-- Reads a range after its start. A range without an end is none. -/
def readRange? (b : Bracket) (c : Cursor) : Option RangeReading × Cursor :=
  if c.hasRangeEnd.1 then
    let lower := c.hasRangeEnd.2.readBound
    let upper := lower.2.skipToUpper.readBound
    (some (.ofBounds lower.1 upper.1 (b == .exclusive)), upper.2.skipRangeEnd)
  else
    (none, c.hasRangeEnd.2)

theorem remaining_readRange?_le (b : Bracket) (c : Cursor) :
    (readRange? b c).2.remaining ≤ c.remaining := by
  have hend : c.hasRangeEnd.2.remaining = c.remaining := remaining_hasRangeEnd c
  unfold readRange?
  split
  · calc
      _ ≤ (skipWhile _ _).remaining := remaining_bump_le _
      _ ≤ (readBound _).2.remaining := remaining_skipWhile_le _ _
      _ ≤ (skipToUpper _).remaining := remaining_readBound_le _
      _ ≤ (skipWhile _ _).remaining := remaining_skipNext_le _ _
      _ ≤ (readBound _).2.remaining := remaining_skipWhile_le _ _
      _ ≤ c.hasRangeEnd.2.remaining := remaining_readBound_le _
      _ = c.remaining := hend
  · exact Nat.le_of_eq hend

/-! ## Modifiers -/

/-- Attaches the boosts and fuzzies that directly follow a node. -/
def attachModifiers (limits : Limits) (node : Node) (c : Cursor) : Node × Cursor :=
  match _h : c.lookahead with
  | none => (node, c)
  | some t =>
    match t.kind with
    | .boost =>
      let number := c.bump.2.takeNumber
      attachModifiers limits (node.withBoost (limits.boost number.1)) number.2
    | .fuzzy =>
      let number := c.bump.2.takeNumber
      let node := if node.supportsFuzzy then node.withFuzzy (limits.fuzzy number.1) else node
      attachModifiers limits node number.2
    | _ => (node, c)
termination_by c.remaining
decreasing_by
  all_goals
    exact Nat.lt_of_le_of_lt (remaining_takeNumber_le _) (remaining_bump_lt _h)

theorem remaining_attachModifiers_le (limits : Limits) (node : Node) (c : Cursor) :
    (attachModifiers limits node c).2.remaining ≤ c.remaining := by
  fun_induction attachModifiers limits node c with
  | case1 | case4 => exact Nat.le_refl _
  | case2 node c t h _ number ih | case3 node c t h _ number _ ih =>
    have hbump := remaining_bump_le c
    have hnumber : number.2.remaining ≤ c.bump.2.remaining := remaining_takeNumber_le c.bump.2
    omega

/-- Adds modifiers to the last of some nodes, if there is one. -/
def attachToLast (limits : Limits) : List Node → Cursor → List Node × Cursor
  | [], c => ([], c)
  | [n], c => ([(attachModifiers limits n c).1], (attachModifiers limits n c).2)
  | n :: ns, c => (n :: (attachToLast limits ns c).1, (attachToLast limits ns c).2)

theorem remaining_attachToLast_le (limits : Limits) (nodes : List Node) (c : Cursor) :
    (attachToLast limits nodes c).2.remaining ≤ c.remaining := by
  fun_induction attachToLast limits nodes c with
  | case1 => exact Nat.le_refl _
  | case2 n c => exact remaining_attachModifiers_le limits n c
  | case3 c n ns _ ih => exact ih

/-- What a reader makes of the tokens that it takes: nodes, the sign that waits for the next node,
and the cursor after it. -/
structure Progress where
  nodes : List Node
  sign : Option Sign
  cursor : Cursor

/-- Finishes new nodes: the first takes the waiting sign, the last the modifiers that follow. The
sign is spent even if there are no nodes. -/
def finish (limits : Limits) (sign : Option Sign) (nodes : List Node) (c : Cursor) : Progress :=
  let attached := attachToLast limits (signFirst sign nodes) c
  ⟨attached.1, none, attached.2⟩

theorem remaining_finish_le (limits : Limits) (sign : Option Sign) (nodes : List Node)
    (c : Cursor) : (finish limits sign nodes c).cursor.remaining ≤ c.remaining :=
  remaining_attachToLast_le limits _ c

/-! ## Subqueries and filters -/

/-- How the nodes of a subquery are read, up to its end. -/
structure BodyReader where
  read : Cursor → List Node × Cursor
  /-- The cursor never moves back. -/
  remaining_le : ∀ c, (read c).2.remaining ≤ c.remaining

/-- The node of a subquery; an empty one is dropped. -/
def subqueryNode? : List Node → Option Node
  | [] => none
  | nodes => some (.subquery nodes {})

/-- Reads a subquery after its start. -/
def readSubquery (body : BodyReader) (c : Cursor) : Option Node × Cursor :=
  (subqueryNode? (body.read c).1, (body.read c).2)

theorem remaining_readSubquery_le (body : BodyReader) (c : Cursor) :
    (readSubquery body c).2.remaining ≤ c.remaining :=
  body.remaining_le c

/-- The nodes of a filter, which has none if it has no value. -/
def filterNodes (field : Text) (comparison : Option Comparison) : Option Node → List Node
  | none => []
  | some value => [filterOn field comparison value]

/-- Reads a filter after its start, of which `value` has been read. Without a `body` there are no
subqueries, as inside of one. -/
def readFilter (body? : Option BodyReader) (field : Text) (sign : Option Sign)
    (comparison : Option Comparison) (value : Option Node) (c : Cursor) : Progress :=
  match _h : c.lookahead with
  | none => ⟨filterNodes field comparison value, sign, c⟩
  | some t =>
    if t.kind = .filterEnd then ⟨filterNodes field comparison value, sign, c.bump.2⟩
    else if value.isSome then ⟨filterNodes field comparison value, sign, c⟩
    else
      match t.kind with
      | .sign s => readFilter body? field (some s) comparison none c.bump.2
      | .greater =>
        readFilter body? field sign (some (comparisonOf true (c.bump.2.isNext .equals))) none
          (c.bump.2.skipNext .equals)
      | .less =>
        readFilter body? field sign (some (comparisonOf false (c.bump.2.isNext .equals))) none
          (c.bump.2.skipNext .equals)
      | .equals => readFilter body? field sign comparison none c.bump.2
      | .subqueryStart =>
        match body? with
        | none => ⟨[], sign, c⟩
        | some body =>
          let subquery := c.bump.2.readSubquery body
          readFilter body? field sign comparison subquery.1 subquery.2
      | .rangeStart b =>
        let range := c.bump.2.readRange? b
        match range.1 with
        | none => readFilter body? field sign comparison none range.2
        | some (.leaves ls) => ⟨ls.map .ofLeaf, sign, range.2.skipNext .filterEnd⟩
        | some (.interval i) =>
          readFilter body? field sign comparison (some (.ofInterval i)) range.2
      | k =>
        if k.isLeaf then
          let leaf := c.bump.2.readLeaf? t
          readFilter body? field sign comparison (leaf.1.map .ofLeaf) leaf.2
        else ⟨[], sign, c⟩
termination_by c.remaining
decreasing_by
  all_goals refine Nat.lt_of_le_of_lt ?_ (remaining_bump_lt _h)
  · exact Nat.le_refl _
  · exact remaining_skipNext_le _ _
  · exact remaining_skipNext_le _ _
  · exact Nat.le_refl _
  · exact remaining_readSubquery_le body _
  · exact remaining_readRange?_le b _
  · exact remaining_readRange?_le b _
  · exact remaining_readLeaf?_le t _

theorem remaining_readFilter_le (body? : Option BodyReader) (field : Text) (sign : Option Sign)
    (comparison : Option Comparison) (value : Option Node) (c : Cursor) :
    (readFilter body? field sign comparison value c).cursor.remaining ≤ c.remaining := by
  fun_induction readFilter body? field sign comparison value c with
  | case1 | case3 | case8 | case14 => exact Nat.le_refl _
  | case2 => exact remaining_bump_le _
  | case4 | case7 =>
    rename_i ih
    exact Nat.le_trans ih (remaining_bump_le _)
  | case5 | case6 =>
    rename_i ih
    exact Nat.le_trans ih (Nat.le_trans (remaining_skipNext_le _ _) (remaining_bump_le _))
  | case9 =>
    rename_i hbody _ ih
    subst hbody
    exact Nat.le_trans ih (Nat.le_trans (remaining_readSubquery_le _ _) (remaining_bump_le _))
  | case11 =>
    exact Nat.le_trans (remaining_skipNext_le _ _)
      (Nat.le_trans (remaining_readRange?_le _ _) (remaining_bump_le _))
  | case10 | case12 =>
    rename_i ih
    exact Nat.le_trans ih (Nat.le_trans (remaining_readRange?_le _ _) (remaining_bump_le _))
  | case13 =>
    rename_i ih
    exact Nat.le_trans ih (Nat.le_trans (remaining_readLeaf?_le _ _) (remaining_bump_le _))

/-! ## Sequences -/

/-- Handles the token `t`, which the cursor has moved past. -/
def step (limits : Limits) (body? : Option BodyReader) (sign : Option Sign) (t : Token)
    (c : Cursor) : Progress :=
  match t.kind with
  | .sign s => ⟨[], some s, c⟩
  | .and | .or | .subqueryEnd => ⟨[], sign, c⟩
  | .subqueryStart =>
    match body? with
    | none => ⟨[], sign, c⟩
    | some body =>
      let subquery := c.readSubquery body
      finish limits sign subquery.1.toList subquery.2
  | .filterStart =>
    let filter := readFilter body? (t.text?.getD []) sign none none c
    finish limits filter.sign filter.nodes filter.cursor
  | .rangeStart b =>
    let range := c.readRange? b
    match range.1 with
    | none => ⟨[], sign, range.2⟩
    | some reading => finish limits sign reading.nodes range.2
  | .boost | .fuzzy => ⟨[], sign, c.skipNext .number⟩
  | _ =>
    let leaf := c.readLeaf? t
    match leaf.1 with
    | none => ⟨[], sign, leaf.2⟩
    | some l => finish limits sign [.ofLeaf l] leaf.2

theorem remaining_step_le (limits : Limits) (body? : Option BodyReader) (sign : Option Sign)
    (t : Token) (c : Cursor) : (step limits body? sign t c).cursor.remaining ≤ c.remaining := by
  unfold step
  split
  · exact Nat.le_refl _
  · exact Nat.le_refl _
  · exact Nat.le_refl _
  · exact Nat.le_refl _
  · split
    · exact Nat.le_refl _
    · exact Nat.le_trans (remaining_finish_le _ _ _ _) (remaining_readSubquery_le _ c)
  · exact Nat.le_trans (remaining_finish_le _ _ _ _) (remaining_readFilter_le _ _ _ _ _ c)
  · dsimp only
    split
    · exact remaining_readRange?_le _ c
    · exact Nat.le_trans (remaining_finish_le _ _ _ _) (remaining_readRange?_le _ c)
  · exact remaining_skipNext_le c .number
  · exact remaining_skipNext_le c .number
  · dsimp only
    split
    · exact remaining_readLeaf?_le t c
    · exact Nat.le_trans (remaining_finish_le _ _ _ _) (remaining_readLeaf?_le t c)

/-- Reads nodes, with a sign waiting for the first, to the end of the tokens. Inside a subquery,
where there is no `body`, reading stops after the end of the subquery. -/
def sequence (limits : Limits) (body? : Option BodyReader) (sign : Option Sign) (c : Cursor) :
    List Node × Cursor :=
  match _h : c.lookahead with
  | none => ([], c)
  | some t =>
    if t.kind = .subqueryEnd ∧ body?.isNone then ([], c.bump.2)
    else
      let p := step limits body? sign t c.bump.2
      let rest := sequence limits body? p.sign p.cursor
      (p.nodes ++ rest.1, rest.2)
termination_by c.remaining
decreasing_by exact Nat.lt_of_le_of_lt (remaining_step_le _ _ _ _ _) (remaining_bump_lt _h)

theorem remaining_sequence_le (limits : Limits) (body? : Option BodyReader) (sign : Option Sign)
    (c : Cursor) : (sequence limits body? sign c).2.remaining ≤ c.remaining := by
  fun_induction sequence limits body? sign c with
  | case1 => exact Nat.le_refl _
  | case2 sign c t h hend => exact remaining_bump_le c
  | case3 sign c t h hend p rest ih =>
    have hbump := remaining_bump_le c
    have hstep : p.cursor.remaining ≤ c.bump.2.remaining := remaining_step_le _ _ _ _ _
    exact Nat.le_trans ih (Nat.le_trans hstep hbump)

/-- The nodes of a subquery are those up to its end. -/
def subqueryReader (limits : Limits) : BodyReader where
  read := sequence limits none none
  remaining_le := remaining_sequence_le limits none none

/-- The nodes of all tokens of a cursor, wherever it stands. -/
def parse (limits : Limits) (c : Cursor) : List Node :=
  (sequence limits (some (subqueryReader limits)) none c.reset.moveNext).1

end SearchLang.Cursor
