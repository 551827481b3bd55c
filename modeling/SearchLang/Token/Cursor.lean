import SearchLang.Token.Basic

/-!
# Cursors

A cursor stands in a list of tokens between the current token, the last one it
moved past, and the lookahead, the next one. It holds places in the list and not
the tokens themselves. Peeking looks at the tokens after the lookahead, one
further each time, without moving the cursor.
-/

namespace SearchLang

/-- A cursor. A new one stands before the first token and has looked at none. -/
structure Cursor where
  /-- All tokens. -/
  tokens : List Token
  /-- The place after the lookahead, or the end of the tokens. -/
  position : Nat := 0
  /-- How many tokens from `position` on have been peeked at. -/
  peeked : Nat := 0
  /-- The place of the last token moved past. -/
  currentAt : Option Nat := none
  /-- The place of the next token. -/
  lookaheadAt : Option Nat := none
  deriving DecidableEq, Repr

namespace Cursor

/-- The cursor before the first token. -/
def ofTokens (tokens : List Token) : Cursor :=
  { tokens }

/-- The number of tokens. -/
def size (c : Cursor) : Nat :=
  c.tokens.length

/-- Whether there are no tokens. -/
def isEmpty (c : Cursor) : Bool :=
  c.tokens.isEmpty

/-- The last token moved past. -/
def current (c : Cursor) : Option Token :=
  c.currentAt.bind fun i => c.tokens[i]?

/-- The next token. -/
def lookahead (c : Cursor) : Option Token :=
  c.lookaheadAt.bind fun i => c.tokens[i]?

/-- Back to before the first token. -/
def reset (c : Cursor) : Cursor :=
  ofTokens c.tokens

/-- Moves on by one token. At the end of the tokens only the places of the current token and of
the lookahead move. -/
def moveNext (c : Cursor) : Cursor :=
  let moved := { c with peeked := 0, currentAt := c.lookaheadAt }
  if c.position < c.tokens.length then
    { moved with position := c.position + 1, lookaheadAt := some c.position }
  else
    { moved with lookaheadAt := none }

/-- Whether the next token has a kind. -/
def isNext (c : Cursor) (k : Kind) : Bool :=
  c.lookahead.any fun t => t.kind == k

/-- Whether the next token has one of some kinds. -/
def isNextAny (c : Cursor) (ks : List Kind) : Bool :=
  c.lookahead.any fun t => ks.contains t.kind

/-- Whether the current token has a kind. -/
def currentIs (c : Cursor) (k : Kind) : Bool :=
  c.current.any fun t => t.kind == k

/-- The token after those peeked at so far, and the cursor that has peeked at it as well. -/
def peek (c : Cursor) : Option Token × Cursor :=
  match c.tokens[c.position + c.peeked]? with
  | some t => (some t, { c with peeked := c.peeked + 1 })
  | none => (none, c)

/-- Forgets what has been peeked at. -/
def resetPeek (c : Cursor) : Cursor :=
  { c with peeked := 0 }

/-- Peeks at one token and forgets what has been peeked at. -/
def glimpse (c : Cursor) : Option Token × Cursor :=
  (c.tokens[c.position + c.peeked]?, c.resetPeek)

/-! ## Progress -/

/-- How often a cursor can still move on before there is no next token. -/
def remaining (c : Cursor) : Nat :=
  c.tokens.length - c.position + if c.lookaheadAt.isSome then 1 else 0

theorem remaining_moveNext_le (c : Cursor) : c.moveNext.remaining ≤ c.remaining := by
  unfold moveNext remaining
  by_cases hend : c.position < c.tokens.length
  · simp only [if_pos hend, Option.isSome_some, if_true]
    omega
  · simp only [if_neg hend, Option.isSome_none, Bool.false_eq_true, if_false]
    omega

/-- Moving past a token is progress. -/
theorem remaining_moveNext_lt {c : Cursor} {t : Token} (h : c.lookahead = some t) :
    c.moveNext.remaining < c.remaining := by
  have hplace : c.lookaheadAt.isSome = true := by
    obtain ⟨i, hi, -⟩ := Option.bind_eq_some_iff.mp h
    simp [hi]
  unfold moveNext remaining
  by_cases hend : c.position < c.tokens.length
  · simp only [if_pos hend, hplace, Option.isSome_some, if_true]
    omega
  · simp only [if_neg hend, hplace, Option.isSome_none, Bool.false_eq_true, if_true, if_false]
    omega

/-- Moves on while the next token satisfies a condition, or to the end. -/
def skipWhile (p : Token → Bool) (c : Cursor) : Cursor :=
  match _h : c.lookahead with
  | some t => if p t then skipWhile p c.moveNext else c
  | none => c
termination_by c.remaining
decreasing_by exact remaining_moveNext_lt _h

/-- Moves on until the next token has the kind, or to the end. -/
def skipUntil (c : Cursor) (k : Kind) : Cursor :=
  c.skipWhile fun t => t.kind != k

/-! ## Laws -/

theorem skipWhile_of_none (p : Token → Bool) {c : Cursor} (h : c.lookahead = none) :
    c.skipWhile p = c := by
  rw [skipWhile]
  split
  · rename_i t ht
    rw [h] at ht
    cases ht
  · rfl

theorem skipWhile_of_some (p : Token → Bool) {c : Cursor} {t : Token} (h : c.lookahead = some t) :
    c.skipWhile p = if p t then c.moveNext.skipWhile p else c := by
  rw [skipWhile]
  split
  · rename_i t' ht
    rw [h] at ht
    cases ht
    rfl
  · rename_i hnone
    rw [h] at hnone
    cases hnone

@[simp] theorem tokens_ofTokens (tokens : List Token) : (ofTokens tokens).tokens = tokens := rfl

/-- The token moved past becomes the current one. -/
theorem current_moveNext (c : Cursor) : c.moveNext.current = c.lookahead := by
  unfold moveNext
  split <;> rfl

theorem lookahead_moveNext (c : Cursor) : c.moveNext.lookahead = c.tokens[c.position]? := by
  unfold moveNext
  split
  · rfl
  · rename_i hend
    exact (List.getElem?_eq_none (Nat.le_of_not_lt hend)).symm

@[simp] theorem current_peek (c : Cursor) : c.peek.2.current = c.current := by
  unfold peek
  split <;> rfl

@[simp] theorem lookahead_peek (c : Cursor) : c.peek.2.lookahead = c.lookahead := by
  unfold peek
  split <;> rfl

theorem fst_peek (c : Cursor) : c.peek.1 = c.tokens[c.position + c.peeked]? := by
  unfold peek
  split
  · rename_i t h
    exact h.symm
  · rename_i h
    exact h.symm

/-! ## What is left of the tokens -/

/-- The cursor stands before some tokens: the first of them is the lookahead, and peeking starts
with the second. -/
structure Before (c : Cursor) (ts : List Token) : Prop where
  lookahead : c.lookahead = ts.head?
  after : c.tokens.drop c.position = ts.tail

theorem Before.moveNext {c : Cursor} {ts : List Token} (h : c.Before ts) :
    c.moveNext.Before ts.tail where
  lookahead := by rw [lookahead_moveNext, ← h.after, List.head?_drop]
  after := by
    have hafter := h.after
    unfold Cursor.moveNext
    split
    · rw [← hafter]
      simp
    · rename_i hend
      rw [List.drop_of_length_le (Nat.le_of_not_lt hend)] at hafter
      simp [← hafter, List.drop_of_length_le (Nat.le_of_not_lt hend)]

/-- A cursor at the start stands before all tokens once it has moved on. -/
theorem before_reset_moveNext (c : Cursor) : c.reset.moveNext.Before c.tokens := by
  refine ⟨?_, ?_⟩
  · rw [lookahead_moveNext, List.head?_eq_getElem?]
    rfl
  · unfold Cursor.moveNext
    split
    · simp [reset, ofTokens]
    · rename_i hend
      have hnil : c.tokens = [] :=
        List.length_eq_zero_iff.mp (Nat.le_zero.mp (Nat.le_of_not_lt hend))
      simp [reset, hnil]

theorem Before.skipWhile (p : Token → Bool) {c : Cursor} {ts : List Token} (h : c.Before ts) :
    (c.skipWhile p).Before (ts.dropWhile p) := by
  induction ts generalizing c with
  | nil =>
    rw [skipWhile_of_none p h.lookahead]
    exact h
  | cons t ts ih =>
    rw [skipWhile_of_some p h.lookahead]
    cases hp : p t with
    | true => simpa [hp] using ih h.moveNext
    | false => simpa [hp] using h

end Cursor

end SearchLang
