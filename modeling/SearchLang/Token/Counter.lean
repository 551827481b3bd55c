import Mathlib.Logic.Function.Iterate
import SearchLang.Token.Cursor

/-!
# Counting the calls on a cursor

What a cursor shows depends on two numbers alone: how often it has moved on since
it was last reset, and how many tokens it has peeked at since it last forgot them.
`Counter` keeps these numbers beside a run of calls, and `Counter.cursor` is the
cursor that they describe.
-/

namespace SearchLang

namespace Cursor

/-- A call that moves a cursor or looks ahead. -/
inductive Call where
  | moveNext
  | reset
  | peek
  | glimpse
  | resetPeek
  | skipUntil (k : Kind)
  deriving DecidableEq, Repr

/-- The cursor after a call. -/
def after (c : Cursor) : Call → Cursor
  | .moveNext => c.moveNext
  | .reset => c.reset
  | .peek => c.peek.2
  | .glimpse => c.glimpse.2
  | .resetPeek => c.resetPeek
  | .skipUntil k => c.skipUntil k

/-- The cursor after some calls. -/
def run (c : Cursor) (calls : List Call) : Cursor :=
  calls.foldl after c

/-- How often `skipWhile` moves on. -/
def skipCount (p : Token → Bool) (c : Cursor) : Nat :=
  match _h : c.lookahead with
  | some t => if p t then skipCount p c.moveNext + 1 else 0
  | none => 0
termination_by c.remaining
decreasing_by exact remaining_moveNext_lt _h

/-- Every place that the cursor holds is one in its tokens. -/
structure InBounds (c : Cursor) : Prop where
  position : c.position ≤ c.tokens.length
  current : ∀ i ∈ c.currentAt, i < c.tokens.length
  lookahead : ∀ i ∈ c.lookaheadAt, i < c.tokens.length

/-- Two cursors have the same current token and the same lookahead. -/
structure InPlace (c c' : Cursor) : Prop where
  current : c'.current = c.current
  lookahead : c'.lookahead = c.lookahead

end Cursor

/-- How far a cursor has got. -/
structure Counter where
  /-- How often it has moved on since it was last reset, also past the end of the tokens. -/
  advances : Nat := 0
  /-- How many tokens it has peeked at since it last forgot them. -/
  peeks : Nat := 0
  deriving DecidableEq, Repr

namespace Counter

/-- One move is counted. -/
def advance (n : Counter) : Counter :=
  ⟨n.advances + 1, 0⟩

/-- A call on the cursor `c` is counted: each move that it makes, and a peek that finds a token. -/
def count (n : Counter) (c : Cursor) : Cursor.Call → Counter
  | .moveNext => n.advance
  | .reset => {}
  | .peek => if c.peek.1.isSome then { n with peeks := n.peeks + 1 } else n
  | .glimpse | .resetPeek => { n with peeks := 0 }
  | .skipUntil k => advance^[c.skipCount fun t => t.kind != k] n

/-- Some calls on the cursor `c` are counted. -/
def countAll (n : Counter) (c : Cursor) : List Cursor.Call → Counter
  | [] => n
  | call :: calls => (n.count c call).countAll (c.after call) calls

/-- The place that is `back` places behind as many tokens as the cursor has moved on, if there is
a token. -/
def place (n : Counter) (tokens : List Token) (back : Nat) : Option Nat :=
  if back ≤ n.advances ∧ n.advances - back < tokens.length then some (n.advances - back) else none

/-- The cursor that has got as far as the counter says. -/
def cursor (n : Counter) (tokens : List Token) : Cursor where
  tokens := tokens
  position := min n.advances tokens.length
  peeked := n.peeks
  currentAt := n.place tokens 2
  lookaheadAt := n.place tokens 1

/-- The tokens from the lookahead on. -/
def ahead (n : Counter) (tokens : List Token) : List Token :=
  if 1 ≤ n.advances then tokens.drop (n.advances - 1) else []

/-- What a cursor shows is what the counter says. -/
structure Shows (n : Counter) (tokens : List Token) (c : Cursor) : Prop where
  current : c.current = if 2 ≤ n.advances then tokens[n.advances - 2]? else none
  lookahead : c.lookahead = if 1 ≤ n.advances then tokens[n.advances - 1]? else none
  peek : c.peek.1 = tokens[min n.advances tokens.length + n.peeks]?
  glimpse : c.glimpse.1 = tokens[min n.advances tokens.length + n.peeks]?

/-- Where `skipUntil` stops, as the counter says. -/
structure Skips (n : Counter) (tokens : List Token) (c : Cursor) (k : Kind) : Prop where
  /-- It moves on, as often as it has been counted to. -/
  moves : c.skipUntil k = Cursor.moveNext^[c.skipCount fun t => t.kind != k] c
  /-- It passes the tokens before the first one of the kind. -/
  passes : (c.skipCount fun t => t.kind != k) =
    ((n.ahead tokens).takeWhile fun t => t.kind != k).length
  /-- It stops at that token, or with no token left. -/
  stops : (c.skipUntil k).lookahead = (n.ahead tokens).find? fun t => t.kind == k
  /-- It does nothing if there is no next token. -/
  stays : c.lookahead.isSome ∨ c.skipUntil k = c

end Counter

end SearchLang
