import Mathlib.Logic.Relation
import SearchLang.Query.Cursor

/-!
# The loops of parsing

Parsing with a cursor is a matter of loops: over the nodes of a query or of a
subquery, over the tokens of a filter, and inside of these over modifiers, over the
tokens that a range skips and over those that it peeks at. Here each loop is given by
what one turn of it does. The first two call each other, as a filter stands in a
sequence and a subquery in either, so that their turns are those of one machine, which
keeps what waits for the end of a subquery. `Proofs.Cursor.Machine` shows that the
loops end, and that they read what `Query.Cursor` reads.
-/

namespace SearchLang

/-! ## Loops -/

namespace Loop

variable {σ α : Type}

/-- What one turn of a loop comes to: it leaves the loop with a result, or goes on. -/
inductive Turn (σ α : Type) where
  | leave (result : α)
  | again (state : σ)

/-- A loop ends with a result, after some number of turns. -/
inductive Ends (turn : σ → Turn σ α) : σ → Nat → α → Prop
  | leave {s : σ} {a : α} : turn s = .leave a → Ends turn s 1 a
  | again {s s' : σ} {n : Nat} {a : α} :
    turn s = .again s' → Ends turn s' n a → Ends turn s (n + 1) a

/-- Any number of turns of a loop lead from one state to another. -/
def Reaches (turn : σ → Turn σ α) : σ → σ → Prop :=
  Relation.ReflTransGen fun s s' => turn s = .again s'

end Loop

namespace Cursor

open Loop Query

/-- One cursor comes out of another by moving past some tokens, one after the other. -/
inductive Passes : Cursor → List Token → Cursor → Prop
  | nil (c : Cursor) : Passes c [] c
  | cons {c c' : Cursor} {t : Token} {ts : List Token} :
    c.lookahead = some t → Passes c.moveNext ts c' → Passes c (t :: ts) c'

/-! ## Loops that call nothing -/

/-- One turn of skipping tokens. -/
def skipTurn (p : Token → Bool) (c : Cursor) : Turn Cursor Cursor :=
  match c.lookahead with
  | some t => if p t then .again c.bump.2 else .leave c
  | none => .leave c

/-- One turn of looking for the end of a range. -/
def searchTurn (s : Option Token × Cursor) : Turn (Option Token × Cursor) (Bool × Cursor) :=
  match s.1 with
  | none => .leave (false, s.2)
  | some t =>
    if t.kind.isRangeEnd then .leave (true, s.2)
    else if endsSearch t then .leave (false, s.2)
    else .again s.2.peek

/-- One turn of attaching modifiers to a node. -/
def modifierTurn (limits : Limits) (s : Node × Cursor) : Turn (Node × Cursor) (Node × Cursor) :=
  match s.2.lookahead with
  | none => .leave s
  | some t =>
    let number := s.2.bump.2.takeNumber
    match t.kind with
    | .boost => .again (s.1.withBoost (limits.boost number.1), number.2)
    | .fuzzy =>
      .again (if s.1.supportsFuzzy then s.1.withFuzzy (limits.fuzzy number.1) else s.1, number.2)
    | _ => .leave s

/-! ## Sequences and filters -/

/-- What has been read of a filter. -/
structure OpenFilter where
  field : Text
  comparison : Option Comparison := none
  value : Option Node := none

/-- A loop over the nodes of a sequence: those so far, the sign that waits for the next one, and
the filter that is being read, if it is one. -/
structure Level where
  nodes : List Node := []
  sign : Option Sign := none
  filter : Option OpenFilter := none

/-- The state of the parser: where it stands, whether it is inside of a subquery, the sequence that
it reads, and the sequences that wait for the end of that one, the innermost first. -/
structure Machine where
  cursor : Cursor
  inSubquery : Bool := false
  level : Level := {}
  outer : List Level := []

namespace Machine

/-- The machine before all tokens of a cursor, wherever it stands. -/
def start (c : Cursor) : Machine :=
  { cursor := c.reset.moveNext }

/-- Adds nodes to the sequence. A filter that was being read is over. -/
def add (m : Machine) (p : Progress) : Machine :=
  { m with cursor := p.cursor, level := ⟨m.level.nodes ++ p.nodes, p.sign, none⟩ }

/-- Goes on with a filter. -/
def inFilter (m : Machine) (f : OpenFilter) (sign : Option Sign) (c : Cursor) : Machine :=
  { m with cursor := c, level := ⟨m.level.nodes, sign, some f⟩ }

/-- Starts a subquery, for which the sequence waits. -/
def enter (m : Machine) (c : Cursor) : Machine :=
  ⟨c, true, {}, m.level :: m.outer⟩

/-- Takes the node of a subquery, as a value or as the next of the sequence. -/
def takeSubquery (limits : Limits) (m : Machine) (node : Option Node) : Machine :=
  match m.level.filter with
  | none => m.add (finish limits m.level.sign node.toList m.cursor)
  | some f => m.inFilter { f with value := node } m.level.sign m.cursor

/-- Leaves the loop over a sequence. -/
def leaveSequence (limits : Limits) (m : Machine) (c : Cursor) :
    Turn Machine (List Node × Cursor) :=
  match m.outer with
  | [] => .leave (m.level.nodes, c)
  | l :: outer =>
    .again ((⟨c, false, l, outer⟩ : Machine).takeSubquery limits (subqueryNode? m.level.nodes))

/-- Leaves the loop over a filter. -/
def leaveFilter (limits : Limits) (m : Machine) (nodes : List Node) (c : Cursor) :
    Turn Machine (List Node × Cursor) :=
  .again (m.add (finish limits m.level.sign nodes c))

/-- One turn of the loop over a sequence. Inside of a subquery an end leaves it and a start means
nothing, and outside it is the other way round. -/
def sequenceTurn (limits : Limits) (m : Machine) : Turn Machine (List Node × Cursor) :=
  match m.cursor.lookahead with
  | none => m.leaveSequence limits m.cursor
  | some t =>
    let c := m.cursor.bump.2
    match t.kind, m.inSubquery with
    | .subqueryEnd, true => m.leaveSequence limits c
    | .subqueryStart, false => .again (m.enter c)
    | .filterStart, _ => .again (m.inFilter { field := t.text?.getD [] } m.level.sign c)
    | _, _ => .again (m.add (step limits none m.level.sign t c))

/-- One turn of the loop over a filter. -/
def filterTurn (limits : Limits) (m : Machine) (f : OpenFilter) :
    Turn Machine (List Node × Cursor) :=
  let nodes := filterNodes f.field f.comparison f.value
  let sign := m.level.sign
  match m.cursor.lookahead with
  | none => m.leaveFilter limits nodes m.cursor
  | some t =>
    let c := m.cursor.bump.2
    let compared (greater : Bool) : Machine :=
      let comparison := comparisonOf greater (c.isNext .equals)
      m.inFilter { f with comparison := some comparison } sign (c.skipNext .equals)
    if t.kind = .filterEnd then m.leaveFilter limits nodes c
    else if f.value.isSome then m.leaveFilter limits nodes m.cursor
    else
      match t.kind with
      | .sign s => .again (m.inFilter f (some s) c)
      | .greater => .again (compared true)
      | .less => .again (compared false)
      | .equals => .again (m.inFilter f sign c)
      | .subqueryStart =>
        if m.inSubquery then m.leaveFilter limits nodes m.cursor else .again (m.enter c)
      | .rangeStart b =>
        let range := c.readRange? b
        match range.1 with
        | none => .again (m.inFilter f sign range.2)
        | some (.leaves ls) => m.leaveFilter limits (ls.map .ofLeaf) (range.2.skipNext .filterEnd)
        | some (.interval i) =>
          .again (m.inFilter { f with value := some (.ofInterval i) } sign range.2)
      | k =>
        if k.isLeaf then
          let leaf := c.readLeaf? t
          .again (m.inFilter { f with value := leaf.1.map .ofLeaf } sign leaf.2)
        else m.leaveFilter limits nodes m.cursor

/-- One turn of the innermost loop. -/
def turn (limits : Limits) (m : Machine) : Turn Machine (List Node × Cursor) :=
  match m.level.filter with
  | none => m.sequenceTurn limits
  | some f => m.filterTurn limits f

end Machine

/-- How many loops a sequence is in: its own, and one more while it reads a filter. -/
def Level.loops (l : Level) : Nat :=
  1 + l.filter.isSome.toNat

/-- How many loops the parser is in. -/
def Machine.loops (m : Machine) : Nat :=
  m.level.loops + m.outer.foldr (fun l n => l.loops + n) 0

end Cursor

end SearchLang
