import SearchLang.Token.Basic

/-!
# Bracketing

Filters, subqueries and ranges open and close brackets among the tokens of a
query. `Brackets.accepts` reads kinds from the front, with a record of what is
open, and tells whether each of them may stand where it does.
-/

namespace SearchLang

/-- Which brackets are open. -/
structure Brackets where
  filter : Bool := false
  subquery : Bool := false
  range : Option Bracket := none
  deriving DecidableEq, Repr

namespace Brackets

/-- Whether a kind may come next, given the kind before it and the kinds after it. A range must be
followed by the end of its filter. A subquery ends with its range open only if the query does. -/
def admits (o : Brackets) (before : Option Kind) (after : List Kind) : Kind → Bool
  | .filterStart => !o.filter && !o.subquery
  | .filterEnd => o.filter && (!o.subquery || before.any Kind.isRangeEnd)
  | .subqueryStart => !o.subquery && o.range.isNone
  | .subqueryEnd => o.subquery && (o.range.isNone || after == [.filterEnd])
  | .rangeStart _ => o.filter && o.range.isNone
  | .rangeEnd b => o.range == some b && after.head? == some .filterEnd
  | .upTo => o.range.isSome
  | .greater | .less => o.filter
  | .equals => before == some .greater || before == some .less
  | .boost | .fuzzy => o.range.isNone && (!o.filter || o.subquery)
  | _ => true

/-- What is open after a kind. -/
def next (o : Brackets) : Kind → Brackets
  | .filterStart => { o with filter := true }
  | .filterEnd => { o with filter := false }
  | .subqueryStart => { o with subquery := true }
  | .subqueryEnd => { o with subquery := false }
  | .rangeStart b => { o with range := some b }
  | .rangeEnd _ => { o with range := none }
  | _ => o

/-- Whether each kind may stand where it does, and no filter or subquery is left open. -/
def accepts (o : Brackets) (before : Option Kind) : List Kind → Bool
  | [] => !o.filter && !o.subquery
  | k :: rest => o.admits before rest k && (o.next k).accepts (some k) rest

@[simp] theorem accepts_nil (o : Brackets) (before : Option Kind) :
    o.accepts before [] = (!o.filter && !o.subquery) := rfl

theorem accepts_cons (o : Brackets) (before : Option Kind) (k : Kind) (rest : List Kind) :
    o.accepts before (k :: rest) =
      (o.admits before rest k && (o.next k).accepts (some k) rest) := rfl

end Brackets

end SearchLang
