import SearchLang.Node.Render
import SearchLang.Query.Parse
import SearchLang.Token.Scan

/-!
# Queries

A query is the list of nodes that a text stands for. Any text is a query: what
is malformed loses its meaning and nothing else. A checked query must not be
longer than the limits allow. A query parser holds limits that were repaired, and
reads any number of queries with them.
-/

namespace SearchLang

/-- The nodes of a query, in the order of the text. -/
abbrev Query := List Node

/-- Why a text is refused as a query. -/
inductive QueryError where
  | inputTooLong (length max : Nat)
  deriving DecidableEq, Repr

/-- The message for a refused text. -/
def QueryError.message : QueryError → Text
  | .inputTooLong length max =>
    "query is ".toList ++ Decimal.digits length ++ " bytes long, at most ".toList ++
      Decimal.digits max ++ " are allowed".toList

namespace Query

/-- The query that a text stands for. -/
def parse (limits : Limits) (q : Text) : Query :=
  parseTokens limits (scan q)

/-- The query that a text stands for, unless the text is too long. -/
def parseChecked (limits : Limits) (q : Text) : Except QueryError Query :=
  if limits.maxInputLength < Text.byteLength q then
    .error (.inputTooLong (Text.byteLength q) limits.maxInputLength)
  else
    .ok (parse limits q)

/-- The text of a query. -/
def render (query : Query) : Text :=
  Node.renderList query

/-- The nodes of one type. -/
def ofTag (query : Query) (tag : Tag) : List Node :=
  query.filter fun n => n.tag == tag

/-- Whether anything can match: a query of prohibited nodes alone matches nothing. -/
def hasMatchable (query : Query) : Bool :=
  query.any fun n => !n.isProhibited

theorem parseChecked_eq_ok_iff {limits : Limits} {q : Text} {query : Query} :
    parseChecked limits q = .ok query ↔
      Text.byteLength q ≤ limits.maxInputLength ∧ parse limits q = query := by
  unfold parseChecked
  split
  · simp; omega
  · simp; omega

end Query

/-- What reads queries, with one set of limits. -/
structure QueryParser where
  limits : Limits := {}

namespace QueryParser

/-- The parser that keeps to some limits, once they are repaired. -/
def withLimits (l : Limits) : QueryParser :=
  ⟨l.validate⟩

/-- The query that a text stands for. -/
def parse (p : QueryParser) (q : Text) : Query :=
  Query.parse p.limits q

/-- The query that a text stands for, unless the text is too long. -/
def parseChecked (p : QueryParser) (q : Text) : Except QueryError Query :=
  Query.parseChecked p.limits q

end QueryParser

end SearchLang
