import SearchLang.Node.Basic

/-!
# Token forms

The tokens that write a tree, in the order of its text: a sign, the content,
then a boost and a fuzziness. An open side of a range is written as a wildcard.
A bound of a word range may be written as a word or as a phrase; `quoted` tells
which bounds are phrases.
-/

namespace SearchLang

/-- The tokens of a comparison; equality needs none. -/
def Comparison.tokens : Comparison → List Token
  | .eq => []
  | .gt => [.mark .greater]
  | .gte => [.mark .greater, .mark .equals]
  | .lt => [.mark .less]
  | .lte => [.mark .less, .mark .equals]

/-- The tokens of a leaf. -/
def Leaf.tokens : Leaf → List Token
  | word value wildcard => .ofText .word value :: if wildcard then [.mark .wildcard] else []
  | number value => [.ofNumber value]
  | text form value => [.ofText (.text form) value]

/-- The bracket of a range. -/
def Range.bracket {α : Type} (r : Range α) : Bracket :=
  if r.exclusive then .exclusive else .inclusive

/-- The tokens of a range, given the token of a bound. -/
def Range.tokens {α : Type} (bound : α → Token) (r : Range α) : List Token :=
  [.mark (.rangeStart r.bracket), (r.lower.map bound).getD (.mark .wildcard), .mark .upTo,
    (r.upper.map bound).getD (.mark .wildcard), .mark (.rangeEnd r.bracket)]

/-- The token of a bound of a word range. -/
def Token.ofWordBound (quoted : Text → Bool) (s : Text) : Token :=
  .ofText (if quoted s then .text .phrase else .word) s

/-- The tokens of a range by the type of its bounds. -/
def Interval.tokens (quoted : Text → Bool) : Interval → List Token
  | words r => r.tokens (.ofWordBound quoted)
  | numbers r => r.tokens .ofNumber
  | dates r => r.tokens (.ofText (.text .date))

namespace Modifiers

/-- The tokens in front of a node. -/
def leadTokens (m : Modifiers) : List Token :=
  match m.sign with
  | some sign => [.mark (.sign sign)]
  | none => []

/-- The tokens after a node. -/
def trailTokens (m : Modifiers) : List Token :=
  (match m.boost with
    | some boost => [.mark .boost, .ofNumber boost]
    | none => []) ++
  match m.fuzzy with
  | some fuzzy => [.mark .fuzzy, .ofNumber fuzzy]
  | none => []

@[simp] theorem leadTokens_empty : ({} : Modifiers).leadTokens = [] := rfl

@[simp] theorem trailTokens_empty : ({} : Modifiers).trailTokens = [] := rfl

end Modifiers

mutual

/-- The tokens of a node. -/
def Node.tokens (quoted : Text → Bool) : Node → List Token
  | .leaf l m => m.leadTokens ++ l.tokens ++ m.trailTokens
  | .range i m => m.leadTokens ++ i.tokens quoted ++ m.trailTokens
  | .filter field comparison value m =>
    m.leadTokens ++ .ofText .filterStart field ::
      (comparison.map Comparison.tokens).getD [] ++ value.tokens quoted ++
        .mark .filterEnd :: m.trailTokens
  | .subquery nodes m =>
    m.leadTokens ++ .mark .subqueryStart :: Node.tokensList quoted nodes ++
      .mark .subqueryEnd :: m.trailTokens

/-- The tokens of some nodes. -/
def Node.tokensList (quoted : Text → Bool) : List Node → List Token
  | [] => []
  | n :: rest => n.tokens quoted ++ Node.tokensList quoted rest

end

theorem Node.tokensList_cons (quoted : Text → Bool) (n : Node) (rest : List Node) :
    Node.tokensList quoted (n :: rest) = n.tokens quoted ++ Node.tokensList quoted rest := by
  rw [Node.tokensList]

theorem Node.tokensList_eq_flatMap (quoted : Text → Bool) (nodes : List Node) :
    Node.tokensList quoted nodes = nodes.flatMap (Node.tokens quoted) := by
  induction nodes with
  | nil => rw [Node.tokensList]; rfl
  | cons n rest ih => rw [Node.tokensList, ih]; rfl

end SearchLang
