import SearchLang.Node.Basic
import SearchLang.Token.Pattern

/-!
# Rendering

The text of a tree in the language of queries. A bound of a word range that
would be read as something else is written between quotes.
-/

namespace SearchLang

/-- The mark of a sign in front of a node. -/
def Sign.mark : Sign → Char
  | .required => '+'
  | .prohibited => '-'

/-- The mark of a comparison; equality needs none. -/
def Comparison.mark : Comparison → Text
  | .eq => []
  | .gt => ['>']
  | .gte => ['>', '=']
  | .lt => ['<']
  | .lte => ['<', '=']

/-- The text of a range, given the text of a bound. -/
def Range.render {α : Type} (bound : α → Text) (r : Range α) : Text :=
  (if r.exclusive then '{' else '[') :: (r.lower.map bound).getD ['*'] ++ " TO ".toList ++
    (r.upper.map bound).getD ['*'] ++ [if r.exclusive then '}' else ']']

/-- A character that keeps a word from being written as a bare bound. -/
def breaksBound (c : Char) : Bool :=
  Text.isSpace c ||
    ['(', ')', '[', ']', '{', '}', '<', '>', '^', '~', '=', '\\', '"', '*'].contains c

/-- The words that mean something else between brackets. -/
def isKeywordText (s : Text) : Bool :=
  let upper := Text.toUpperAscii s
  upper == ['T', 'O'] || upper == ['A', 'N', 'D'] || upper == ['O', 'R']

/-- Whether a word written bare as a bound reads back as the same word. -/
def isBareBound (s : Text) : Bool :=
  match s.head?, s.getLast? with
  | some first, some last =>
    Text.isAlphanumeric first && Text.isAlphanumeric last && (Text.splitAtDots s).isNone &&
      !s.any breaksBound && !isKeywordText s && !Decimal.isLiteral s && !Pattern.isDate s
  | _, _ => false

/-- The text of a word bound. Quotes cannot stand between quotes, so a word that holds one is
written as it is. -/
def renderWordBound (s : Text) : Text :=
  if isBareBound s || s.contains '"' then s else '"' :: s ++ ['"']

/-- The text of a range by the type of its bounds. -/
def Interval.render : Interval → Text
  | words r => r.render renderWordBound
  | numbers r => r.render Number.display
  | dates r => r.render id

/-- The text of a leaf. -/
def Leaf.render : Leaf → Text
  | word value wildcard => if wildcard then value ++ ['*'] else value
  | number value => value.display
  | text .phrase value => '"' :: value ++ ['"']
  | text .hashtag value => '#' :: value
  | text .mention value => '@' :: value
  | text _ value => value

namespace Modifiers

/-- What a node starts with. -/
def lead (m : Modifiers) : Text :=
  match m.sign with
  | some sign => [sign.mark]
  | none => []

/-- What a node ends with. -/
def trail (m : Modifiers) : Text :=
  (match m.boost with
    | some boost => '^' :: boost.display
    | none => []) ++
  match m.fuzzy with
  | some fuzzy => '~' :: fuzzy.display
  | none => []

end Modifiers

mutual

/-- The text of a node. -/
def Node.render : Node → Text
  | .leaf l m => m.lead ++ l.render ++ m.trail
  | .range i m => m.lead ++ i.render ++ m.trail
  | .filter field comparison value m =>
    m.lead ++ field ++ ':' :: (comparison.map Comparison.mark).getD [] ++ value.render ++ m.trail
  | .subquery nodes m => m.lead ++ '(' :: Node.renderList nodes ++ ')' :: m.trail

/-- The text of some nodes, with a space between neighbours. -/
def Node.renderList : List Node → Text
  | [] => []
  | [n] => n.render
  | n :: rest => n.render ++ ' ' :: Node.renderList rest

end

@[simp] theorem Node.renderList_nil : Node.renderList [] = [] := by
  rw [Node.renderList]

@[simp] theorem Node.renderList_singleton (n : Node) : Node.renderList [n] = n.render := by
  rw [Node.renderList]

theorem Node.renderList_cons_cons (n m : Node) (rest : List Node) :
    Node.renderList (n :: m :: rest) = n.render ++ ' ' :: Node.renderList (m :: rest) := by
  rw [Node.renderList]
  simp

theorem Node.renderList_eq_join (nodes : List Node) :
    Node.renderList nodes = Text.join [' '] (nodes.map Node.render) := by
  induction nodes with
  | nil => rw [Node.renderList_nil]; rfl
  | cons n rest ih =>
    cases rest with
    | nil => rw [Node.renderList_singleton]; rfl
    | cons m rest =>
      rw [Node.renderList_cons_cons, ih]
      exact (Text.join_cons_cons [' '] n.render m.render (rest.map Node.render)).symm

end SearchLang
