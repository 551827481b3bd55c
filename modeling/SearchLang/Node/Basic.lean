import SearchLang.Token.Basic

/-!
# Query trees

A query is a list of nodes. A node is a leaf, a range, a filter on a field or a
subquery, and each carries the same modifiers: a sign, a boost and a fuzziness.
-/

namespace SearchLang

/-- How the value of a filter is compared. -/
inductive Comparison where
  | eq
  | gt
  | gte
  | lt
  | lte
  deriving DecidableEq, Repr

/-- An interval between two bounds. A missing bound leaves its side open. -/
structure Range (α : Type) where
  lower : Option α
  upper : Option α
  exclusive : Bool
  deriving DecidableEq, Repr

/-- The interval between two bounds, of which there must be one. -/
def Range.of? {α : Type} (lower upper : Option α) (exclusive : Bool) : Option (Range α) :=
  if lower.isNone && upper.isNone then none else some ⟨lower, upper, exclusive⟩

/-- A range of one of the three types of bounds. -/
inductive Interval where
  | words (range : Range Text)
  | numbers (range : Range Number)
  | dates (range : Range Text)
  deriving DecidableEq, Repr

/-- A single value. -/
inductive Leaf where
  /-- A word, which may stand for all words it starts. -/
  | word (value : Text) (wildcard : Bool)
  | number (value : Number)
  | text (form : TextForm) (value : Text)
  deriving DecidableEq, Repr

/-- What every node may carry besides its content. -/
structure Modifiers where
  sign : Option Sign := none
  boost : Option Number := none
  fuzzy : Option Number := none
  deriving DecidableEq, Repr

/-- A node of a query tree. -/
inductive Node where
  | leaf (leaf : Leaf) (modifiers : Modifiers)
  | range (interval : Interval) (modifiers : Modifiers)
  | filter (field : Text) (comparison : Option Comparison) (value : Node) (modifiers : Modifiers)
  | subquery (nodes : List Node) (modifiers : Modifiers)
  deriving Repr

/-- The type of a node, by which its content is told apart. -/
inductive Tag where
  | word
  | number
  | text (form : TextForm)
  | wordRange
  | numberRange
  | dateRange
  | filter
  | subquery
  deriving DecidableEq, Repr

namespace Tag

/-- All types, in the order in which they are listed. -/
def all : List Tag := [
  word, text .phrase, number, text .date, text .url, text .hashtag, text .mention, text .emoji,
  text .emoticon, wordRange, numberRange, dateRange, filter, subquery]

/-- The name of a type. -/
def name : Tag → String
  | word => "WORD"
  | number => "NUMBER"
  | text .phrase => "PHRASE"
  | text .date => "DATE"
  | text .url => "URL"
  | text .hashtag => "HASHTAG"
  | text .mention => "MENTION"
  | text .emoji => "EMOJI"
  | text .emoticon => "EMOTICON"
  | wordRange => "WORD_RANGE"
  | numberRange => "NUMBER_RANGE"
  | dateRange => "DATE_RANGE"
  | filter => "FILTER"
  | subquery => "SUBQUERY"

/-- The type with a name. -/
def ofName? (name : Text) : Option Tag :=
  all.find? fun t => t.name.toList == name

/-- A type whose nodes are made of more than one value. -/
def isCompound : Tag → Bool
  | wordRange | numberRange | dateRange | filter | subquery => true
  | _ => false

theorem mem_all (t : Tag) : t ∈ all := by
  cases t with
  | text f => cases f <;> decide
  | _ => decide

end Tag

namespace Leaf

/-- The text that a leaf holds. -/
def text? : Leaf → Option Text
  | word value _ => some value
  | text _ value => some value
  | number _ => none

/-- The number that a leaf holds. -/
def number? : Leaf → Option Number
  | number value => some value
  | _ => none

/-- The type of a leaf. -/
def tag : Leaf → Tag
  | word .. => .word
  | number _ => .number
  | text form _ => .text form

/-- Words and phrases may be matched loosely. -/
def supportsFuzzy : Leaf → Bool
  | word .. => true
  | text .phrase _ => true
  | _ => false

end Leaf

/-- The type of a range. -/
def Interval.tag : Interval → Tag
  | words _ => .wordRange
  | numbers _ => .numberRange
  | dates _ => .dateRange

namespace Node

/-- Induction on trees: what holds of leaves and ranges, and passes from the value to a filter and
from all nodes to their subquery, holds of every node. -/
@[induction_eliminator]
theorem induct {motive : Node → Prop}
    (leaf : ∀ l m, motive (.leaf l m))
    (range : ∀ i m, motive (.range i m))
    (filter : ∀ f c v m, motive v → motive (.filter f c v m))
    (subquery : ∀ ns m, (∀ n ∈ ns, motive n) → motive (.subquery ns m)) :
    ∀ n, motive n
  | .leaf l m => leaf l m
  | .range i m => range i m
  | .filter f c v m => filter f c v m (induct leaf range filter subquery v)
  | .subquery ns m => subquery ns m fun n _ => induct leaf range filter subquery n

/-- A leaf without modifiers. -/
def ofLeaf (l : Leaf) : Node := .leaf l {}

/-- A range without modifiers. -/
def ofInterval (i : Interval) : Node := .range i {}

/-- The modifiers of a node. -/
def modifiers : Node → Modifiers
  | leaf _ m | range _ m | filter _ _ _ m | subquery _ m => m

/-- The node with other modifiers. -/
def withModifiers (m : Modifiers) : Node → Node
  | leaf l _ => leaf l m
  | range i _ => range i m
  | filter f c v _ => filter f c v m
  | subquery ns _ => subquery ns m

/-- The node with another sign. -/
def withSign (sign : Option Sign) (n : Node) : Node :=
  n.withModifiers { n.modifiers with sign }

/-- The node with a boost. -/
def withBoost (boost : Number) (n : Node) : Node :=
  n.withModifiers { n.modifiers with boost := some boost }

/-- The node with a fuzziness. -/
def withFuzzy (fuzzy : Number) (n : Node) : Node :=
  n.withModifiers { n.modifiers with fuzzy := some fuzzy }

/-- The type of a node. -/
def tag : Node → Tag
  | leaf l _ => l.tag
  | range i _ => i.tag
  | filter .. => .filter
  | subquery .. => .subquery

/-- A node made of more than one value. -/
def isCompound (n : Node) : Bool :=
  n.tag.isCompound

/-- A node with a plus. -/
def isRequired (n : Node) : Bool :=
  n.modifiers.sign == some .required

/-- A node with a minus. -/
def isProhibited (n : Node) : Bool :=
  n.modifiers.sign == some .prohibited

/-- Whether a fuzziness means something for the node: for words and phrases, and for filters on
them. -/
def supportsFuzzy : Node → Bool
  | leaf l _ => l.supportsFuzzy
  | filter _ _ value _ => value.supportsFuzzy
  | _ => false

/-- The text of a leaf that holds text. -/
def text? : Node → Option Text
  | leaf l _ => l.text?
  | _ => none

/-- The number of a leaf that holds one. -/
def number? : Node → Option Number
  | leaf l _ => l.number?
  | _ => none

/-- The nodes of a subquery. -/
def children : Node → List Node
  | subquery ns _ => ns
  | _ => []

@[simp] theorem modifiers_withModifiers (m : Modifiers) (n : Node) :
    (n.withModifiers m).modifiers = m := by
  cases n <;> rfl

@[simp] theorem supportsFuzzy_withModifiers (m : Modifiers) (n : Node) :
    (n.withModifiers m).supportsFuzzy = n.supportsFuzzy := by
  cases n <;> rfl

@[simp] theorem withModifiers_withModifiers (m m' : Modifiers) (n : Node) :
    (n.withModifiers m).withModifiers m' = n.withModifiers m' := by
  cases n <;> rfl

theorem withModifiers_modifiers (n : Node) : n.withModifiers n.modifiers = n := by
  cases n <;> rfl

end Node

/-! ## Sameness -/

mutual

/-- Decides whether two nodes are the same. -/
def Node.decEq : (a b : Node) → Decidable (a = b)
  | .leaf a m, .leaf b n => decidable_of_iff (a = b ∧ m = n) (by simp)
  | .range a m, .range b n => decidable_of_iff (a = b ∧ m = n) (by simp)
  | .filter f c v m, .filter g d w n =>
    match Node.decEq v w with
    | .isTrue h => decidable_of_iff (f = g ∧ c = d ∧ m = n) (by simp [h])
    | .isFalse h => .isFalse (by simp [h])
  | .subquery as m, .subquery bs n =>
    match Node.decEqList as bs with
    | .isTrue h => decidable_of_iff (m = n) (by simp [h])
    | .isFalse h => .isFalse (by simp [h])
  | .leaf .., .range .. | .leaf .., .filter .. | .leaf .., .subquery .. => .isFalse nofun
  | .range .., .leaf .. | .range .., .filter .. | .range .., .subquery .. => .isFalse nofun
  | .filter .., .leaf .. | .filter .., .range .. | .filter .., .subquery .. => .isFalse nofun
  | .subquery .., .leaf .. | .subquery .., .range .. | .subquery .., .filter .. => .isFalse nofun

/-- Decides whether two lists of nodes are the same. -/
def Node.decEqList : (as bs : List Node) → Decidable (as = bs)
  | [], [] => .isTrue rfl
  | [], _ :: _ | _ :: _, [] => .isFalse nofun
  | a :: as, b :: bs =>
    match Node.decEq a b, Node.decEqList as bs with
    | .isTrue h, .isTrue hs => .isTrue (by rw [h, hs])
    | .isFalse h, _ => .isFalse (by simp [h])
    | _, .isFalse hs => .isFalse (by simp [hs])

end

instance : DecidableEq Node := Node.decEq

/-! ## Equality -/

/-- Two optional values agree: both are missing, or both are there and agree. -/
def optionEqual {α : Type} (equal : α → α → Bool) : Option α → Option α → Bool
  | none, none => true
  | some a, some b => equal a b
  | _, _ => false

/-- Numerical equality of the bounds of two ranges. -/
def Interval.equal : Interval → Interval → Bool
  | words a, words b => a == b
  | dates a, dates b => a == b
  | numbers a, numbers b =>
    optionEqual Number.equal a.lower b.lower && optionEqual Number.equal a.upper b.upper &&
      a.exclusive == b.exclusive
  | _, _ => false

/-- Equality of leaves, numbers by their value. -/
def Leaf.equal : Leaf → Leaf → Bool
  | number a, number b => a.equal b
  | a, b => a == b

/-- Equality of modifiers, numbers by their value. -/
def Modifiers.equal (a b : Modifiers) : Bool :=
  a.sign == b.sign && optionEqual Number.equal a.boost b.boost &&
    optionEqual Number.equal a.fuzzy b.fuzzy

mutual

/-- Equality of trees, numbers by their value. -/
def Node.equal : Node → Node → Bool
  | .leaf a m, .leaf b n => a.equal b && m.equal n
  | .range a m, .range b n => a.equal b && m.equal n
  | .filter f c v m, .filter g d w n => f == g && c == d && v.equal w && m.equal n
  | .subquery as m, .subquery bs n => Node.equalLists as bs && m.equal n
  | _, _ => false

/-- Equality of lists of trees. -/
def Node.equalLists : List Node → List Node → Bool
  | [], [] => true
  | a :: as, b :: bs => a.equal b && Node.equalLists as bs
  | _, _ => false

end

end SearchLang
