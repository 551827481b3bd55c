import SearchLang.Number.Layout

/-!
# Tokens

What a query is made of once its characters are sorted out: signs, brackets,
comparisons, modifiers, keywords, and the values between them. Every kind has a
numeric code, in bands for operators, identifiers and keywords, and a name.
-/

namespace SearchLang

/-- What a leading `+` or `-` asks for. -/
inductive Sign where
  | required
  | prohibited
  deriving DecidableEq, Repr

/-- The two pairs of brackets around a range: `[ ]` holds its bounds, `{ }` leaves them out. -/
inductive Bracket where
  | inclusive
  | exclusive
  deriving DecidableEq, Repr

/-- The forms of text with a meaning of their own. -/
inductive TextForm where
  | phrase
  | url
  | date
  | hashtag
  | mention
  | emoticon
  | emoji
  deriving DecidableEq, Repr

/-- The kind of a token. -/
inductive Kind where
  | whitespace
  | number
  | sign (s : Sign)
  | greater
  | less
  | equals
  | fuzzy
  | boost
  | rangeStart (b : Bracket)
  | rangeEnd (b : Bracket)
  | subqueryStart
  | subqueryEnd
  | wildcard
  | ignored
  | word
  | filterStart
  | filterEnd
  | text (form : TextForm)
  | and
  | or
  | upTo
  deriving DecidableEq, Repr

namespace Kind

/-- All kinds, in the order of their codes. -/
def all : List Kind := [
  whitespace, number, sign .required, sign .prohibited, greater, less, equals, fuzzy, boost,
  rangeStart .inclusive, rangeEnd .inclusive, rangeStart .exclusive, rangeEnd .exclusive,
  subqueryStart, subqueryEnd, wildcard,
  ignored, word, filterStart, filterEnd, text .phrase, text .url, text .date, text .hashtag,
  text .mention, text .emoticon, text .emoji,
  and, or, upTo]

/-- The numeric code: operators lie below 100, identifiers below 200, keywords above. -/
def code : Kind → Nat
  | whitespace => 0
  | number => 1
  | sign .required => 2
  | sign .prohibited => 3
  | greater => 4
  | less => 5
  | equals => 6
  | fuzzy => 7
  | boost => 8
  | rangeStart .inclusive => 9
  | rangeEnd .inclusive => 10
  | rangeStart .exclusive => 11
  | rangeEnd .exclusive => 12
  | subqueryStart => 13
  | subqueryEnd => 14
  | wildcard => 15
  | ignored => 100
  | word => 101
  | filterStart => 102
  | filterEnd => 103
  | text .phrase => 104
  | text .url => 105
  | text .date => 106
  | text .hashtag => 107
  | text .mention => 108
  | text .emoticon => 109
  | text .emoji => 110
  | and => 200
  | or => 201
  | upTo => 202

/-- The kind with a code. -/
def ofCode? (code : Nat) : Option Kind :=
  all.find? fun k => k.code == code

/-- The name of a kind. -/
def name : Kind → String
  | whitespace => "T_WHITE_SPACE"
  | number => "T_NUMBER"
  | sign .required => "T_REQUIRED"
  | sign .prohibited => "T_PROHIBITED"
  | greater => "T_GREATER_THAN"
  | less => "T_LESS_THAN"
  | equals => "T_EQUALS"
  | fuzzy => "T_FUZZY"
  | boost => "T_BOOST"
  | rangeStart .inclusive => "T_RANGE_INCL_START"
  | rangeEnd .inclusive => "T_RANGE_INCL_END"
  | rangeStart .exclusive => "T_RANGE_EXCL_START"
  | rangeEnd .exclusive => "T_RANGE_EXCL_END"
  | subqueryStart => "T_SUBQUERY_START"
  | subqueryEnd => "T_SUBQUERY_END"
  | wildcard => "T_WILDCARD"
  | ignored => "T_IGNORED"
  | word => "T_WORD"
  | filterStart => "T_FILTER_START"
  | filterEnd => "T_FILTER_END"
  | text .phrase => "T_PHRASE"
  | text .url => "T_URL"
  | text .date => "T_DATE"
  | text .hashtag => "T_HASHTAG"
  | text .mention => "T_MENTION"
  | text .emoticon => "T_EMOTICON"
  | text .emoji => "T_EMOJI"
  | and => "T_AND"
  | or => "T_OR"
  | upTo => "T_TO"

/-- The kind with a name. -/
def ofName? (name : Text) : Option Kind :=
  all.find? fun k => k.name.toList == name

/-- An operator or a punctuation mark. -/
def isOperator (k : Kind) : Bool :=
  k.code < 100

/-- A kind whose tokens may carry text. -/
def isIdentifier (k : Kind) : Bool :=
  100 ≤ k.code && k.code < 200

/-- A word with a fixed meaning. -/
def isKeyword (k : Kind) : Bool :=
  200 ≤ k.code

/-- An opening range bracket. -/
def isRangeStart : Kind → Bool
  | rangeStart _ => true
  | _ => false

/-- A closing range bracket. -/
def isRangeEnd : Kind → Bool
  | rangeEnd _ => true
  | _ => false

/-- A kind whose tokens stand for a value: a word, a number, or a text with a form. -/
def isLeaf : Kind → Bool
  | word | number | text _ => true
  | _ => false

theorem mem_all (k : Kind) : k ∈ all := by
  cases k with
  | sign s => cases s <;> decide
  | rangeStart b => cases b <;> decide
  | rangeEnd b => cases b <;> decide
  | text f => cases f <;> decide
  | _ => decide

theorem ofCode?_code (k : Kind) : ofCode? k.code = some k := by
  cases k with
  | sign s => cases s <;> rfl
  | rangeStart b => cases b <;> rfl
  | rangeEnd b => cases b <;> rfl
  | text f => cases f <;> rfl
  | _ => rfl

theorem code_injective {j k : Kind} (h : j.code = k.code) : j = k := by
  have hj := ofCode?_code j
  rw [h, ofCode?_code] at hj
  exact (Option.some.inj hj).symm

end Kind

/-- The value that a token carries. -/
inductive Literal where
  | number (n : Number)
  | text (s : Text)
  deriving DecidableEq, Repr

/-- A token: its kind, and the value it carries if it has one. -/
structure Token where
  kind : Kind
  literal : Option Literal := none
  deriving DecidableEq, Repr

namespace Token

/-- A token without a value. -/
def mark (kind : Kind) : Token :=
  ⟨kind, none⟩

/-- A token that carries text. -/
def ofText (kind : Kind) (s : Text) : Token :=
  ⟨kind, some (.text s)⟩

/-- A number token. -/
def ofNumber (n : Number) : Token :=
  ⟨.number, some (.number n)⟩

/-- The text that a token carries. -/
def text? (t : Token) : Option Text :=
  match t.literal with
  | some (.text s) => some s
  | _ => none

/-- The number that a token carries. -/
def number? (t : Token) : Option Number :=
  match t.literal with
  | some (.number n) => some n
  | _ => none

/-- The text of a token: the name of its kind, and its value in parentheses. -/
def display (t : Token) : Text :=
  match t.literal with
  | some (.text s) => t.kind.name.toList ++ '(' :: s ++ [')']
  | some (.number n) => t.kind.name.toList ++ '(' :: n.display ++ [')']
  | none => t.kind.name.toList

@[simp] theorem kind_mark (k : Kind) : (mark k).kind = k := rfl
@[simp] theorem kind_ofText (k : Kind) (s : Text) : (ofText k s).kind = k := rfl
@[simp] theorem kind_ofNumber (n : Number) : (ofNumber n).kind = .number := rfl
@[simp] theorem text?_ofText (k : Kind) (s : Text) : (ofText k s).text? = some s := rfl
@[simp] theorem number?_ofNumber (n : Number) : (ofNumber n).number? = some n := rfl

end Token

end SearchLang
