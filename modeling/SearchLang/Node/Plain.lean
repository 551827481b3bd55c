import SearchLang.Node.Canonical
import SearchLang.Node.Render

/-!
# Plain trees

The trees whose text has one reading. Their words are ASCII letters, their
phrases have no quotes and no spaces but single ones between other characters,
and the contents of their subqueries are leaves. A number takes no sign, which
would be read as a part of it.
-/

namespace SearchLang

namespace Text

/-- Whether two spaces stand next to each other. -/
def hasDoubleSpace : Text → Bool
  | ' ' :: ' ' :: _ => true
  | _ :: rest => hasDoubleSpace rest
  | [] => false

/-- One or more ASCII letters that are no keyword in any case. -/
def isPlainWord (s : Text) : Bool :=
  !s.isEmpty && s.all Char.isAlpha && !isKeywordText s

/-- A text without quotes and without space characters but single spaces inside. -/
def isPlainPhrase (s : Text) : Bool :=
  !s.isEmpty && !s.contains '"' && s.all (fun c => c == ' ' || !isSpace c) &&
    s.head? != some ' ' && s.getLast? != some ' ' && !hasDoubleSpace s

/-- One or more ASCII letters, digits and underscores. -/
def isPlainName (s : Text) : Bool :=
  !s.isEmpty && s.all Pattern.isNameChar

/-- A letter or an underscore, then letters, digits, underscores, dots and hyphens. -/
def isPlainField : Text → Bool
  | c :: rest => Pattern.isFieldStart c && rest.all Pattern.isNameRest
  | [] => false

/-- A bound of a word range: a word, or a phrase of several words. -/
def isPlainBound (s : Text) : Bool :=
  isPlainWord s || (isPlainPhrase s && s.contains ' ')

end Text

/-- A leaf whose text has one reading. -/
def Leaf.isPlain : Leaf → Bool
  | word value _ => Text.isPlainWord value
  | number value => value.isFinite
  | text .phrase value => Text.isPlainPhrase value
  | text .hashtag value | text .mention value => Text.isPlainName value
  | text .date value => Pattern.isPlainDate value
  | text _ _ => false

/-- A range whose bounds have one reading. -/
def Interval.isPlain : Interval → Bool
  | words r => r.bounds.all Text.isPlainBound
  | numbers r => r.bounds.all Number.isFinite
  | dates r => r.bounds.all Pattern.isPlainDate

namespace Node

/-- A leaf of a plain tree. -/
def isPlainLeaf : Node → Bool
  | .leaf l m => l.isPlain && (l.number?.isNone || m.sign.isNone)
  | _ => false

/-- What the filters of plain trees are about: a leaf, a range or a subquery of leaves. -/
def isPlainValue : Node → Bool
  | .range i _ => i.isPlain
  | .subquery nodes _ => nodes.all isPlainLeaf
  | value => value.isPlainLeaf

/-- A canonical node made of plain leaves, of filters on plain values and of subqueries of plain
leaves. -/
def isPlain (limits : Limits) (n : Node) : Bool :=
  n.isCanonical limits &&
    match n with
    | .filter field _ value _ => Text.isPlainField field && value.isPlainValue
    | .subquery nodes _ => nodes.all isPlainLeaf
    | n => n.isPlainLeaf

end Node

end SearchLang
