import SearchLang.Text.Emoji
import SearchLang.Text.Space
import SearchLang.Number.Decimal

/-!
# Patterns

The written forms that a query knows: emoticons, links, phrases, field names,
words, hashtags, mentions and dates. A form that can start a longer text is a
function `…Length?` that gives the length of the longest such start; a text has
the form when that length is its own.
-/

namespace SearchLang.Pattern

/-! ## Character classes -/

/-- An ASCII letter, digit or underscore. -/
def isNameChar (c : Char) : Bool :=
  c.isAlphanum || c == '_'

/-- What a field name or a mention goes on with. -/
def isNameRest (c : Char) : Bool :=
  isNameChar c || c == '.' || c == '-'

/-- What a field name starts with. -/
def isFieldStart (c : Char) : Bool :=
  c.isAlpha || c == '_'

/-- The two letters beyond ASCII that differ only by case from an ASCII letter. -/
def isFoldedLetter (c : Char) : Bool :=
  c == '\u017F' || c == '\u212A'

/-- A character with a meaning in the grammar of queries, which no plain word holds. -/
def isStructural (c : Char) : Bool :=
  ['(', ')', '\\', '^', '<', '>', '[', ']', '{', '}', '~', '='].contains c

/-- A character that plain words are made of. -/
def isPlain (c : Char) : Bool :=
  !Text.isSpace c && !isStructural c

/-- Punctuation that is trimmed off the ends of values. -/
def isTrimmed (c : Char) : Bool :=
  ['#', '@', ',', '.', '!', '?', ';', '|', '&', '+', '-', '^', '~', '*', '\\', '"', '\'', ' ',
    '\t', '\n', '\r'].contains c

/-- What is trimmed off the ends of words. -/
def isWordTrimmed (c : Char) : Bool :=
  c == '/' || isTrimmed c

/-! ## Signs -/

/-- The length of a sign at the front: one or zero. -/
def signLength : Text → Nat
  | c :: _ => if c == '+' || c == '-' then 1 else 0
  | [] => 0

/-- A text without the sign at its front. -/
def dropSign (s : Text) : Text :=
  s.drop (signLength s)

/-! ## Emoticons -/

/-- The emoticons, in the order in which they are tried. -/
def emoticons : List Text :=
  [">:-(", ">:(", ":-)", ":)", "<3", ":'(", ":-|:-/", ":-|:/", ":|:-/", ":|:/", ":-(", ":(",
    ":-*", ":*", ":-|", ":|", ":o)", ":-o", ":o", "=-)", "=)", ":-D", ":D", ":-p", ":p", ":-P",
    ":P", ":-b", ":b", ";-p", ";p", ";-P", ";P", ";-b", ";b", ";-)", ";)"].map String.toList

/-- A text that is an emoticon, letter case counting. -/
def isEmoticon (s : Text) : Bool :=
  emoticons.contains s

/-- The length of the emoticon at the front of a text, letter case aside. -/
def emoticonLength? (s : Text) : Option Nat :=
  (emoticons.find? fun e => Text.toLowerAscii (s.take e.length) == Text.toLowerAscii e).map
    List.length

/-! ## Links -/

/-- A character of the scheme of a link. -/
def isSchemeChar (c : Char) : Bool :=
  Text.isWordChar c || c == '-'

/-- A character that the address of a link may start with. -/
def isAddressStart (c : Char) : Bool :=
  !Text.isSpace c && !(['/', '$', '.', '?', '#'].contains c)

/-- A character that the address of a link may go on with. -/
def isAddressRest (c : Char) : Bool :=
  !Text.isSpace c && c != '^' && c != '~'

/-- The length of the address of a link at the front of a text: a start, any character but a
line feed, and the run that follows. -/
def addressLength? : Text → Option Nat
  | c :: d :: rest =>
    if isAddressStart c && d != '\n' then some ((rest.takeWhile isAddressRest).length + 2)
    else none
  | _ => none

/-- The length of the link at the front of a text: a scheme, `://` and an address. A plus may
precede the scheme; a minus counts as a part of it. -/
def urlLength? (s : Text) : Option Nat :=
  let start := if s.head? = some '+' then 1 else 0
  let scheme := (s.drop start).takeWhile isSchemeChar
  if scheme.isEmpty then
    none
  else
    match s.drop (start + scheme.length) with
    | ':' :: '/' :: '/' :: address =>
      (addressLength? address).map fun n => start + scheme.length + 3 + n
    | _ => none

/-- A text that is a link. -/
def isUrl (s : Text) : Bool :=
  urlLength? s == some s.length

/-! ## Phrases -/

/-- The length of the phrase at the front of a text: an optional sign, and a text without quotes
between quotes. -/
def phraseLength? (s : Text) : Option Nat :=
  match dropSign s with
  | '"' :: rest =>
    let inner := rest.takeWhile (· != '"')
    if inner.isEmpty then none
    else match rest.drop inner.length with
      | '"' :: _ => some (signLength s + inner.length + 2)
      | _ => none
  | _ => none

/-- A text that is a phrase. -/
def isPhrase (s : Text) : Bool :=
  phraseLength? s == some s.length

/-! ## Fields -/

/-- The length of the field at the front of a text: an optional sign, a name and a colon. The
class `more` holds letters that names may have besides the ASCII ones. -/
def fieldLength? (more : Char → Bool) (s : Text) : Option Nat :=
  match dropSign s with
  | c :: rest =>
    if isFieldStart c || more c then
      let name := rest.takeWhile fun d => isNameRest d || more d
      match rest.drop name.length with
      | ':' :: _ => some (signLength s + name.length + 2)
      | _ => none
    else
      none
  | [] => none

/-- A text that is a field name with a colon. -/
def isField (s : Text) : Bool :=
  fieldLength? (fun _ => false) s == some s.length

/-! ## Words -/

/-- The length of the plain word at the front of a text. -/
def wordLength (s : Text) : Nat :=
  (s.takeWhile isPlain).length

/-! ## Hashtags, mentions and dates -/

/-- An optional sign, one or more `#`, and a name. -/
def isHashtag (s : Text) : Bool :=
  let body := dropSign s
  let name := body.dropWhile (· == '#')
  body.head? == some '#' && !name.isEmpty && name.all isNameChar

/-- An optional sign, one or more `@`, and a name that may hold dots and hyphens after its first
character. -/
def isMention (s : Text) : Bool :=
  let body := dropSign s
  body.head? == some '@' &&
    match body.dropWhile (· == '@') with
    | c :: rest => isNameChar c && rest.all isNameRest
    | [] => false

/-- Four digits, two digits and two digits with hyphens between them. -/
def isPlainDate : Text → Bool
  | [a, b, c, d, '-', e, f, '-', g, h] => [a, b, c, d, e, f, g, h].all Char.isDigit
  | _ => false

/-- An optional sign, and a date. -/
def isDate (s : Text) : Bool :=
  isPlainDate (dropSign s)

/-! ## Lemmas -/

theorem signLength_le (s : Text) : signLength s ≤ s.length := by
  cases s with
  | nil => simp [signLength]
  | cons c cs => simp [signLength]; split <;> omega

theorem isPlain_iff {c : Char} :
    isPlain c = true ↔ Text.isSpace c = false ∧ isStructural c = false := by
  simp [isPlain]

theorem wordLength_le (s : Text) : wordLength s ≤ s.length :=
  (List.takeWhile_sublist _).length_le

end SearchLang.Pattern
