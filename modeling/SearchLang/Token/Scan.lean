import SearchLang.Chunk
import SearchLang.Token.Symbol

/-!
# Scanning

Scanning sorts the chunks of a query into tokens. What a chunk means depends on
what is open when it comes (a filter, a subquery, a range) and on the token
before it; that is the state of a scan. Scanning never fails: what has no
meaning where it stands becomes a word or is dropped.
-/

namespace SearchLang

/-- The state of a scan. -/
structure Scan where
  /-- The tokens so far, the newest first. -/
  tokens : List Token := []
  /-- Whether a filter is open. -/
  inFilter : Bool := false
  /-- Whether a subquery is open; there is one level of them. -/
  inSubquery : Bool := false
  /-- The bracket of the open range. -/
  range : Option Bracket := none
  deriving DecidableEq, Repr

namespace Scan

/-- The kind of the newest token. Before the first token there is a space. -/
def lastKind (s : Scan) : Kind :=
  match s.tokens with
  | t :: _ => t.kind
  | [] => .whitespace

/-- Adds a token. -/
def add (s : Scan) (t : Token) : Scan :=
  { s with tokens := t :: s.tokens }

/-- Adds a token without a value, unless the newest token has its kind. -/
def addOnce (s : Scan) (k : Kind) : Scan :=
  if s.lastKind = k then s else s.add (.mark k)

/-- Closes the filter. -/
def closeFilter (s : Scan) : Scan :=
  { s with inFilter := false }.addOnce .filterEnd

/-- Adds a word. A word that ends in a colon takes the word after it in, so that a value that
looks like a field stays in one piece. -/
def addWord (s : Scan) (value : Text) : Scan :=
  match s.tokens with
  | ⟨.word, some (.text before)⟩ :: rest =>
    if before.getLast? = some ':' then
      { s with tokens := .ofText .word (before ++ value) :: rest }
    else
      s.add (.ofText .word value)
  | _ => s.add (.ofText .word value)

/-- Adds a boost or fuzzy sign. It must follow a value outside ranges, and it ends a filter that
holds no subquery. -/
def addModifier (s : Scan) (m : Modifier) : Scan :=
  if s.lastKind = .whitespace ∨ s.range.isSome then s
  else if s.inFilter ∧ ¬ s.inSubquery then s.closeFilter.addOnce m.kind
  else s.addOnce m.kind

/-- Opens a range, which only a filter may hold. -/
def openRange (s : Scan) (b : Bracket) : Scan :=
  if s.inFilter ∧ s.range = none then
    { s with range := some b }.addOnce (.rangeStart b)
  else
    s

/-- Closes the range, and its filter with it. Either bracket closes either range. -/
def closeRange (s : Scan) : Scan :=
  match s.range with
  | none => s
  | some b => { s.addOnce (.rangeEnd b) with range := none }.closeFilter

/-- Opens a subquery; there are none inside subqueries or ranges. -/
def openSubquery (s : Scan) : Scan :=
  if s.inSubquery ∨ s.range.isSome then s
  else { s with inSubquery := true }.add (.mark .subqueryStart)

/-- Closes the subquery, and the filter whose value it may be. -/
def closeSubquery (s : Scan) : Scan :=
  if ¬ s.inSubquery ∨ s.range.isSome then s
  else
    let s := { s with inSubquery := false }.add (.mark .subqueryEnd)
    if s.inFilter then s.closeFilter else s

/-- The effect of a symbol. One that is out of place has none. -/
def symbol (s : Scan) : Symbol → Scan
  | .sign sign => s.addOnce (.sign sign)
  | .greater => if s.inFilter then s.addOnce .greater else s
  | .less => if s.inFilter then s.addOnce .less else s
  | .equals => if s.lastKind = .greater ∨ s.lastKind = .less then s.addOnce .equals else s
  | .modifier m => s.addModifier m
  | .rangeStart b => s.openRange b
  | .rangeEnd => s.closeRange
  | .subqueryStart => s.openSubquery
  | .subqueryEnd => s.closeSubquery
  | .wildcard => s.addOnce .wildcard
  | .or => s.addOnce .or
  | .and => s.addOnce .and
  | .upTo => if s.range.isSome then s.addOnce .upTo else s
  | .letter c => s.addWord [c]
  | .stray c => s.add (.ofText .ignored [c])

/-- Whether a field may start here: outside filters and subqueries, where a clause begins. -/
def atClauseStart (s : Scan) : Bool :=
  !s.inFilter && !s.inSubquery &&
    match s.lastKind with
    | .whitespace | .sign _ | .filterEnd => true
    | _ => false

/-- Splits the sign off a chunk and adds it. -/
def takeSign (s : Scan) : Text → Scan × Text
  | '+' :: rest => (s.addOnce (.sign .required), rest)
  | '-' :: rest => (s.addOnce (.sign .prohibited), rest)
  | value => (s, value)

/-- The finite number that a chunk writes. A literal that is too large is left to the words. -/
def number? (value : Text) : Option Number :=
  (Number.ofLiteral? value).filter Number.isFinite

/-- The form of a chunk that is an emoticon, an emoji or a link. -/
def standaloneForm? (value : Text) : Option TextForm :=
  if Pattern.isEmoticon value then some .emoticon
  else if Text.isEmoji value then some .emoji
  else if Pattern.isUrl value then some .url
  else none

/-- The form of a chunk that is a hashtag, a mention or a date, aside from punctuation at its
end. -/
def taggedForm? (value : Text) : Option TextForm :=
  let stripped := Text.trimRight Pattern.isTrimmed value
  if Pattern.isHashtag stripped then some .hashtag
  else if Pattern.isMention stripped then some .mention
  else if Pattern.isDate stripped then some .date
  else none

/-- Adds what is left of a chunk when no other form fits: a word without the punctuation at its
ends, with a wildcard if a `*` ended it. A lone `0` counts as nothing. -/
def addPlain (s : Scan) (value : Text) : Scan :=
  let word := Text.trim Pattern.isWordTrimmed value
  if word = [] ∨ word = ['0'] then
    s.add (.ofText .ignored value)
  else
    let s := s.addWord word
    if value.getLast? = some '*' then s.addOnce .wildcard else s

theorem length_takeSign_le (s : Scan) (value : Text) :
    (s.takeSign value).2.length ≤ value.length := by
  unfold takeSign
  split <;> simp

/-- Adds the tokens of one trimmed chunk. -/
def chunk (s : Scan) (value : Text) : Scan :=
  if value = [] then s.addOnce .whitespace
  else match number? value with
  | some n => s.add (.ofNumber n)
  | none =>
    match Symbol.ofChunk? value with
    | some symbol => s.symbol symbol
    | none =>
      let unsigned := s.takeSign value
      match standaloneForm? unsigned.2 with
      | some form =>
        unsigned.1.add (.ofText (.text form) (Text.trim Pattern.isTrimmed unsigned.2))
      | none =>
        if unsigned.1.atClauseStart && Pattern.isField unsigned.2 then
          { unsigned.1 with inFilter := true }.add
            (.ofText .filterStart (Text.trimRight (· == ':') unsigned.2))
        else if Pattern.isPhrase unsigned.2 then
          unsigned.1.add
            (.ofText (.text .phrase) (Text.trimSpace (Text.trim (· == '"') unsigned.2)))
        else match _ : Text.splitAtDots unsigned.2 with
        | some (lower, upper) => ((unsigned.1.chunk lower).symbol .upTo).chunk upper
        | none =>
          match taggedForm? unsigned.2 with
          | some form =>
            unsigned.1.add (.ofText (.text form) (Text.trim Pattern.isTrimmed unsigned.2))
          | none => unsigned.1.addPlain unsigned.2
termination_by value.length
decreasing_by
  all_goals
    have hlen := length_takeSign_le s value
    have hsplit := congrArg List.length (Text.append_of_splitAtDots (by assumption))
    simp only [List.length_append, List.length_cons] at hsplit
    simp only [unsigned] at *
    omega

/-- A space outside subqueries and ranges ends a filter. -/
def settle (s : Scan) : Scan :=
  if s.lastKind = .whitespace ∧ s.inFilter ∧ s.range = none ∧ ¬ s.inSubquery then
    s.closeFilter
  else
    s

/-- Adds the tokens of one chunk as it stands in the query. -/
def step (s : Scan) (piece : Text) : Scan :=
  (s.chunk (Text.trim Text.isPadding piece)).settle

/-- The state after some chunks. -/
def run (s : Scan) (pieces : List Text) : Scan :=
  pieces.foldl step s

/-- Closes what the end of the query leaves open. -/
def close (s : Scan) : Scan :=
  let s := if s.inSubquery then { s with inSubquery := false }.add (.mark .subqueryEnd) else s
  if s.inFilter then s.closeFilter else s

/-- Whether a token is part of the result of a scan. -/
def isKept (t : Token) : Bool :=
  t.kind != .whitespace && t.kind != .ignored

/-- The tokens of a finished scan, in the order of the query. -/
def result (s : Scan) : List Token :=
  s.close.tokens.reverse.filter isKept

/-- The state at the end of a query. -/
def ofQuery (q : Text) : Scan :=
  ({} : Scan).run (Chunk.ofQuery q)

@[simp] theorem kind_add (s : Scan) (t : Token) : (s.add t).lastKind = t.kind := rfl

theorem lastKind_addOnce (s : Scan) (k : Kind) : (s.addOnce k).lastKind = k := by
  unfold addOnce
  split <;> simp_all

/-- A token that differs from the newest one is added. -/
theorem addOnce_of_ne {s : Scan} {k : Kind} (h : s.lastKind ≠ k) :
    s.addOnce k = s.add (.mark k) :=
  if_neg h

theorem lastKind_closeFilter (s : Scan) : s.closeFilter.lastKind = .filterEnd :=
  lastKind_addOnce _ _

@[simp] theorem inFilter_addOnce (s : Scan) (k : Kind) : (s.addOnce k).inFilter = s.inFilter := by
  unfold addOnce
  split <;> rfl

@[simp] theorem inSubquery_addOnce (s : Scan) (k : Kind) :
    (s.addOnce k).inSubquery = s.inSubquery := by
  unfold addOnce
  split <;> rfl

@[simp] theorem range_addOnce (s : Scan) (k : Kind) : (s.addOnce k).range = s.range := by
  unfold addOnce
  split <;> rfl

@[simp] theorem inFilter_closeFilter (s : Scan) : s.closeFilter.inFilter = false :=
  inFilter_addOnce _ _

@[simp] theorem inSubquery_closeFilter (s : Scan) : s.closeFilter.inSubquery = s.inSubquery :=
  inSubquery_addOnce _ _

@[simp] theorem range_closeFilter (s : Scan) : s.closeFilter.range = s.range :=
  range_addOnce _ _

/-- A word is added, or glued to the newest token if that is a word that ends in a colon. -/
theorem addWord_cases (s : Scan) :
    (∀ value, s.addWord value = s.add (.ofText .word value)) ∨
      ∃ before rest, s.tokens = .ofText .word before :: rest ∧ before.getLast? = some ':' ∧
        ∀ value, s.addWord value = { s with tokens := .ofText .word (before ++ value) :: rest } := by
  unfold addWord
  split
  · rename_i before rest htokens
    by_cases hlast : before.getLast? = some ':'
    · exact .inr ⟨before, rest, htokens, hlast, fun value => if_pos hlast⟩
    · exact .inl fun value => if_neg hlast
  · exact .inl fun value => rfl

@[simp] theorem lastKind_addWord (s : Scan) (value : Text) : (s.addWord value).lastKind = .word := by
  rcases s.addWord_cases with h | ⟨before, rest, -, -, h⟩ <;> rw [h] <;> rfl

@[simp] theorem inFilter_addWord (s : Scan) (value : Text) :
    (s.addWord value).inFilter = s.inFilter := by
  rcases s.addWord_cases with h | ⟨before, rest, -, -, h⟩ <;> simp only [h, add]

theorem run_append (s : Scan) (a b : List Text) : s.run (a ++ b) = (s.run a).run b :=
  List.foldl_append

end Scan

/-- The tokens of a query. -/
def scan (q : Text) : List Token :=
  (Scan.ofQuery q).result

/-- Spaces and dropped chunks are not part of a scan. -/
theorem isKept_of_mem_scan {q : Text} {t : Token} (h : t ∈ scan q) : Scan.isKept t = true :=
  (List.mem_filter.mp h).2

end SearchLang
