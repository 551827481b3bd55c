import SearchLang.Settings.Flow

/-!
# Indented settings

A mapping of a key and a value on each line. What is further in than a key
belongs to its value; of such nested values only the form matters.
-/

namespace SearchLang.Settings

/-- A line of a settings text: how far it is in, and what it holds. -/
structure Line where
  indent : Nat
  content : Text
  deriving DecidableEq, Repr

/-- The parts of a text between line breaks; a carriage return and a line feed are one break. -/
def splitLines : Text → List Text
  | [] => [[]]
  | '\r' :: '\n' :: rest => [] :: splitLines rest
  | c :: rest =>
    if isBreak c then [] :: splitLines rest
    else match splitLines rest with
      | line :: lines => (c :: line) :: lines
      | [] => [[c]]

/-- A line by its indentation. -/
def Line.of (s : Text) : Line :=
  ⟨(s.takeWhile (· == ' ')).length, s.dropWhile (· == ' ')⟩

/-- Whether a line holds nothing, or nothing but a comment. A tab is not taken for nothing. -/
def Line.isIdle (l : Line) : Bool :=
  match l.content with
  | [] => true
  | c :: _ => c == '#'

/-- Splits a line at the colon after its key. -/
def splitKey? (s : Text) : Option (Text × Text) :=
  match readQuoted? s with
  | none => none
  | some (some (key, rest)) =>
    match rest.dropWhile isBlank with
    | ':' :: after => if startsBlank after then some (key, after) else none
    | _ => none
  | some none =>
    if startsPlain s then
      (splitPlain s false).map fun (key, after) => (trimBlanks key, after)
    else none
where
  /-- The text before the first colon that a blank follows, and the text after it. -/
  splitPlain : Text → Bool → Option (Text × Text)
    | [], _ => none
    | c :: rest, gap =>
      if c == ':' && startsBlank rest then some ([], rest)
      else if c == '#' && gap then none
      else (splitPlain rest (isBlank c)).map fun (key, after) => (c :: key, after)

/-- The plain scalar of a line without the comment after it. -/
def dropComment : Text → Bool → Text
  | [], _ => []
  | c :: rest, gap => if c == '#' && gap then [] else c :: dropComment rest (isBlank c)

/-- A text and the lines that continue it. -/
def joinLines (s : Text) (lines : List Line) : Text :=
  lines.foldl (fun s l => s ++ '\n' :: l.content) s

/-- The value of a plain scalar and the lines that continue it. A comment ends it, and no line of
it may look like a key. -/
def plainValue? (s : Text) (lines : List Line) : Option Value :=
  let first := dropComment s false
  let rest := lines.map fun l => dropComment l.content false
  if !startsPlain s || (first.length < s.length && !lines.isEmpty) ||
      (first :: rest).any fun l => (splitKey?.splitPlain l false).isSome then none
  else
    let parts := (first :: rest).map (Text.trim isBlank)
    some (.plain (Text.join [' '] (parts.filter fun s => !s.isEmpty)))

/-- The header of a block of text: digits and signs after the mark. -/
def isBlockHeader (s : Text) : Bool :=
  isLineEnd (s.dropWhile fun c => c.isDigit || c == '+' || c == '-')

/-- The value that starts on a line after its key, and goes on over the lines further in. -/
def inlineValue? (s : Text) (lines : List Line) : Option Value :=
  match s with
  | [] => none
  | c :: rest =>
    if c == '"' || c == '\'' then
      match readQuoted? (joinLines s lines) with
      | some (some (q, after)) => if isLineEnd after then some (.quoted q) else none
      | _ => none
    else if c == '[' || c == '{' then
      match readFlow? maxDepth (joinLines s lines) with
      | some (v, after) => if (skipGap false after).isEmpty then some v else none
      | none => none
    else if c == '|' || c == '>' then
      if isBlockHeader rest then some .other else none
    else plainValue? s lines

/-- Whether a line is an item of a list. -/
def Line.isItem (l : Line) : Bool :=
  match l.content with
  | '-' :: rest => startsBlank rest
  | _ => false

/-- The text of an item of a list, as a line of its own. -/
def Line.item (l : Line) : Line :=
  let rest := l.content.drop 1
  let blanks := rest.takeWhile isBlank
  ⟨l.indent + 1 + blanks.length, rest.drop blanks.length⟩

/-- The lines that belong to the value of a key `n` characters in, and the lines after them. A
list may be no further in than its key. -/
def spanValue (n : Nat) (isOpen : Bool) (lines : List Line) : List Line × List Line :=
  let lists := isOpen && lines.head?.any fun l => l.indent == n && l.isItem
  lines.span fun l => n < l.indent || (lists && l.indent == n && l.isItem)

mutual

/-- Reads the entries of a mapping whose keys are `n` characters in. -/
def readMapping? : Nat → Nat → List Line → Option (List (Value × Value))
  | 0, _, _ => none
  | _ + 1, _, [] => some []
  | fuel + 1, n, l :: rest =>
    if l.indent ≠ n then none
    else match splitKey? l.content with
    | none => none
    | some (key, after) =>
      let text := after.dropWhile isBlank
      let isOpen := isLineEnd after
      let (inner, rest) := spanValue n isOpen rest
      let value? :=
        if isOpen then
          if inner.isEmpty then some (Value.plain []) else readNode? fuel inner
        else inlineValue? text inner
      match value? with
      | none => none
      | some v => (readMapping? fuel n rest).map fun entries => (.plain key, v) :: entries

/-- Reads the items of a list whose dashes are `n` characters in. -/
def readList? : Nat → Nat → List Line → Option Unit
  | 0, _, _ => none
  | _ + 1, _, [] => some ()
  | fuel + 1, n, l :: rest =>
    if l.indent ≠ n ∨ l.isItem = false then none
    else
      let item := l.item
      let (inner, rest) := rest.span fun l => n < l.indent
      let lines := if item.isIdle then inner else item :: inner
      match (if lines.isEmpty then some (Value.plain []) else readNode? fuel lines) with
      | none => none
      | some _ => readList? fuel n rest

/-- Reads a nested value that takes up whole lines. -/
def readNode? : Nat → List Line → Option Value
  | 0, _ => none
  | _ + 1, [] => none
  | fuel + 1, l :: rest =>
    if l.isItem then (readList? fuel l.indent (l :: rest)).map fun _ => .other
    else if (splitKey? l.content).isSome then
      (readMapping? fuel l.indent (l :: rest)).map fun _ => .other
    else inlineValue? l.content rest

end

/-- The mark at the start of a document. -/
def startMark : Text := ['-', '-', '-']

/-- The mark at the end of a document. -/
def endMark : Text := ['.', '.', '.']

/-- Whether a line is a mark of the document, after which there may be a gap. -/
def Line.isMark (mark : Text) (l : Line) : Bool :=
  l.indent == 0 && mark.isPrefixOf l.content && startsBlank (l.content.drop mark.length)

/-- The lines of a document that follow its start mark. On the line of the mark itself there may
only be a mapping between brackets. -/
def afterStart? (mark : Line) (rest : List Line) : Option (List Line) :=
  let inline := (mark.content.drop startMark.length).dropWhile isBlank
  match inline with
  | [] => some rest
  | '#' :: _ => some rest
  | '{' :: _ => some (⟨startMark.length + 1, inline⟩ :: rest)
  | _ => none

/-- Reads the lines of a mapping, which may stand between brackets. No lines are an empty one. -/
def readTop? (fuel : Nat) : List Line → Option (List (Value × Value))
  | [] => some []
  | l :: rest =>
    match l.content with
    | '{' :: inner =>
      match readFlowMapping? (joinLines inner rest) with
      | some (entries, after) => if (skipGap false after).isEmpty then some entries else none
      | none => none
    | _ => readMapping? fuel l.indent (l :: rest)

/-- The lines before the end of a document. A second document is refused. -/
def dropEnd? (lines : List Line) : Option (List Line) :=
  let (body, tail) := lines.span fun l => !l.isMark endMark && !l.isMark startMark
  if tail.all (Line.isMark endMark) then some body else none

/-- A character that a document may hold: a tab, a line break, or one that prints. -/
def isPermitted (c : Char) : Bool :=
  let n := c.toNat
  c == '\t' || isBreak c || (32 ≤ n && n ≤ 126) || (0xA0 ≤ n && n != 0xFFFE && n != 0xFFFF)

/-- A text without the mark of its byte order at the front. -/
def dropByteOrder : Text → Text
  | '\uFEFF' :: rest => rest
  | s => s

/-- The entries of a document. One that holds nothing at all has none; otherwise it must be a
mapping, and its end mark may not come first. -/
def readDocument? (s : Text) : Option (List (Value × Value)) :=
  if !s.all isPermitted then none
  else match ((splitLines (dropByteOrder s)).map Line.of).filter fun l => !l.isIdle with
  | [] => some []
  | l :: rest =>
    let lines? :=
      if l.isMark startMark then afterStart? l rest
      else if l.isMark endMark then none
      else some (l :: rest)
    (lines?.bind dropEnd?).bind (readTop? (s.length + 1))

end SearchLang.Settings
