import SearchLang.Json.Basic

/-!
# Reading JSON

The reader takes a whole text. Arrays and objects may nest 127 deep, escaped
characters beyond the basic plane are written as two surrogates, and a number
must be within the reach of binary64.
-/

namespace SearchLang.Json

/-- How deep arrays and objects may nest. -/
def maxDepth : Nat := 127

/-- A character that may stand between the parts of a text. -/
def isGap (c : Char) : Bool :=
  c == ' ' || c == '\n' || c == '\t' || c == '\r'

/-- The text after the gap at its front. -/
def skipGap (s : Text) : Text :=
  s.dropWhile isGap

/-- The value of a digit of base sixteen. -/
def hexValue? (c : Char) : Option Nat :=
  if c.isDigit then some (c.toNat - '0'.toNat)
  else if 'a' ≤ c ∧ c ≤ 'f' then some (c.toNat - 'a'.toNat + 10)
  else if 'A' ≤ c ∧ c ≤ 'F' then some (c.toNat - 'A'.toNat + 10)
  else none

/-- The number that four digits of base sixteen write. -/
def hexUnit? (a b c d : Char) : Option Nat := do
  let a ← hexValue? a
  let b ← hexValue? b
  let c ← hexValue? c
  let d ← hexValue? d
  pure (((a * 16 + b) * 16 + c) * 16 + d)

/-- The character that one unit writes, unless it is one half of a pair. -/
def ofUnit? (n : Nat) : Option Char :=
  if 0xD800 ≤ n ∧ n ≤ 0xDFFF then none else some (Char.ofNat n)

/-- The character that a pair of units writes. -/
def ofUnits? (high low : Nat) : Option Char :=
  if 0xD800 ≤ high ∧ high ≤ 0xDBFF ∧ 0xDC00 ≤ low ∧ low ≤ 0xDFFF then
    some (Char.ofNat (0x10000 + (high - 0xD800) * 0x400 + (low - 0xDC00)))
  else
    none

/-- The character that a letter after a backslash stands for. -/
def unescape? : Char → Option Char
  | '"' => some '"'
  | '\\' => some '\\'
  | '/' => some '/'
  | 'b' => some '\x08'
  | 'f' => some '\x0C'
  | 'n' => some '\n'
  | 'r' => some '\r'
  | 't' => some '\t'
  | _ => none

/-- Reads a string after its opening quote: its text, and what follows the closing quote. -/
def readString? : Text → Option (Text × Text)
  | [] => none
  | '"' :: rest => some ([], rest)
  | '\\' :: 'u' :: a :: b :: c :: d :: rest =>
    match hexUnit? a b c d with
    | none => none
    | some high =>
      match ofUnit? high with
      | some char => (readString? rest).map fun (s, rest) => (char :: s, rest)
      | none =>
        match rest with
        | '\\' :: 'u' :: e :: f :: g :: h :: rest =>
          match (hexUnit? e f g h).bind (ofUnits? high) with
          | some char => (readString? rest).map fun (s, rest) => (char :: s, rest)
          | none => none
        | _ => none
  | '\\' :: e :: rest =>
    match unescape? e with
    | some char => (readString? rest).map fun (s, rest) => (char :: s, rest)
    | none => none
  | c :: rest =>
    if c.toNat < 32 || c == '\\' then none
    else (readString? rest).map fun (s, rest) => (c :: s, rest)

/-- A character that numbers are written with. -/
def isNumberChar (c : Char) : Bool :=
  c.isDigit || c == '-' || c == '+' || c == '.' || c == 'e' || c == 'E'

/-- Whether a literal keeps the rules of JSON numbers: no plus, no idle zero in front, and digits
on both sides of a point. -/
def isNumberLiteral (s : Text) : Bool :=
  let body := if s.head? = some '-' then s.drop 1 else s
  let (whole, rest) := body.span Char.isDigit
  !whole.isEmpty && (whole.head? != some '0' || whole.length == 1) &&
    match rest with
    | '.' :: c :: _ => c.isDigit
    | '.' :: [] => false
    | _ => true

/-- Reads a number at the front of a text. -/
def readNumber? (s : Text) : Option (Number × Text) :=
  let (literal, rest) := s.span isNumberChar
  if isNumberLiteral literal then
    match Number.ofLiteral? literal with
    | some n => if n.isFinite then some (n, rest) else none
    | none => none
  else
    none

/-- Reads items with commas between them up to the closing character, `fuel` of them at most. -/
def readItems? (item : Text → Option (α × Text)) (close : Char) :
    Nat → Text → Option (List α × Text)
  | 0, _ => none
  | fuel + 1, s =>
    match item s with
    | none => none
    | some (x, rest) =>
      match skipGap rest with
      | ',' :: rest => (readItems? item close fuel rest).map fun (xs, rest) => (x :: xs, rest)
      | c :: rest => if c = close then some ([x], rest) else none
      | [] => none

/-- Reads items after the opening character: either none, or some with commas between them. -/
def readList? (item : Text → Option (α × Text)) (close : Char) (s : Text) :
    Option (List α × Text) :=
  match skipGap s with
  | [] => none
  | c :: rest => if c = close then some ([], rest) else readItems? item close s.length (c :: rest)

/-- Reads a key, a colon and a value. -/
def readField? (value : Text → Option (Json × Text)) (s : Text) :
    Option ((Text × Json) × Text) :=
  match skipGap s with
  | '"' :: rest =>
    match readString? rest with
    | none => none
    | some (key, rest) =>
      match skipGap rest with
      | ':' :: rest => (value rest).map fun (v, rest) => ((key, v), rest)
      | _ => none
  | _ => none

/-- Reads a value at the front of a text, with `depth` levels of nesting left. -/
def readValue? : Nat → Text → Option (Json × Text)
  | depth, s =>
    match skipGap s with
    | 'n' :: 'u' :: 'l' :: 'l' :: rest => some (.null, rest)
    | 't' :: 'r' :: 'u' :: 'e' :: rest => some (.bool true, rest)
    | 'f' :: 'a' :: 'l' :: 's' :: 'e' :: rest => some (.bool false, rest)
    | '"' :: rest => (readString? rest).map fun (s, rest) => (.string s, rest)
    | '[' :: rest =>
      match depth with
      | 0 => none
      | depth + 1 =>
        (readList? (readValue? depth) ']' rest).map fun (items, rest) => (.array items, rest)
    | '{' :: rest =>
      match depth with
      | 0 => none
      | depth + 1 =>
        (readList? (readField? (readValue? depth)) '}' rest).map fun (fields, rest) =>
          (.object (lastOfEachKey fields), rest)
    | s => (readNumber? s).map fun (n, rest) => (.number n, rest)

/-- Reads a whole text. -/
def read? (s : Text) : Option Json :=
  match readValue? maxDepth s with
  | some (value, rest) => if (skipGap rest).isEmpty then some value else none
  | none => none

end SearchLang.Json
