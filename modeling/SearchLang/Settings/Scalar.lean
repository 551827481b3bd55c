import SearchLang.Text.Basic

/-!
# Scalars of a settings text

A settings text is a small YAML document. Its scalars are plain or stand
between quotes; comments start with `#` after a gap.
-/

namespace SearchLang.Settings

/-- What a key or a value is, as far as settings care. -/
inductive Value where
  /-- A scalar without quotes; an absent value is an empty one. -/
  | plain (s : Text)
  /-- A scalar between quotes. -/
  | quoted (s : Text)
  /-- A list, a mapping or a block of text. -/
  | other
  deriving DecidableEq, Repr

/-- A line break. -/
def isBreak (c : Char) : Bool :=
  c == '\n' || c == '\r' || c == '\u0085' || c == '\u2028' || c == '\u2029'

/-- A space or a tab. -/
def isBlank (c : Char) : Bool :=
  c == ' ' || c == '\t'

/-- Whether a text goes on with a blank or a line break, or ends. -/
def startsBlank : Text → Bool
  | [] => true
  | c :: _ => isBlank c || isBreak c

/-- Whether nothing but blanks and a comment is left of a line; a comment needs a blank before
it. -/
def isLineEnd : Text → Bool
  | [] => true
  | s@(c :: _) =>
    isBlank c &&
      match s.dropWhile isBlank with
      | [] => true
      | d :: _ => d == '#'

/-- The text after blanks, line breaks and comments. `gap` tells whether a comment may start. -/
def skipGap (gap : Bool) : Text → Text
  | [] => []
  | c :: cs =>
    if isBlank c || isBreak c then skipGap true cs
    else if c == '#' && gap then
      skipComment cs
    else c :: cs
where
  /-- The text after a comment and the gap that follows it. -/
  skipComment : Text → Text
    | [] => []
    | c :: cs => if isBreak c then skipGap true cs else skipComment cs

/-- A character that has a meaning at the start of a scalar, and so cannot start a plain one. -/
def isIndicator (c : Char) : Bool :=
  [',', '[', ']', '{', '}', '#', '&', '*', '!', '|', '>', '\'', '"', '%', '@', '\x60'].contains c

/-- Whether a plain scalar may start here. -/
def startsPlain : Text → Bool
  | [] => false
  | c :: rest =>
    if c == '-' || c == '?' || c == ':' then !startsBlank rest
    else !isIndicator c && !isBlank c

/-- The value of some digits of base sixteen. -/
def ofHex? (digits : Text) : Option Nat :=
  digits.foldlM (fun n c =>
    if c.isDigit then some (n * 16 + (c.toNat - '0'.toNat))
    else if 'a' ≤ c.toLower ∧ c.toLower ≤ 'f' then some (n * 16 + (c.toLower.toNat - 'a'.toNat + 10))
    else none) 0

/-- The character that a letter after a backslash stands for. -/
def unescape? : Char → Option Char
  | '0' => some '\x00'
  | 'a' => some '\x07'
  | 'b' => some '\x08'
  | 't' => some '\t'
  | 'n' => some '\n'
  | 'v' => some '\x0B'
  | 'f' => some '\x0C'
  | 'r' => some '\r'
  | 'e' => some '\x1B'
  | ' ' => some ' '
  | '\t' => some '\t'
  | '"' => some '"'
  | '/' => some '/'
  | '\\' => some '\\'
  | 'N' => some '\u0085'
  | '_' => some '\u00A0'
  | 'L' => some '\u2028'
  | 'P' => some '\u2029'
  | _ => none

/-- How many digits of base sixteen follow a letter after a backslash. -/
def escapeWidth? : Char → Option Nat
  | 'x' => some 2
  | 'u' => some 4
  | 'U' => some 8
  | _ => none

/-- Reads a scalar after its double quote, and gives what follows the closing one. -/
def readDouble? : Nat → Text → Option (Text × Text)
  | 0, _ => none
  | _ + 1, [] => none
  | fuel + 1, c :: rest =>
    if c == '"' then some ([], rest)
    else if c == '\\' then
      match rest with
      | [] => none
      | e :: rest =>
        match escapeWidth? e with
        | some width =>
          if rest.length < width then none
          else match ofHex? (rest.take width) with
          | some n =>
            (readDouble? fuel (rest.drop width)).map fun (s, rest) => (Char.ofNat n :: s, rest)
          | none => none
        | none =>
          if isBreak e then readDouble? fuel rest
          else match unescape? e with
          | some d => (readDouble? fuel rest).map fun (s, rest) => (d :: s, rest)
          | none => none
    else (readDouble? fuel rest).map fun (s, rest) => (c :: s, rest)

/-- Reads a scalar after its single quote; a quote inside is written twice. -/
def readSingle? : Text → Option (Text × Text)
  | [] => none
  | '\'' :: '\'' :: rest => (readSingle? rest).map fun (s, rest) => ('\'' :: s, rest)
  | '\'' :: rest => some ([], rest)
  | c :: rest => (readSingle? rest).map fun (s, rest) => (c :: s, rest)

/-- Reads a quoted scalar, if one stands here, and gives what follows it. Outer `none` is a quote
that is not closed. -/
def readQuoted? (s : Text) : Option (Option (Text × Text)) :=
  match s with
  | '"' :: rest => (readDouble? s.length rest).map some
  | '\'' :: rest => (readSingle? rest).map some
  | _ => some none

/-- A text without the blanks at its end. -/
def trimBlanks (s : Text) : Text :=
  Text.trimRight isBlank s

end SearchLang.Settings
