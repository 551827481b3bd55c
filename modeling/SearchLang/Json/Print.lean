import SearchLang.Json.Basic

/-!
# Printing JSON

A value is printed on one line without spaces, or over many lines with two
spaces for each level. Strings escape quotes, backslashes and control
characters, and nothing else.
-/

namespace SearchLang.Json

/-- A digit of base sixteen, letters in lower case. -/
def hexDigit (n : Nat) : Char :=
  Nat.digitChar n

/-- A character inside a string. -/
def escape (c : Char) : Text :=
  if c = '"' then ['\\', '"']
  else if c = '\\' then ['\\', '\\']
  else if c = '\n' then ['\\', 'n']
  else if c = '\r' then ['\\', 'r']
  else if c = '\t' then ['\\', 't']
  else if c = '\x08' then ['\\', 'b']
  else if c = '\x0C' then ['\\', 'f']
  else if c.toNat < 32 then
    ['\\', 'u', '0', '0', hexDigit (c.toNat / 16), hexDigit (c.toNat % 16)]
  else [c]

/-- A string with its quotes. -/
def quote (s : Text) : Text :=
  '"' :: s.flatMap escape ++ ['"']

/-- How the parts of a value are set apart. -/
inductive Style where
  /-- Everything on one line, without spaces. -/
  | compact
  /-- An item a line, two spaces in for each level. -/
  | pretty
  deriving DecidableEq, Repr

/-- What stands before an item at a level of nesting. -/
def Style.lineStart (style : Style) (level : Nat) : Text :=
  match style with
  | .compact => []
  | .pretty => '\n' :: List.replicate (2 * level) ' '

/-- What stands between a key and its value. -/
def Style.afterKey : Style → Text
  | .compact => [':']
  | .pretty => [':', ' ']

mutual

/-- The text of a value at a level of nesting. -/
def printAt (style : Style) (level : Nat) : Json → Text
  | null => "null".toList
  | bool true => "true".toList
  | bool false => "false".toList
  | number n => n.json
  | string s => quote s
  | array [] => ['[', ']']
  | array (item :: rest) =>
    '[' :: style.lineStart (level + 1) ++ printAt style (level + 1) item ++
      printItems style (level + 1) rest ++ style.lineStart level ++ [']']
  | object [] => ['{', '}']
  | object (field :: rest) =>
    '{' :: style.lineStart (level + 1) ++ printField style (level + 1) field ++
      printFields style (level + 1) rest ++ style.lineStart level ++ ['}']

/-- The items of an array after the first. -/
def printItems (style : Style) (level : Nat) : List Json → Text
  | [] => []
  | item :: rest =>
    ',' :: style.lineStart level ++ printAt style level item ++ printItems style level rest

/-- A field of an object. -/
def printField (style : Style) (level : Nat) : Text × Json → Text
  | (key, value) => quote key ++ style.afterKey ++ printAt style level value

/-- The fields of an object after the first. -/
def printFields (style : Style) (level : Nat) : List (Text × Json) → Text
  | [] => []
  | field :: rest =>
    ',' :: style.lineStart level ++ printField style level field ++ printFields style level rest

end

/-- The text of a value. -/
def print (style : Style) (value : Json) : Text :=
  printAt style 0 value

end SearchLang.Json
