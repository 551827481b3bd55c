import SearchLang.Settings.Scalar

/-!
# Values between brackets

Lists between `[ ]` and mappings between `{ }`, with commas between their
items. A mapping gives its entries; of other values only the form matters.
-/

namespace SearchLang.Settings

/-- A character that ends a plain scalar between brackets. -/
def isFlowMark (c : Char) : Bool :=
  c == ',' || c == '[' || c == ']' || c == '{' || c == '}'

/-- The plain scalar at the front of a text between brackets, and what follows it. -/
def spanFlowPlain (gap : Bool) : Text → Text × Text
  | [] => ([], [])
  | c :: rest =>
    if isFlowMark c || isBreak c || (c == ':' && (startsBlank rest || rest.head?.any isFlowMark)) ||
        (c == '#' && gap) then
      ([], c :: rest)
    else
      let (s, after) := spanFlowPlain (isBlank c) rest
      (c :: s, after)

/-- Reads a scalar between brackets. -/
def readFlowScalar? (s : Text) : Option (Value × Text) :=
  match readQuoted? s with
  | none => none
  | some (some (q, rest)) => some (.quoted q, rest)
  | some none =>
    if startsPlain s then
      let (p, rest) := spanFlowPlain false s
      match rest with
      | ':' :: d :: _ => if isFlowMark d then none else some (.plain (trimBlanks p), rest)
      | _ => some (.plain (trimBlanks p), rest)
    else
      none

/-- Reads the entries of a list or a mapping up to its closing bracket, given how a value is read.
An entry without a colon has no value. -/
def readEntries? (value : Text → Option (Value × Text)) (close : Char) :
    Nat → Text → Option (List (Value × Value) × Text)
  | 0, _ => none
  | fuel + 1, s =>
    match skipGap true s with
    | [] => none
    | c :: rest =>
      if c == close then some ([], rest)
      else
        match value (c :: rest) with
        | none => none
        | some (key, rest) =>
          let entry? :=
            match skipGap true rest with
            | ':' :: rest =>
              match skipGap true rest with
              | [] => none
              | d :: _ =>
                if d == ',' || d == close then some (Value.plain [], skipGap true rest)
                else value (skipGap true rest)
            | rest => some (.plain [], rest)
          match entry? with
          | none => none
          | some (v, rest) =>
            match skipGap true rest with
            | ',' :: rest =>
              (readEntries? value close fuel rest).map fun (es, rest) => ((key, v) :: es, rest)
            | d :: rest => if d == close then some ([(key, v)], rest) else none
            | [] => none

/-- Reads a value between brackets, with `depth` levels of brackets left. -/
def readFlow? : Nat → Text → Option (Value × Text)
  | depth, s =>
    match s, depth with
    | '[' :: rest, depth + 1 =>
      (readEntries? (readFlow? depth) ']' s.length rest).map fun (_, rest) => (.other, rest)
    | '{' :: rest, depth + 1 =>
      (readEntries? (readFlow? depth) '}' s.length rest).map fun (_, rest) => (.other, rest)
    | s, _ => readFlowScalar? s

/-- How deep brackets may nest. -/
def maxDepth : Nat := 127

/-- Reads a mapping after its opening bracket, and gives its entries and what follows. -/
def readFlowMapping? (s : Text) : Option (List (Value × Value) × Text) :=
  readEntries? (readFlow? maxDepth) '}' (s.length + 1) s

end SearchLang.Settings
