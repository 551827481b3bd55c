import SearchLang.Token.Basic

/-!
# Symbols

A chunk that is an operator, a bracket or a keyword, and the chunks of one
ASCII character that are neither: a letter stands for itself, other marks are
strays.
-/

namespace SearchLang

/-- The two modifiers of a value. -/
inductive Modifier where
  | boost
  | fuzzy
  deriving DecidableEq, Repr

/-- The kind of a modifier's token. -/
def Modifier.kind : Modifier → Kind
  | .boost => .boost
  | .fuzzy => .fuzzy

/-- A chunk with a fixed meaning. -/
inductive Symbol where
  | sign (s : Sign)
  | greater
  | less
  | equals
  | modifier (m : Modifier)
  | rangeStart (b : Bracket)
  | rangeEnd
  | subqueryStart
  | subqueryEnd
  | wildcard
  | or
  | and
  | upTo
  | letter (c : Char)
  | stray (c : Char)
  deriving DecidableEq, Repr

namespace Symbol

/-- The symbol that one character stands for. -/
def ofChar? (c : Char) : Option Symbol :=
  match c with
  | '+' => some (.sign .required)
  | '-' => some (.sign .prohibited)
  | '>' => some .greater
  | '<' => some .less
  | '=' => some .equals
  | '~' => some (.modifier .fuzzy)
  | '^' => some (.modifier .boost)
  | '[' => some (.rangeStart .inclusive)
  | '{' => some (.rangeStart .exclusive)
  | ']' => some .rangeEnd
  | '}' => some .rangeEnd
  | '(' => some .subqueryStart
  | ')' => some .subqueryEnd
  | '*' => some .wildcard
  | c =>
    if c.isAlpha then some (.letter c)
    else if c.toNat < 128 then some (.stray c)
    else none

/-- Keywords of more than one character; the case of their letters does not count. -/
def keyword? (s : Text) : Option Symbol :=
  match Text.toUpperAscii s with
  | ['|', '|'] => some .or
  | ['O', 'R'] => some .or
  | ['&', '&'] => some .and
  | ['A', 'N', 'D'] => some .and
  | ['.', '.'] => some .upTo
  | ['T', 'O'] => some .upTo
  | _ => none

/-- The symbol that a chunk stands for. -/
def ofChunk? : Text → Option Symbol
  | [c] => ofChar? c
  | s => keyword? s

theorem keyword?_singleton (c : Char) : keyword? [c] = none := by
  simp [keyword?, Text.toUpperAscii]

theorem keyword?_cases {value : Text} {symbol : Symbol} (h : keyword? value = some symbol) :
    symbol = .or ∨ symbol = .and ∨ symbol = .upTo := by
  unfold keyword? at h
  split at h <;> simp_all

/-- A symbol is one character or a keyword. -/
theorem of_ofChunk? {value : Text} {symbol : Symbol} (h : ofChunk? value = some symbol) :
    (∃ c, value = [c] ∧ ofChar? c = some symbol) ∨
      symbol = .or ∨ symbol = .and ∨ symbol = .upTo := by
  unfold ofChunk? at h
  split at h
  · exact .inl ⟨_, rfl, h⟩
  · exact .inr (keyword?_cases h)

end Symbol

end SearchLang
