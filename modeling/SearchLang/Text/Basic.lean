/-!
# Text

Text is a list of characters. This module holds the operations on text that the
rest of the library shares: trimming by a class of characters, the length in
UTF-8 bytes, joining, and looking for a marker inside a text.
-/

namespace SearchLang

/-- A text, character by character. -/
abbrev Text := List Char

namespace Text

/-- Drops the leading characters of the class `p`. -/
def trimLeft (p : Char → Bool) (s : Text) : Text :=
  s.dropWhile p

/-- Drops the trailing characters of the class `p`. -/
def trimRight (p : Char → Bool) : Text → Text
  | [] => []
  | c :: cs =>
    match trimRight p cs with
    | [] => if p c then [] else [c]
    | kept => c :: kept

/-- Drops the characters of the class `p` at both ends. -/
def trim (p : Char → Bool) (s : Text) : Text :=
  trimRight p (trimLeft p s)

/-- The number of bytes of the UTF-8 form. -/
def byteLength : Text → Nat
  | [] => 0
  | c :: cs => c.utf8Size + byteLength cs

/-- The texts one after the other, with `separator` between neighbours. -/
def join (separator : Text) : List Text → Text
  | [] => []
  | [s] => s
  | s :: rest => s ++ separator ++ join separator rest

/-- The text with ASCII letters in upper case; other characters stay. -/
def toUpperAscii (s : Text) : Text :=
  s.map Char.toUpper

/-- The text with ASCII letters in lower case; other characters stay. -/
def toLowerAscii (s : Text) : Text :=
  s.map Char.toLower

/-- The parts before and after the first two dots in a row, if there are any. -/
def splitAtDots : Text → Option (Text × Text)
  | '.' :: '.' :: rest => some ([], rest)
  | c :: rest => (splitAtDots rest).map fun (before, after) => (c :: before, after)
  | [] => none

@[simp] theorem join_singleton (separator s : Text) : join separator [s] = s := rfl

theorem join_cons_cons (separator s t : Text) (rest : List Text) :
    join separator (s :: t :: rest) = s ++ (separator ++ join separator (t :: rest)) :=
  List.append_assoc ..

@[simp] theorem trimRight_nil (p : Char → Bool) : trimRight p [] = [] := rfl

theorem length_trimRight_le (p : Char → Bool) (s : Text) :
    (trimRight p s).length ≤ s.length := by
  induction s with
  | nil => simp
  | cons c cs ih =>
    rw [trimRight]
    split
    · split <;> simp
    · simpa using ih

/-- The last character that trimming keeps is outside the class. -/
theorem getLast?_trimRight (p : Char → Bool) (s : Text) (c : Char)
    (h : (trimRight p s).getLast? = some c) : p c = false := by
  induction s with
  | nil => simp at h
  | cons d ds ih =>
    rw [trimRight] at h
    split at h
    · split at h
      · simp at h
      · simp_all
    · rename_i kept hk
      apply ih
      rw [List.getLast?_cons] at h
      cases hl : (trimRight p ds).getLast? with
      | none => simp_all
      | some e => simp_all

/-- Splitting at two dots loses just the dots. -/
theorem append_of_splitAtDots {s before after : Text}
    (h : splitAtDots s = some (before, after)) :
    s = before ++ '.' :: '.' :: after := by
  fun_induction splitAtDots s generalizing before after with
  | case1 rest => simp_all
  | case2 c rest _ ih =>
    simp only [Option.map_eq_some_iff, Prod.mk.injEq, Prod.exists] at h
    obtain ⟨b, a, hs, rfl, rfl⟩ := h
    simp [← ih hs]
  | case3 => simp at h

/-- Two dots are not found before the first dot of a text. -/
theorem splitAtDots_append {before : Text} (h : ∀ c ∈ before, c ≠ '.') (s : Text) :
    splitAtDots (before ++ s) = (splitAtDots s).map fun parts => (before ++ parts.1, parts.2) := by
  induction before with
  | nil => simp
  | cons c cs ih =>
    have hc : c ≠ '.' := h c (by simp)
    rw [List.cons_append, splitAtDots]
    · rw [ih fun d hd => h d (by simp [hd]), Option.map_map]
      rfl
    · simp [hc]

end Text

end SearchLang
