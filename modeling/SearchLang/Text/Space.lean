import SearchLang.Text.Basic

/-!
# Spaces

Three classes of separating characters: the space characters of Unicode, the
ASCII characters whose runs count as one space in a query, and the characters
trimmed off the ends of a piece of a query.
-/

namespace SearchLang.Text

/-- A character with the Unicode property White_Space. -/
def isSpace (c : Char) : Bool :=
  let n := c.toNat
  (9 ≤ n && n ≤ 13) || n == 0x20 || n == 0x85 || n == 0xA0 || n == 0x1680 ||
    (0x2000 ≤ n && n ≤ 0x200A) || n == 0x2028 || n == 0x2029 || n == 0x202F ||
    n == 0x205F || n == 0x3000

/-- Tab, line feed, vertical tab, form feed, carriage return or space. -/
def isBlank (c : Char) : Bool :=
  c == ' ' || c == '\t' || c == '\n' || c == '\x0B' || c == '\x0C' || c == '\r'

/-- A character trimmed off the ends of a chunk: NUL and the blanks but for the form feed. -/
def isPadding (c : Char) : Bool :=
  c == ' ' || c == '\t' || c == '\n' || c == '\r' || c == '\x00' || c == '\x0B'

/-- The text without the space characters at its ends. -/
def trimSpace (s : Text) : Text :=
  trim isSpace s

/-- The text with each run of blanks replaced by one space. -/
def collapseBlanks : Text → Text
  | [] => []
  | c :: cs =>
    if isBlank c then
      match cs with
      | [] => [' ']
      | d :: _ => if isBlank d then collapseBlanks cs else ' ' :: collapseBlanks cs
    else
      c :: collapseBlanks cs

/-- Some blanks, at least one. -/
def IsBlankRun (run : Text) : Prop :=
  run ≠ [] ∧ ∀ c ∈ run, isBlank c = true

/-- One text has a run of blanks wherever the other one has, and all other characters in common
with it. -/
inductive Respaced : Text → Text → Prop
  | nil : Respaced [] []
  | char {c : Char} {s s' : Text} (hc : isBlank c = false) (h : Respaced s s') :
    Respaced (c :: s) (c :: s')
  /-- A run that is as long as it can be is replaced as a whole. -/
  | run {run run' s s' : Text} (hrun : IsBlankRun run) (hrun' : IsBlankRun run')
    (hend : ∀ c ∈ s.head?, isBlank c = false) (h : Respaced s s') :
    Respaced (run ++ s) (run' ++ s')

theorem isSpace_of_isBlank {c : Char} (h : isBlank c = true) : isSpace c = true := by
  simp only [isBlank, Bool.or_eq_true, beq_iff_eq] at h
  rcases h with ((((h | h) | h) | h) | h) | h <;> subst h <;> decide

theorem collapseBlanks_eq_nil {s : Text} : collapseBlanks s = [] ↔ s = [] := by
  constructor
  · intro h
    fun_induction collapseBlanks s with
    | case1 => rfl
    | case2 => simp at h
    | case3 c hc d ds hd ih => exact absurd (ih h) (by simp)
    | case4 => simp at h
    | case5 => simp at h
  · rintro rfl
    rfl

end SearchLang.Text
