import SearchLang.Token.Pattern

/-!
# Chunks

A query is cut into chunks before its tokens are told apart. At each place the
first form that fits decides how far the chunk goes: an emoticon (only after a
space), a link, a phrase, a field, a plain word. A character that none of them
can start is a chunk of its own, so the chunks add up to the text.
-/

namespace SearchLang.Chunk

open Pattern

/-- The length of the chunk at the front of a text, where `afterSpace` tells whether a space or
nothing comes before it. -/
def lengthAt (afterSpace : Bool) (s : Text) : Nat :=
  let emoticon? := if afterSpace then emoticonLength? s else none
  match emoticon? <|> urlLength? s <|> phraseLength? s <|> fieldLength? isFoldedLetter s with
  | some n => n
  | none => max 1 (wordLength s)

/-- A character that an emoticon starts with. -/
def startsEmoticon (c : Char) : Bool :=
  [':', ';', '<', '=', '>'].contains c

/-- Whether the last character of a text is a space. -/
def endsInSpace (s : Text) : Bool :=
  match s.getLast? with
  | some c => Text.isSpace c
  | none => true

theorem emoticonLength?_pos {s : Text} {n : Nat} (h : emoticonLength? s = some n) : 0 < n := by
  simp only [emoticonLength?, Option.map_eq_some_iff] at h
  obtain ⟨e, he, rfl⟩ := h
  have hmem := List.mem_of_find?_eq_some he
  have hall : ∀ e ∈ emoticons, 0 < e.length := by decide
  exact hall e hmem

theorem urlLength?_pos {s : Text} {n : Nat} (h : urlLength? s = some n) : 0 < n := by
  unfold urlLength? at h
  generalize (if s.head? = some '+' then 1 else 0) = start at h
  simp only at h
  split at h
  · simp at h
  · split at h
    · simp only [Option.map_eq_some_iff] at h
      obtain ⟨_, _, rfl⟩ := h
      omega
    · simp at h

theorem phraseLength?_pos {s : Text} {n : Nat} (h : phraseLength? s = some n) : 0 < n := by
  unfold phraseLength? at h
  grind

theorem fieldLength?_pos {more : Char → Bool} {s : Text} {n : Nat}
    (h : fieldLength? more s = some n) : 0 < n := by
  unfold fieldLength? at h
  grind

/-- Every chunk holds a character. -/
theorem lengthAt_pos (afterSpace : Bool) (s : Text) : 0 < lengthAt afterSpace s := by
  unfold lengthAt
  simp only
  split
  · rename_i n h
    simp only [Option.orElse_eq_orElse, Option.orElse_eq_or, Option.or_eq_some_iff] at h
    rcases h with h | ⟨_, h | ⟨_, h | ⟨_, h⟩⟩⟩
    · split at h
      · exact emoticonLength?_pos h
      · simp at h
    · exact urlLength?_pos h
    · exact phraseLength?_pos h
    · exact fieldLength?_pos h
  · omega

/-- The chunks of a text. -/
def split (afterSpace : Bool) : Text → List Text
  | [] => []
  | c :: cs =>
    let n := lengthAt afterSpace (c :: cs)
    let chunk := (c :: cs).take n
    chunk :: split (endsInSpace chunk) ((c :: cs).drop n)
termination_by s => s.length
decreasing_by
  have := lengthAt_pos afterSpace (c :: cs)
  simp only [List.length_drop, List.length_cons]
  omega

@[simp] theorem split_nil (afterSpace : Bool) : split afterSpace [] = [] := by
  rw [split]

/-- The chunks, one after the other, are the text. -/
theorem flatten_split (afterSpace : Bool) (s : Text) : (split afterSpace s).flatten = s := by
  fun_induction split afterSpace s with
  | case1 => rfl
  | case2 afterSpace c cs n chunk ih =>
    rw [List.flatten_cons, ih]
    exact List.take_append_drop _ _

/-- No chunk is empty. -/
theorem ne_nil_of_mem_split {afterSpace : Bool} {s chunk : Text}
    (h : chunk ∈ split afterSpace s) : chunk ≠ [] := by
  fun_induction split afterSpace s with
  | case1 => simp at h
  | case2 afterSpace c cs n chunk' ih =>
    rcases List.mem_cons.mp h with h | h
    · have := lengthAt_pos afterSpace (c :: cs)
      intro hnil
      rw [h] at hnil
      have hlen := congrArg List.length hnil
      simp only [chunk', n, List.length_take, List.length_cons, List.length_nil] at hlen
      omega
    · exact ih h

/-- The chunks of a query, whose runs of blanks count as one space. -/
def ofQuery (q : Text) : List Text :=
  split true (Text.collapseBlanks (' ' :: q))

end SearchLang.Chunk
