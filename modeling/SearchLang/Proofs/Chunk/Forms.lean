import SearchLang.Proofs.Chunk.Spaces

/-!
# Forms of chunks

Every chunk is cut off by one of the forms that are tried at its place, which is told
from the text before it and from it and the text after it (`length_of_split_eq`). A
word goes on as far as it can, and outside of emoticons, links and phrases a character
that no word holds is a chunk of its own (`split_cuts_forms`).
-/

namespace SearchLang.Chunk

open Pattern

/-! ## Forms -/

/-- What cuts a chunk off: a form, or nothing, for a character that none of them can start. -/
inductive Form where
  | emoticon
  | link
  | phrase
  | field
  | word
  | single
  deriving DecidableEq, Repr

/-- How far a form goes from the front of a text. -/
def Form.length? : Form → Text → Option Nat
  | .emoticon, s => emoticonLength? s
  | .link, s => urlLength? s
  | .phrase, s => phraseLength? s
  | .field, s => fieldLength? isFoldedLetter s
  | .word, s => some (wordLength s)
  | .single, _ => some 1

/-- The first form that fits at the front of a text, an emoticon only after a space. -/
def formAt (afterSpace : Bool) (s : Text) : Form :=
  let emoticon? := if afterSpace then emoticonLength? s else none
  match emoticon?, urlLength? s, phraseLength? s, fieldLength? isFoldedLetter s with
  | some _, _, _, _ => .emoticon
  | none, some _, _, _ => .link
  | none, none, some _, _ => .phrase
  | none, none, none, some _ => .field
  | none, none, none, none => if wordLength s = 0 then .single else .word

/-- Whether a form may go on across spaces and structural characters. -/
def Form.takesStops (f : Form) : Bool :=
  f == .emoticon || f == .link || f == .phrase

/-- The form at the front of a text is the one that cuts its chunk off. -/
theorem length?_formAt (afterSpace : Bool) (s : Text) :
    (formAt afterSpace s).length? s = some (lengthAt afterSpace s) := by
  unfold formAt lengthAt
  dsimp only
  split
  · rename_i hemoticon
    have hspace : afterSpace = true := by
      cases afterSpace with
      | true => rfl
      | false => simp at hemoticon
    simp_all [Form.length?]
  · simp_all [Form.length?]
  · simp_all [Form.length?]
  · simp_all [Form.length?]
  · split
    · simp_all [Form.length?]
    · have hpos : max 1 (wordLength s) = wordLength s := by omega
      simp_all [Form.length?]

/-! ## Characters of forms -/

theorem isPlain_of_isNameRest {c : Char} (h : (isNameRest c || isFoldedLetter c) = true) :
    isPlain c = true := by
  rcases Bool.or_eq_true_iff.mp h with h | h
  · exact (isTame_iff.mp (isTame_of_isNameRest h)).1
  · simp only [isFoldedLetter, Bool.or_eq_true, beq_iff_eq] at h
    rcases h with rfl | rfl <;> decide

/-- A field is made of plain characters. -/
theorem isPlain_of_fieldLength? {s : Text} {n : Nat} (h : fieldLength? isFoldedLetter s = some n) :
    ∀ c ∈ s.take n, isPlain c = true := by
  obtain ⟨m, d, name, hstart, hname, -, htake⟩ := exists_name_of_fieldLength? h
  have hd : (isNameRest d || isFoldedLetter d) = true := by
    rcases Bool.or_eq_true_iff.mp hstart with hd | hd
    · rw [isNameRest_of_isFieldStart hd, Bool.true_or]
    · rw [hd, Bool.or_true]
  intro c hc
  rw [htake] at hc
  simp only [List.mem_append, List.mem_cons, List.not_mem_nil, or_false] at hc
  rcases hc with hc | rfl | hc | rfl
  · rcases lead_cases m with hm | hm | hm <;> simp_all <;> decide
  · exact isPlain_of_isNameRest hd
  · exact isPlain_of_isNameRest (hname c hc)
  · decide

/-- A word is the run of plain characters at the front of a text. -/
theorem takeWhile_of_wordLength {chunk rest : Text}
    (h : wordLength (chunk ++ rest) = chunk.length) :
    (chunk ++ rest).takeWhile isPlain = chunk := by
  have hrun := List.prefix_iff_eq_take.mp (List.takeWhile_prefix isPlain (l := chunk ++ rest))
  rw [hrun, ← wordLength, h, List.take_left]

/-- A word goes on as far as it can. -/
theorem isPlain_head?_of_wordLength {chunk rest : Text}
    (h : wordLength (chunk ++ rest) = chunk.length) : ∀ c ∈ rest.head?, isPlain c = false := by
  have hrest : (chunk ++ rest).dropWhile isPlain = rest := by
    rw [← drop_length_takeWhile, ← wordLength, h, List.drop_left]
  intro c hc
  rw [← hrest] at hc
  have hnot := List.head?_dropWhile_not isPlain (chunk ++ rest)
  rw [hc] at hnot
  simpa using hnot

/-- Outside of emoticons, links and phrases a character that no word holds is cut off alone. -/
theorem eq_singleton_of_formAt {afterSpace : Bool} {chunk rest : Text}
    (hcut : (formAt afterSpace (chunk ++ rest)).length? (chunk ++ rest) = some chunk.length)
    (hform : (formAt afterSpace (chunk ++ rest)).takesStops = false) {c : Char} (hc : c ∈ chunk)
    (hstop : isPlain c = false) : chunk = [c] := by
  -- words and fields hold none
  have hnotAll (hall : ∀ d ∈ chunk, isPlain d = true) : chunk = [c] := by
    have hplain := hall c hc
    rw [hstop] at hplain
    cases hplain
  cases hkind : formAt afterSpace (chunk ++ rest) with
  | emoticon | link | phrase =>
    rw [hkind] at hform
    cases hform
  | field =>
    rw [hkind] at hcut
    have hall := isPlain_of_fieldLength? hcut
    rw [List.take_left] at hall
    exact hnotAll hall
  | word =>
    rw [hkind] at hcut
    have hword := takeWhile_of_wordLength (Option.some.inj hcut)
    exact hnotAll fun d hd => List.mem_takeWhile_imp (hword ▸ hd)
  | single =>
    rw [hkind] at hcut
    obtain ⟨d, rfl⟩ := List.length_eq_one_iff.mp (Option.some.inj hcut).symm
    rw [List.mem_singleton.mp hc]

/-! ## Places -/

theorem endsInSpace_append (before : Text) {chunk : Text} (hne : chunk ≠ []) :
    endsInSpace (before ++ chunk) = endsInSpace chunk := by
  unfold endsInSpace
  rw [List.getLast?_append, List.getLast?_eq_some_getLast hne, Option.some_or]

theorem of_split_eq_cons {afterSpace : Bool} {s chunk : Text} {after : List Text}
    (h : split afterSpace s = chunk :: after) :
    chunk.length = lengthAt afterSpace s ∧
      after = split (endsInSpace chunk) (s.drop (lengthAt afterSpace s)) := by
  cases s with
  | nil => simp at h
  | cons c cs =>
    rw [split] at h
    obtain ⟨rfl, hafter⟩ := List.cons.inj h
    exact ⟨List.length_take_of_le (lengthAt_le afterSpace (by simp)), hafter.symm⟩

/-- How long a chunk is can be told from the text before it, and from it and the text after it. -/
theorem length_of_split_eq (lead : Text) {s chunk : Text} {before after : List Text}
    (h : split (endsInSpace lead) s = before ++ chunk :: after) :
    chunk.length =
      lengthAt (endsInSpace (lead ++ before.flatten)) (chunk ++ after.flatten) := by
  induction before generalizing lead s with
  | nil =>
    have hs : s = chunk ++ after.flatten := by
      rw [← flatten_split (endsInSpace lead) s, h, List.nil_append, List.flatten_cons]
    rw [List.flatten_nil, List.append_nil, ← hs]
    exact (of_split_eq_cons h).1
  | cons b before ih =>
    have hmem : b ∈ split (endsInSpace lead) s := by
      rw [h]
      exact List.mem_cons_self
    have hne : b ≠ [] := ne_nil_of_mem_split hmem
    have hrest := (of_split_eq_cons h).2
    rw [← endsInSpace_append lead hne] at hrest
    rw [ih (lead ++ b) hrest.symm, List.flatten_cons, List.append_assoc]

/-- There are at most as many chunks as characters. -/
theorem length_split_le (afterSpace : Bool) (s : Text) :
    (split afterSpace s).length ≤ s.length := by
  fun_induction split afterSpace s with
  | case1 => exact Nat.le_refl _
  | case2 afterSpace c cs n chunk ih =>
    have hpos : 0 < n := lengthAt_pos afterSpace (c :: cs)
    simp only [List.length_drop, List.length_cons] at ih ⊢
    omega

/-- **A text is cut into forms that go on as far as they can.** The chunks are not empty and add up
to the text, so that there are at most as many of them as characters. Each is what the first form
that fits at its place goes on with. After a word comes the end of the text, a space or a structural
character; and where no emoticon, link or phrase fits, a space or a structural character is a chunk
of its own. -/
theorem split_cuts_forms (s : Text) :
    (split true s).flatten = s ∧ (∀ chunk ∈ split true s, chunk ≠ []) ∧
      (split true s).length ≤ s.length ∧
      ∀ before chunk after, split true s = before ++ chunk :: after →
        let form := formAt (endsInSpace before.flatten) (chunk ++ after.flatten)
        form.length? (chunk ++ after.flatten) = some chunk.length ∧
          (form = .word → ∀ c ∈ after.flatten.head?,
            Text.isSpace c = true ∨ isStructural c = true) ∧
          (form.takesStops = false → ∀ c ∈ chunk,
            Text.isSpace c = true ∨ isStructural c = true → chunk = [c]) := by
  have hstop (c : Char) : isPlain c = false ↔ Text.isSpace c = true ∨ isStructural c = true := by
    cases hspace : Text.isSpace c <;> simp [isPlain, hspace]
  refine ⟨flatten_split true s, fun chunk => ne_nil_of_mem_split, length_split_le true s, ?_⟩
  intro before chunk after h form
  have hcut : form.length? (chunk ++ after.flatten) = some chunk.length := by
    rw [length?_formAt]
    exact congrArg some (length_of_split_eq [] h).symm
  refine ⟨hcut, fun hword c hc => ?_, fun hform c hc hc' => ?_⟩
  · rw [hword] at hcut
    exact (hstop c).mp (isPlain_head?_of_wordLength (Option.some.inj hcut) c hc)
  · exact eq_singleton_of_formAt hcut hform hc ((hstop c).mpr hc')

/-- In `ab( :)` the word ends before the bracket, which is a chunk of its own; the other bracket is
part of an emoticon. -/
theorem split_cuts_forms_brackets :
    let s := "ab( :)".toList
    split true s = [['a', 'b'], ['('], [' '], [':', ')']] ∧
      formAt true s = .word ∧
      (∀ c ∈ ['(', ' ', ':', ')'].head?, Text.isSpace c = true ∨ isStructural c = true) ∧
      (∀ c ∈ ['('], Text.isSpace c = true ∨ isStructural c = true → ['('] = [c]) ∧
      formAt true [':', ')'] = .emoticon := by
  intro s
  have hsplit : split true s = [['a', 'b'], ['('], [' '], [':', ')']] := by decide +kernel
  have hform : formAt true s = .word := by decide
  obtain ⟨-, -, -, hforms⟩ := split_cuts_forms s
  obtain ⟨-, hword, -⟩ := hforms [] ['a', 'b'] [['('], [' '], [':', ')']] hsplit
  obtain ⟨-, -, hown⟩ := hforms [['a', 'b']] ['('] [[' '], [':', ')']] hsplit
  exact ⟨hsplit, hform, hword hform, hown (by decide), by decide⟩

end SearchLang.Chunk
