import Mathlib.Data.List.Count
import SearchLang.Proofs.Scan.ChunkSpaces

/-!
# Characters of words

The words and phrases of a scan are made of characters of the query, and no
character is used twice. So for every class of characters, a chunk brings no more
of the class than it has itself (`wordCount_step_le`).
-/

namespace SearchLang

open Pattern

/-- The text of a token that can be a bound of a word range. -/
def Token.boundText? (t : Token) : Option Text :=
  if t.kind = .word ∨ t.kind = .text .phrase then t.text? else none

namespace Scan

/-- The words and phrases so far, the newest first. -/
def boundTexts (s : Scan) : List Text :=
  s.tokens.filterMap Token.boundText?

/-- How many characters of a class the words and phrases so far have. -/
def wordCount (p : Char → Bool) (s : Scan) : Nat :=
  s.boundTexts.flatten.countP p

variable (p : Char → Bool) (s : Scan) {value : Text}

theorem wordCount_congr {s s' : Scan} (h : s'.boundTexts = s.boundTexts) :
    s'.wordCount p = s.wordCount p := by
  rw [wordCount, h, wordCount]

/-- A word or a phrase is made of characters that count. -/
theorem countP_le_wordCount (h : value ∈ s.boundTexts) : value.countP p ≤ s.wordCount p :=
  (List.infix_of_mem_flatten h).sublist.countP_le

/-! ## Tokens that bring no text -/

theorem boundText?_mark (k : Kind) : (Token.mark k).boundText? = none := by
  unfold Token.boundText?
  split <;> rfl

theorem boundText?_ofText {k : Kind} (h : k ≠ .word ∧ k ≠ .text .phrase) (value : Text) :
    (Token.ofText k value).boundText? = none :=
  if_neg (not_or.mpr h)

theorem boundTexts_add_of_none {t : Token} (h : t.boundText? = none) :
    (s.add t).boundTexts = s.boundTexts := by
  simp [boundTexts, add, h]

@[simp] theorem boundTexts_addOnce (k : Kind) : (s.addOnce k).boundTexts = s.boundTexts := by
  unfold addOnce
  split
  · rfl
  · exact boundTexts_add_of_none s (boundText?_mark k)

@[simp] theorem boundTexts_closeFilter : s.closeFilter.boundTexts = s.boundTexts :=
  boundTexts_addOnce _ _

@[simp] theorem boundTexts_settle : s.settle.boundTexts = s.boundTexts := by
  unfold settle
  split
  · exact boundTexts_closeFilter s
  · rfl

@[simp] theorem boundTexts_takeSign (value : Text) :
    (s.takeSign value).1.boundTexts = s.boundTexts := by
  unfold takeSign
  split <;> simp

theorem boundTexts_addModifier (m : Modifier) : (s.addModifier m).boundTexts = s.boundTexts := by
  unfold addModifier
  split
  · rfl
  · split <;> simp

theorem boundTexts_closeRange : s.closeRange.boundTexts = s.boundTexts := by
  unfold closeRange
  split
  · rfl
  · rw [boundTexts_closeFilter]
    exact boundTexts_addOnce s _

/-- Of the symbols only a letter is a word. -/
theorem boundTexts_symbol {symbol : Symbol} (h : ∀ c, symbol ≠ .letter c) :
    (s.symbol symbol).boundTexts = s.boundTexts := by
  cases symbol with
  | letter c => exact absurd rfl (h c)
  | sign | wildcard | or | and => exact boundTexts_addOnce s _
  | greater | less | equals | upTo =>
    simp only [symbol]
    split
    · exact boundTexts_addOnce s _
    · rfl
  | modifier m => exact boundTexts_addModifier s m
  | rangeStart b =>
    simp only [symbol, openRange]
    split
    · exact boundTexts_addOnce _ _
    · rfl
  | rangeEnd => exact boundTexts_closeRange s
  | subqueryStart =>
    simp only [symbol, openSubquery]
    split
    · rfl
    · exact boundTexts_add_of_none _ (boundText?_mark _)
  | subqueryEnd =>
    simp only [symbol, closeSubquery]
    split
    · rfl
    · split
      · rw [boundTexts_closeFilter]
        exact boundTexts_add_of_none _ (boundText?_mark _)
      · exact boundTexts_add_of_none _ (boundText?_mark _)
  | stray c => exact boundTexts_add_of_none s (boundText?_ofText (by simp) _)

theorem boundTexts_chunk_of_number? (hne : value ≠ []) {n : Number} (h : number? value = some n) :
    (s.chunk value).boundTexts = s.boundTexts := by
  rw [chunk, if_neg hne, h]
  exact boundTexts_add_of_none s rfl

theorem boundTexts_close : s.close.boundTexts = s.boundTexts := by
  have hend : ({ s with inSubquery := false }.add (.mark .subqueryEnd)).boundTexts =
      s.boundTexts := boundTexts_add_of_none _ (boundText?_mark _)
  unfold close
  cases s.inSubquery <;> simp only [Bool.false_eq_true, if_false, if_true]
  · split
    · exact boundTexts_closeFilter s
    · rfl
  · split
    · rw [boundTexts_closeFilter, hend]
    · exact hend

/-! ## Words -/

/-- A text brings its own characters at most. -/
theorem wordCount_add_ofText_le (k : Kind) (value : Text) :
    (s.add (.ofText k value)).wordCount p ≤ value.countP p + s.wordCount p := by
  by_cases hk : k = .word ∨ k = .text .phrase
  · have hadd : (s.add (.ofText k value)).boundTexts = value :: s.boundTexts :=
      List.filterMap_cons_some (if_pos hk)
    rw [wordCount, hadd, List.flatten_cons, List.countP_append, wordCount]
  · rw [wordCount_congr p (boundTexts_add_of_none s (boundText?_ofText (not_or.mp hk) value))]
    omega

/-- A word that is glued to another one keeps the characters of both. -/
theorem wordCount_addWord (value : Text) :
    (s.addWord value).wordCount p = value.countP p + s.wordCount p := by
  have hword (value : Text) : (Token.ofText .word value).boundText? = some value := rfl
  rcases s.addWord_cases with h | ⟨before, rest, htokens, -, h⟩
  · simp [h, wordCount, boundTexts, add, hword]
  · simp only [h, wordCount, boundTexts, htokens, List.filterMap_cons, hword, List.flatten_cons,
      List.countP_append]
    omega

theorem wordCount_symbol_le {symbol : Symbol} (h : Symbol.ofChunk? value = some symbol) :
    (s.symbol symbol).wordCount p ≤ value.countP p + s.wordCount p := by
  by_cases hletter : ∃ c, symbol = .letter c
  · obtain ⟨c, rfl⟩ := hletter
    obtain ⟨rfl, -⟩ := Symbol.of_letter h
    exact Nat.le_of_eq (wordCount_addWord p s [c])
  · rw [wordCount_congr p (boundTexts_symbol s fun c hc => hletter ⟨c, hc⟩)]
    omega

/-- A plain chunk adds its word, or nothing. -/
theorem wordCount_addPlain_le (value : Text) :
    (s.addPlain value).wordCount p ≤
      (Text.trim isWordTrimmed value).countP p + s.wordCount p := by
  unfold addPlain
  simp only
  split
  · rw [wordCount_congr p (boundTexts_add_of_none s (boundText?_ofText (by simp) _))]
    omega
  · split
    · rw [wordCount_congr p (boundTexts_addOnce _ _), wordCount_addWord]
    · rw [wordCount_addWord]

/-! ## Chunks -/

theorem countP_infix_le {s t : Text} (h : s <:+: t) : s.countP p ≤ t.countP p :=
  h.sublist.countP_le

/-- What is left of a chunk without its sign brings no more than it has, if that holds of the two
halves that dots may cut it into. -/
theorem wordCount_sortBody_le {body : Text}
    (h : ∀ (s : Scan) (half : Text), half.length < body.length →
      (s.chunk half).wordCount p ≤ half.countP p + s.wordCount p) :
    (s.sortBody body).wordCount p ≤ body.countP p + s.wordCount p := by
  have htext (s : Scan) (k : Kind) {text : Text} (h : text <:+: body) :
      (s.add (.ofText k text)).wordCount p ≤ body.countP p + s.wordCount p :=
    (wordCount_add_ofText_le p s k text).trans (Nat.add_le_add_right (countP_infix_le p h) _)
  unfold sortBody
  split
  · exact htext s _ (Text.infix_trim _ _)
  · split
    · exact htext { s with inFilter := true } _ (Text.prefix_trimRight _ _).isInfix
    · split
      · exact htext s _ ((Text.infix_trim _ _).trans (Text.infix_trim _ _))
      · split
        · -- the half before the dots, the keyword between, the half after them
          rename_i lower upper hdots
          have hparts := Text.append_of_splitAtDots hdots
          have hlower := h s lower (by simp [hparts])
          have hupTo : ((s.chunk lower).symbol .upTo).wordCount p = (s.chunk lower).wordCount p :=
            wordCount_congr p (boundTexts_symbol _ (by simp))
          have hupper := h ((s.chunk lower).symbol .upTo) upper (by simp [hparts]; omega)
          simp only [hparts, List.countP_append, List.countP_cons]
          omega
        · split
          · exact htext s _ (Text.infix_trim _ _)
          · have hword := countP_infix_le p (Text.infix_trim isWordTrimmed body)
            exact (wordCount_addPlain_le p s body).trans (by omega)

/-- **A chunk brings no character twice**, and none that it has not. -/
theorem wordCount_chunk_le (value : Text) :
    (s.chunk value).wordCount p ≤ value.countP p + s.wordCount p := by
  induction hlength : value.length using Nat.strong_induction_on generalizing s value with
  | _ n ih =>
    subst hlength
    by_cases hne : value = []
    · rw [chunk, if_pos hne, wordCount_congr p (boundTexts_addOnce s _)]
      omega
    · cases hnumber : number? value with
      | some n =>
        rw [wordCount_congr p (boundTexts_chunk_of_number? s hne hnumber)]
        omega
      | none =>
        cases hsymbol : Symbol.ofChunk? value with
        | some symbol =>
          rw [chunk, if_neg hne, hnumber, hsymbol]
          exact wordCount_symbol_le p s hsymbol
        | none =>
          have hbody := infix_takeSign s value
          have hle := countP_infix_le p hbody
          have hsort := wordCount_sortBody_le p (s.takeSign value).1 fun s half hhalf =>
            ih half.length (Nat.lt_of_lt_of_le hhalf hbody.length_le) s half rfl
          rw [wordCount_congr p (boundTexts_takeSign s value)] at hsort
          rw [chunk_eq_sortBody hne hnumber hsymbol]
          omega

/-- The sign of a chunk is not among the characters that it brings. -/
theorem wordCount_signed_le (value : Text) :
    ((s.takeSign value).1.sortBody (s.takeSign value).2).wordCount p ≤
      (s.takeSign value).2.countP p + s.wordCount p := by
  rw [← wordCount_congr p (boundTexts_takeSign s value)]
  exact wordCount_sortBody_le p _ fun s half _ => wordCount_chunk_le p s half

theorem wordCount_step_le (piece : Text) :
    (s.step piece).wordCount p ≤ piece.countP p + s.wordCount p := by
  have hchunk := wordCount_chunk_le p s (Text.trim Text.isPadding piece)
  have htrim := countP_infix_le p (Text.infix_trim Text.isPadding piece)
  rw [step, wordCount_congr p (boundTexts_settle _)]
  omega

theorem wordCount_run_le (pieces : List Text) :
    (s.run pieces).wordCount p ≤ pieces.flatten.countP p + s.wordCount p := by
  induction pieces generalizing s with
  | nil => exact Nat.le_add_left _ _
  | cons piece rest ih =>
    have hstep := wordCount_step_le p s piece
    have hrest := ih (s.step piece)
    show ((s.step piece).run rest).wordCount p ≤ _
    rw [List.flatten_cons, List.countP_append]
    omega

end Scan

end SearchLang
