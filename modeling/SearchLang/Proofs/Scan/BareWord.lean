import SearchLang.Proofs.Chunk.Unbroken
import SearchLang.Proofs.Scan.BareText
import SearchLang.Proofs.Scan.WordCount

/-!
# Words written bare

A scan cuts a bound that is written bare into pieces and glues them together again
if all of them are words (`after_of_readsAsWord`). If one of them is not, or a link
goes on across the space behind the bound, then characters of the bound are lost
(`exists_wordCount_lt`).
-/

namespace SearchLang

open Pattern Chunk

/-- Whether a symbol stands for itself. -/
def Symbol.isLetter : Symbol → Bool
  | .letter _ => true
  | _ => false

/-- Whether a piece is a word as it stands: nothing is trimmed off it, and it is no number, no symbol
but a letter, and no value of another form. -/
def Scan.isWordPiece (w : Text) : Bool :=
  Text.trim Text.isPadding w == w && Text.trim isWordTrimmed w == w && (number? w).isNone &&
    (Symbol.ofChunk? w).all Symbol.isLetter && (standaloneForm? w).isNone && (taggedForm? w).isNone

/-- Whether all pieces of a text before a space are words. -/
def Text.readsAsWord (v : Text) : Bool :=
  (Chunk.split false (v ++ [' '])).all fun piece => piece == [' '] || Scan.isWordPiece piece

namespace Scan

variable {s : Scan} {v w : Text}

/-! ## Words that are glued together -/

/-- A word that ends in a colon takes in the word after it. -/
theorem addWord_addWord (s : Scan) {before : Text} (h : before.getLast? = some ':')
    (value : Text) : (s.addWord before).addWord value = s.addWord (before ++ value) := by
  rcases s.addWord_cases with hs | ⟨first, rest, -, -, hs⟩
  · rw [hs, hs]
    exact if_pos h
  · have hlast : (first ++ before).getLast? = some ':' := by
      rw [List.getLast?_append, h]
      rfl
    rw [hs, hs, ← List.append_assoc]
    exact if_pos hlast

theorem step_of_isWordPiece (hfilter : s.inFilter = true) (hw : w.IsUnbroken)
    (h : isWordPiece w = true) : s.step w = s.addWord w := by
  simp only [isWordPiece, Bool.and_eq_true, beq_iff_eq, Option.isNone_iff_eq_none, and_assoc] at h
  obtain ⟨hpadding, htrim, hnumber, hletter, hstandalone, htagged⟩ := h
  have hchunk : s.chunk w = s.addWord w := by
    cases hsymbol : Symbol.ofChunk? w with
    | some symbol =>
      rw [hsymbol] at hletter
      cases symbol with
      | letter c =>
        obtain ⟨rfl, -⟩ := Symbol.of_letter hsymbol
        rw [chunk, if_neg hw.ne_nil, hnumber, hsymbol]
        rfl
      | _ => cases hletter
    | none =>
      have hword : Text.IsTrim isWordTrimmed w := .of_trim_eq hw.ne_nil htrim
      have hsign : s.takeSign w = (s, w) := by
        obtain ⟨c, cs, rfl⟩ := List.exists_cons_of_ne_nil hw.ne_nil
        refine takeSign_of_ne s cs ⟨?_, ?_⟩ <;>
        · rintro rfl
          exact absurd (hword.head _ rfl) (by decide)
      have hclause : s.atClauseStart = false := by simp [atClauseStart, hfilter]
      have hphrase : isPhrase w = false := isPhrase_eq_false fun hq => (hw.of_mem hq).2.2.2 rfl
      have hzero : w ≠ ['0'] := by
        rintro rfl
        exact absurd hnumber (by decide)
      rw [chunk_eq_sortBody hw.ne_nil hnumber hsymbol, hsign,
        sortBody_eq_addPlain hstandalone (by simp [hclause]) hphrase hw.dots htagged,
        addPlain_eq_addWord s hword hzero]
  rw [step, hpadding, hchunk, settle_of_ne (by simp)]

/-- Words with colons at their ends, and one more word, make one word. -/
theorem run_of_isWordPiece (hfilter : s.inFilter = true) {fields : List Text}
    (hunbroken : ∀ piece ∈ fields ++ [w], piece.IsUnbroken)
    (hfields : ∀ field ∈ fields, field.getLast? = some ':')
    (h : ∀ piece ∈ fields ++ [w], isWordPiece piece = true) :
    s.run (fields ++ [w]) = s.addWord (fields.flatten ++ w) := by
  induction fields generalizing s with
  | nil => exact step_of_isWordPiece hfilter (hunbroken w (by simp)) (h w (by simp))
  | cons field fields ih =>
    have hstep := step_of_isWordPiece hfilter (hunbroken field (by simp)) (h field (by simp))
    have hrest := ih (s := s.addWord field) (by simpa using hfilter)
      (fun piece hpiece => hunbroken piece (List.mem_cons_of_mem field hpiece))
      (fun f hf => hfields f (List.mem_cons_of_mem field hf))
      fun piece hpiece => h piece (List.mem_cons_of_mem field hpiece)
    rw [addWord_addWord s (hfields field (by simp)), ← List.append_assoc, ← List.flatten_cons] at hrest
    rw [← hrest, ← hstep]
    rfl

/-- A link that ends in a space is no word. -/
theorem not_isWordPiece_stub (plus scheme : Text) (c : Char) :
    isWordPiece (plus ++ linkOf scheme c ' ' []) = false := by
  have hne : Text.trim Text.isPadding (plus ++ linkOf scheme c ' ' []) ≠
      plus ++ linkOf scheme c ' ' [] := by
    intro htrim
    have hpadding := Text.IsTrim.of_trim_eq
      (List.ne_nil_of_mem (colon_mem_linkOf plus scheme c ' ' [])) htrim
    rw [append_linkOf] at hpadding
    exact absurd (hpadding.last ' ' (by rw [List.getLast?_concat]; rfl)) (by decide)
  simp [isWordPiece, hne]

/-- A text is read as a word if its pieces are words. -/
theorem readsAsWord_eq_all {pieces : List Text} (hunbroken : ∀ piece ∈ pieces, piece.IsUnbroken)
    (hsplit : split false (v ++ [' ']) = pieces ++ split false [' ']) :
    v.readsAsWord = pieces.all isWordPiece := by
  have hspace : split false [' '] = [[' ']] := split_of_spaces false (by simp; decide)
  rw [Text.readsAsWord, hsplit, hspace, List.all_append, List.all_cons, List.all_nil, beq_self_eq_true,
    Bool.true_or, Bool.and_true, Bool.and_true, Bool.eq_iff_iff, List.all_eq_true, List.all_eq_true]
  refine forall₂_congr fun piece hpiece => ?_
  have hne : piece ≠ [' '] := by
    rintro rfl
    exact absurd ((hunbroken _ hpiece).of_mem (c := ' ') (by simp)).1 (by decide)
  rw [beq_false_of_ne hne, Bool.false_or]

/-- **A bound whose pieces are words is one word.** -/
theorem after_of_readsAsWord (hfilter : s.inFilter = true) (hv : v.IsUnbroken)
    (h : v.readsAsWord = true) (rest : Text) :
    s.after false (v ++ ' ' :: rest) = (s.addWord v).after false (' ' :: rest) := by
  obtain ⟨fields, w, hflatten, hunbroken, hfields, hend, hsplit⟩ := exists_cut hv
  cases hend with
  | @stub plus scheme c hlink hstub =>
    have hmem : plus ++ linkOf scheme c ' ' [] ∈ split false (v ++ [' ']) := by
      have hrun : ∀ e ∈ ([] : Text), isAddressRest e = true := by simp
      have hend : ∀ e ∈ ([] : Text).head?, isAddressRest e = false := by simp
      have hsplitLink := split_stub hlink hrun hend
      simp only [List.append_nil, append_linkOf plus scheme c ' ' []] at hsplitLink
      rw [hsplit, hstub, hsplitLink, append_linkOf]
      simp
    have hpiece := List.all_eq_true.mp h _ hmem
    rw [not_isWordPiece_stub, Bool.or_false, beq_iff_eq] at hpiece
    have hcolon := colon_mem_linkOf plus scheme c ' ' []
    rw [hpiece] at hcolon
    simp at hcolon
  | whole hwhole =>
    have hpieces (rest : Text) : split false (v ++ ' ' :: rest) =
        (fields ++ [w]) ++ split false (' ' :: rest) := by
      rw [hsplit, hwhole, List.append_assoc, List.singleton_append]
    rw [readsAsWord_eq_all hunbroken (hpieces []), List.all_eq_true] at h
    rw [after, hpieces, run_append, run_of_isWordPiece hfilter hunbroken hfields h, ← hflatten]
    rfl

/-! ## Pieces that are no words -/

/-- All characters. -/
def anyChar (_ : Char) : Bool :=
  true

theorem countP_anyChar (t : Text) : t.countP anyChar = t.length :=
  List.countP_eq_length.mpr fun _ _ => rfl

/-- A value of another form than a phrase brings nothing. -/
theorem wordCount_sortBody_of_standaloneForm? (p : Char → Bool) {form : TextForm}
    (h : standaloneForm? w = some form) : (s.sortBody w).wordCount p = s.wordCount p := by
  have hphrase := ne_phrase_of_standaloneForm? h
  rw [sortBody, h]
  exact wordCount_congr p (boundTexts_add_of_none s (boundText?_ofText (by simpa using hphrase) _))

/-- A sign in front is lost. -/
theorem wordCount_chunk_lt_of_isSign {p : Char → Bool} {c : Char} {cs : Text}
    (hc : isSign c = true) (hp : p c = true) (hnumber : number? (c :: cs) = none)
    (hsymbol : Symbol.ofChunk? (c :: cs) = none) :
    (s.chunk (c :: cs)).wordCount p < (c :: cs).countP p + s.wordCount p := by
  have hbody : (s.takeSign (c :: cs)).2 = cs := by
    simp only [isSign, Bool.or_eq_true, beq_iff_eq] at hc
    rcases hc with rfl | rfl <;> rfl
  have hsort := wordCount_signed_le p s (c :: cs)
  rw [chunk_eq_sortBody (List.cons_ne_nil c cs) hnumber hsymbol, List.countP_cons_of_pos hp]
  rw [hbody] at hsort ⊢
  omega

/-- What is sorted as anything but a word loses characters. -/
theorem wordCount_sortBody_lt (hw : w.IsUnbroken) (hpadding : Text.trim Text.isPadding w = w)
    (hnumber : number? w = none) (hsymbol : Symbol.ofChunk? w = none) (h : isWordPiece w = false) :
    (s.sortBody w).wordCount anyChar < w.length + s.wordCount anyChar := by
  have hpos : 0 < w.length := List.length_pos_iff.mpr hw.ne_nil
  cases hstandalone : standaloneForm? w with
  | some form =>
    rw [wordCount_sortBody_of_standaloneForm? anyChar hstandalone]
    omega
  | none =>
    have hphrase : isPhrase w = false := isPhrase_eq_false fun hq => (hw.of_mem hq).2.2.2 rfl
    cases hfield : s.atClauseStart && isField w with
    | true =>
      rw [sortBody, hstandalone]
      simp only [hfield, if_true]
      rw [wordCount_congr anyChar (boundTexts_add_of_none _ (boundText?_ofText (by simp) _))]
      exact Nat.lt_add_of_pos_left hpos
    | false =>
      cases htagged : taggedForm? w with
      | some form =>
        have hform := ne_phrase_of_taggedForm? htagged
        rw [sortBody, hstandalone]
        simp only [hfield, hphrase, Bool.false_eq_true, if_false]
        split
        · rename_i hdots
          simp [hw.dots] at hdots
        · rw [htagged]
          simp only
          rw [wordCount_congr anyChar
            (boundTexts_add_of_none s (boundText?_ofText (by simpa using hform) _))]
          omega
      | none =>
        -- trimming takes something off, or nothing was wrong with it
        have htrim : Text.trim isWordTrimmed w ≠ w := by
          intro htrim
          simp [isWordPiece, hpadding, htrim, hnumber, hsymbol, hstandalone, htagged] at h
        have hplain := wordCount_addPlain_le anyChar s w
        have hpart := Text.infix_trim isWordTrimmed w
        have hle := hpart.length_le
        have hlength : (Text.trim isWordTrimmed w).length ≠ w.length := fun heq =>
          htrim (hpart.sublist.eq_of_length heq)
        rw [countP_anyChar] at hplain
        rw [sortBody_eq_addPlain hstandalone hfield hphrase hw.dots htagged]
        omega

/-- A letter or digit of ASCII is a number or a word. -/
theorem isWordPiece_of_isAlphanumeric {c : Char} (hascii : c.toNat < 128)
    (hc : Text.isAlphanumeric c = true) (hnumber : number? [c] = none) : isWordPiece [c] = true := by
  have hclass := of_ascii (p := fun c => !Text.isAlphanumeric c || (number? [c]).isSome ||
    isWordPiece [c]) (by decide +kernel) hascii
  simpa [hc, hnumber] using hclass

/-- **A piece that is no word loses characters.** -/
theorem wordCount_step_lt (hw : w.IsUnbroken) (h : isWordPiece w = false) :
    (s.step w).wordCount anyChar < w.countP anyChar + s.wordCount anyChar := by
  have hpos : 0 < w.length := List.length_pos_iff.mpr hw.ne_nil
  have hchunk := wordCount_chunk_le anyChar s (Text.trim Text.isPadding w)
  rw [step, wordCount_congr anyChar (boundTexts_settle _)]
  rw [countP_anyChar] at hchunk ⊢
  by_cases hpadding : Text.trim Text.isPadding w = w
  · rw [hpadding]
    cases hnumber : number? w with
    | some n =>
      rw [wordCount_congr anyChar (boundTexts_chunk_of_number? s hw.ne_nil hnumber)]
      omega
    | none =>
      cases hsymbol : Symbol.ofChunk? w with
      | some symbol =>
        rw [chunk, if_neg hw.ne_nil, hnumber, hsymbol]
        have hletter : ∀ d, symbol ≠ .letter d := by
          rintro d rfl
          obtain ⟨rfl, halpha⟩ := Symbol.of_letter hsymbol
          have hletter : d.isAlphanum = true := by simp [Char.isAlphanum, halpha]
          have hword := isWordPiece_of_isAlphanumeric (lt_of_isAlphanum hletter)
            (Text.isAlphanumeric_of_isAlphanum hletter) hnumber
          simp [hword] at h
        rw [wordCount_congr anyChar (boundTexts_symbol s hletter)]
        omega
      | none =>
        obtain ⟨c, cs, rfl⟩ := List.exists_cons_of_ne_nil hw.ne_nil
        cases hsign : isSign c with
        | true =>
          have hlt := wordCount_chunk_lt_of_isSign (s := s) (p := anyChar) hsign rfl hnumber hsymbol
          rwa [countP_anyChar] at hlt
        | false =>
          have hne : c ≠ '+' ∧ c ≠ '-' := by simpa [isSign] using hsign
          rw [chunk_eq_sortBody hw.ne_nil hnumber hsymbol, takeSign_of_ne s cs hne]
          exact wordCount_sortBody_lt hw hpadding hnumber hsymbol h
  · have hpart := Text.infix_trim Text.isPadding w
    have hle := hpart.length_le
    have hlength : (Text.trim Text.isPadding w).length ≠ w.length := fun heq =>
      hpadding (hpart.sublist.eq_of_length heq)
    omega

/-- If one of the pieces is no word, then characters are lost. -/
theorem wordCount_run_lt {pieces : List Text} (hpieces : ∀ piece ∈ pieces, piece.IsUnbroken)
    (h : ∃ piece ∈ pieces, isWordPiece piece = false) :
    (s.run pieces).wordCount anyChar < pieces.flatten.countP anyChar + s.wordCount anyChar := by
  induction pieces generalizing s with
  | nil => simp at h
  | cons piece rest ih =>
    show ((s.step piece).run rest).wordCount anyChar < _
    rw [List.flatten_cons, List.countP_append]
    cases hpiece : isWordPiece piece with
    | false =>
      have hstep := wordCount_step_lt (s := s) (hpieces piece (by simp)) hpiece
      have hrun := wordCount_run_le anyChar (s.step piece) rest
      omega
    | true =>
      have hrest : ∃ p ∈ rest, isWordPiece p = false := by simpa [hpiece] using h
      have hrun := ih (s := s.step piece) (fun p hp => hpieces p (List.mem_cons_of_mem piece hp)) hrest
      have hstep := wordCount_step_le anyChar s piece
      omega

/-! ## Bounds that are not read as words -/

/-- Neither the keyword between two bounds nor the spaces around it are a word. -/
theorem exists_after_to (s : Scan) (rest : Text) :
    ∃ s' : Scan, s.after false (" TO".toList ++ ' ' :: rest) = s'.after false (' ' :: rest) ∧
      ∀ p, s'.wordCount p = s.wordCount p := by
  have htame : ∀ c ∈ ['T', 'O'], isTame c = true := List.all_eq_true.mp (by decide)
  have hlen : lengthAt true (['T', 'O'] ++ ' ' :: rest) = 2 :=
    lengthAt_tame (List.cons_ne_nil _ _) htame (stops_cons rfl rest)
  refine ⟨(s.addOnce .whitespace).settle.step ['T', 'O'], ?_, fun p => ?_⟩
  · show s.after false (' ' :: (['T', 'O'] ++ ' ' :: rest)) = _
    rw [after_space, after_append (List.cons_ne_nil _ _) hlen]
    rfl
  · have hchunk (s : Scan) : s.chunk (Text.trim Text.isPadding ['T', 'O']) = s.symbol .upTo := by
      have htrim : Text.trim Text.isPadding ['T', 'O'] = ['T', 'O'] := rfl
      have hnumber : number? ['T', 'O'] = none := number?_lead {} ['O'] (by decide)
      have hsymbol : Symbol.ofChunk? ['T', 'O'] = some .upTo := rfl
      rw [htrim, chunk, if_neg (List.cons_ne_nil _ _), hnumber, hsymbol]
    apply wordCount_congr
    rw [step, boundTexts_settle, hchunk, boundTexts_symbol _ (by simp), boundTexts_settle,
      boundTexts_addOnce]

/-- A character that is not in the keyword with its spaces. -/
def isOutsideTo (c : Char) : Bool :=
  c != ' ' && c != 'T' && c != 'O'

/-- A link that goes on across the keyword takes it with it, and no character becomes a word. -/
theorem wordCount_step_stub {plus scheme : Text} {c : Char} (h : IsLink plus scheme c ' ' []) :
    (s.step (plus ++ linkOf scheme c ' ' ['T', 'O'])).wordCount isOutsideTo <
      (plus ++ scheme ++ [':', '/', '/', c]).countP isOutsideTo + s.wordCount isOutsideTo := by
  have hlink : IsLink plus scheme c ' ' ['T', 'O'] :=
    ⟨h.plus, h.ne_nil, h.scheme, h.address.1, h.address.2.1, List.all_eq_true.mp (by decide)⟩
  have hcolon := colon_mem_linkOf plus scheme c ' ' ['T', 'O']
  have hne := List.ne_nil_of_mem hcolon
  have hnumber := number?_linkOf plus scheme c ' ' ['T', 'O']
  have hsymbol := ofChunk?_linkOf plus scheme c ' ' ['T', 'O']
  have htrim : Text.IsTrim Text.isPadding (plus ++ linkOf scheme c ' ' ['T', 'O']) := by
    refine ⟨hne, isPadding_head_linkOf hlink, fun e he => ?_⟩
    have hparts : plus ++ linkOf scheme c ' ' ['T', 'O'] =
        (plus ++ scheme ++ [':', '/', '/', c, ' ', 'T']) ++ ['O'] := by simp [linkOf]
    rw [hparts, List.getLast?_concat] at he
    rw [← Option.some.inj he]
    rfl
  have hcount : (plus ++ linkOf scheme c ' ' ['T', 'O']).countP isOutsideTo =
      (plus ++ scheme ++ [':', '/', '/', c]).countP isOutsideTo := by
    have hto : [' ', 'T', 'O'].countP isOutsideTo = 0 := rfl
    rw [append_linkOf, List.countP_append, hto, Nat.add_zero]
  have hpos : 0 < (plus ++ scheme ++ [':', '/', '/', c]).countP isOutsideTo :=
    List.countP_pos_iff.mpr ⟨':', by simp, rfl⟩
  rw [step, wordCount_congr isOutsideTo (boundTexts_settle _), htrim.trim_eq]
  obtain ⟨e, es, heq⟩ := List.exists_cons_of_ne_nil hne
  cases hsign : isSign e with
  | true =>
    have he : isOutsideTo e = true := by
      simp only [isSign, Bool.or_eq_true, beq_iff_eq] at hsign
      rcases hsign with rfl | rfl <;> rfl
    rw [← hcount]
    rw [heq] at hnumber hsymbol ⊢
    exact wordCount_chunk_lt_of_isSign hsign he hnumber hsymbol
  | false =>
    have hstandalone : ∃ form, standaloneForm? (plus ++ linkOf scheme c ' ' ['T', 'O']) = some form := by
      simp only [standaloneForm?, hlink.isUrl, if_true]
      split
      · exact ⟨_, rfl⟩
      · split <;> exact ⟨_, rfl⟩
    obtain ⟨form, hform⟩ := hstandalone
    have hunsigned : s.takeSign (plus ++ linkOf scheme c ' ' ['T', 'O']) =
        (s, plus ++ linkOf scheme c ' ' ['T', 'O']) := by
      rw [heq]
      exact takeSign_of_ne s es (by simpa [isSign] using hsign)
    rw [chunk_eq_sortBody hne hnumber hsymbol, hunsigned,
      wordCount_sortBody_of_standaloneForm? isOutsideTo hform]
    exact Nat.lt_add_of_pos_left hpos

/-- **Of a bound that is not read as one word, characters are lost** before the second bound
comes. -/
theorem exists_wordCount_lt (s : Scan) (hv : v.IsUnbroken) (h : v.readsAsWord = false) (rest : Text) :
    ∃ (s' : Scan) (p : Char → Bool) (afterSpace : Bool),
      s.after false (v ++ (" TO".toList ++ ' ' :: rest)) = s'.after afterSpace (' ' :: rest) ∧
        s'.wordCount p < v.countP p + s.wordCount p := by
  obtain ⟨fields, w, hflatten, hunbroken, -, hend, hsplit⟩ := exists_cut hv
  have hto : v ++ (" TO".toList ++ ' ' :: rest) = v ++ ' ' :: ('T' :: 'O' :: ' ' :: rest) := rfl
  cases hend with
  | whole hwhole =>
    have hpieces (rest : Text) : split false (v ++ ' ' :: rest) =
        (fields ++ [w]) ++ split false (' ' :: rest) := by
      rw [hsplit, hwhole, List.append_assoc, List.singleton_append]
    have hbroken : ∃ piece ∈ fields ++ [w], isWordPiece piece = false := by
      rw [readsAsWord_eq_all hunbroken (hpieces []), List.all_eq_false] at h
      simpa using h
    have hrun := wordCount_run_lt (s := s) hunbroken hbroken
    obtain ⟨s', hafter, hcount⟩ := exists_after_to (s.run (fields ++ [w])) rest
    refine ⟨s', anyChar, false, ?_, ?_⟩
    · rw [← hafter, hto, after, hpieces, run_append]
      rfl
    · rw [hcount]
      simpa [hflatten] using hrun
  | @stub plus scheme c hlink hstub =>
    have hrun : ∀ e ∈ ['T', 'O'], isAddressRest e = true := List.all_eq_true.mp (by decide)
    have hspace : ∀ e ∈ (' ' :: rest).head?, isAddressRest e = false := by simp; decide
    have hlinkSplit := split_stub hlink hrun hspace
    have hfieldsCount := wordCount_run_le isOutsideTo s fields
    have hlinkCount := wordCount_step_stub (s := s.run fields) hlink
    refine ⟨(s.run fields).step (plus ++ linkOf scheme c ' ' ['T', 'O']), isOutsideTo,
      endsInSpace (plus ++ linkOf scheme c ' ' ['T', 'O']), ?_, ?_⟩
    · have hparts : w ++ ' ' :: ('T' :: 'O' :: ' ' :: rest) =
          (plus ++ linkOf scheme c ' ' ['T', 'O']) ++ ' ' :: rest := by
        simp [hstub, linkOf]
      rw [hto, after, hsplit, hparts, hlinkSplit, run_append]
      rfl
    · rw [hflatten, hstub, List.countP_append]
      omega

end Scan

end SearchLang
