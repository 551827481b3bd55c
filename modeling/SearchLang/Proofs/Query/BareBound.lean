import SearchLang.Proofs.Parse.Shape
import SearchLang.Proofs.Query.DottedRange
import SearchLang.Proofs.Scan.BareWord

/-!
# Bare bounds

A word that is rendered as a bare bound is read back as that bound just when the
pieces that it is cut into are words (`parse_bareBound`). They are if it has no
colon and is no emoji. Behind a colon comes a new piece, which may be a number, a
keyword, a hashtag or a word that loses its sign.
-/

namespace SearchLang

open Pattern Chunk

theorem of_isBareBound {v : Text} (h : isBareBound v = true) :
    v.IsUnbroken ∧ (∀ c ∈ v.head?, Text.isAlphanumeric c = true) ∧
      (∀ c ∈ v.getLast?, Text.isAlphanumeric c = true) ∧
      isKeywordText v = false ∧ Decimal.isLiteral v = false ∧ isDate v = false := by
  unfold isBareBound at h
  split at h
  · rename_i first last hhead hlast
    simp only [Bool.and_eq_true, Bool.not_eq_true', Option.isNone_iff_eq_none, and_assoc] at h
    obtain ⟨hfirst, hend, hdots, hbreaks, hkeyword, hliteral, hdate⟩ := h
    refine ⟨⟨?_, ?_, hdots⟩, by simpa [hhead] using hfirst, by simpa [hlast] using hend, hkeyword,
      hliteral, hdate⟩
    · rintro rfl
      cases hhead
    · simpa using hbreaks
  · cases h

namespace Scan

variable {v : Text}

theorem toUpper_of_le {c : Char} (h : 128 ≤ c.toNat) : c.toUpper = c := by
  unfold Char.toUpper
  refine dif_neg fun hlower => ?_
  have hle : c.toNat ≤ 'z'.toNat := UInt32.le_iff_toNat_le.mp hlower.2
  have hz : 'z'.toNat = 122 := rfl
  omega

/-- No letter and no digit is trimmed, is a mark of the keywords or starts an emoticon. -/
theorem of_isAlphanumeric {c : Char} (hc : Text.isAlphanumeric c = true) :
    (isWordTrimmed c = false ∧ Text.isPadding c = false) ∧
      (c.toUpper ≠ '|' ∧ c.toUpper ≠ '&' ∧ c.toUpper ≠ '.') ∧ startsEmoticon c = false := by
  by_cases hascii : c.toNat < 128
  · have hclass := of_ascii (p := fun c => !Text.isAlphanumeric c ||
      (!isWordTrimmed c && !Text.isPadding c) && ((c.toUpper != '|' && c.toUpper != '&' &&
        c.toUpper != '.') && !startsEmoticon c)) (by decide) hascii
    simpa [hc, and_assoc] using hclass
  · have hnot {d : Char} (hd : d.toNat < 128) : c ≠ d := by
      rintro rfl
      exact hascii hd
    rw [toUpper_of_le (by omega)]
    simp [isWordTrimmed, isTrimmed, Text.isPadding, startsEmoticon, hnot]

theorem ofChar?_eq_none {c : Char} (h : 128 ≤ c.toNat) : Symbol.ofChar? c = none := by
  unfold Symbol.ofChar?
  split <;> try simp at h
  rw [if_neg, if_neg (by omega)]
  intro halpha
  have := lt_of_isAlphanum (c := c) (by simp [Char.isAlphanum, halpha])
  omega

/-- A letter or digit that is no number is a letter, or no symbol. -/
theorem all_isLetter_ofChar? {c : Char} (hc : Text.isAlphanumeric c = true)
    (hnumber : number? [c] = none) : (Symbol.ofChar? c).all Symbol.isLetter = true := by
  by_cases hascii : c.toNat < 128
  · have hword := isWordPiece_of_isAlphanumeric hascii hc hnumber
    simp only [isWordPiece, Bool.and_eq_true] at hword
    exact hword.1.1.2
  · rw [ofChar?_eq_none (by omega)]
    rfl

/-- Of the tagged forms only a date starts with no punctuation. -/
theorem taggedForm?_of_isTrim {w : Text} (h : Text.IsTrim isTrimmed w) (hdate : isDate w = false) :
    taggedForm? w = none := by
  have hstripped : Text.trimRight isTrimmed w = w := by
    simpa using h.trimRight_append (List.forall_mem_nil _)
  obtain ⟨c, cs, rfl⟩ := List.exists_cons_of_ne_nil h.ne_nil
  have hc : isTrimmed c = false := h.head c rfl
  have hnot {d : Char} (hd : isTrimmed d = true) : c ≠ d := by
    rintro rfl
    simp [hc] at hd
  have hbody : dropSign (c :: cs) = c :: cs := by
    simp [dropSign, signLength, hnot (d := '+') rfl, hnot (d := '-') rfl]
  simp [taggedForm?, hstripped, isHashtag, isMention, hdate, hbody, hnot (d := '#') rfl,
    hnot (d := '@') rfl]

/-- A bare bound without a colon is a word, unless it is an emoji. -/
theorem isWordPiece_of_isBareBound (hv : isBareBound v = true) (hcolon : ':' ∉ v)
    (hemoji : Text.isEmoji v = false) : isWordPiece v = true := by
  obtain ⟨hunbroken, hhead, hlast, hkeyword, hliteral, hdate⟩ := of_isBareBound hv
  have hedge {c : Char} (hc : Text.isAlphanumeric c = true) := (of_isAlphanumeric hc).1
  have hpadding : Text.IsTrim Text.isPadding v :=
    ⟨hunbroken.ne_nil, fun c hc => (hedge (hhead c hc)).2, fun c hc => (hedge (hlast c hc)).2⟩
  have hword : Text.IsTrim isWordTrimmed v :=
    ⟨hunbroken.ne_nil, fun c hc => (hedge (hhead c hc)).1, fun c hc => (hedge (hlast c hc)).1⟩
  have htrim : Text.IsTrim isTrimmed v := by
    have hweak {c : Char} (h : isWordTrimmed c = false) : isTrimmed c = false := by
      simp only [isWordTrimmed, Bool.or_eq_false_iff] at h
      exact h.2
    exact ⟨hunbroken.ne_nil, fun c hc => hweak (hword.head c hc), fun c hc => hweak (hword.last c hc)⟩
  have hnumber : number? v = none := number?_eq_none (by simpa [Decimal.isLiteral] using hliteral)
  have hsymbol : (Symbol.ofChunk? v).all Symbol.isLetter = true := by
    obtain ⟨c, cs, rfl⟩ := List.exists_cons_of_ne_nil hunbroken.ne_nil
    cases cs with
    | nil => exact all_isLetter_ofChar? (hhead c rfl) hnumber
    | cons d cs =>
      have hnone : Symbol.ofChunk? (c :: d :: cs) = none :=
        keyword?_eq_none_of_isKeywordText hkeyword fun e he => (of_isAlphanumeric (hhead e he)).2.1
      rw [hnone]
      rfl
  have hstandalone : standaloneForm? v = none := by
    have hemoticon : isEmoticon v = false :=
      isEmoticon_eq_false fun c hc => (of_isAlphanumeric (hhead c hc)).2.2
    simp [standaloneForm?, hemoticon, hemoji, isUrl_eq_false hcolon]
  simp [isWordPiece, hpadding.trim_eq, hword.trim_eq, hnumber, hsymbol, hstandalone,
    taggedForm?_of_isTrim htrim hdate]

theorem readsAsWord_of_isBareBound (hv : isBareBound v = true) (hcolon : ':' ∉ v)
    (hemoji : Text.isEmoji v = false) : v.readsAsWord = true := by
  obtain ⟨fields, w, hflatten, hunbroken, hfields, hend, hsplit⟩ := exists_cut (of_isBareBound hv).1
  -- a field has a colon, and so has a link
  have hnil : fields = [] := by
    rw [List.eq_nil_iff_forall_not_mem]
    intro field hfield
    refine hcolon ?_
    rw [hflatten]
    exact List.mem_append_left w
      (List.mem_flatten.mpr ⟨field, hfield, List.mem_of_getLast? (hfields field hfield)⟩)
  subst hnil
  obtain rfl : v = w := hflatten
  cases hend with
  | stub hlink hstub => exact absurd (by simp [hstub]) hcolon
  | whole hwhole =>
    have hall : v.readsAsWord = [v].all isWordPiece := readsAsWord_eq_all hunbroken (hwhole [])
    rw [hall, List.all_cons, List.all_nil, Bool.and_true]
    exact isWordPiece_of_isBareBound hv hcolon hemoji

/-! ## The scan of a range -/

/-- A filter with an open range. -/
def rangeOpened : Scan :=
  { tokens := [.mark (.rangeStart .inclusive), .ofText .filterStart ['f']]
    inFilter := true, range := some .inclusive }

/-- The scan of a range gets to the lower bound. -/
theorem ofQuery_bareRange (hv : v.IsUnbroken) :
    ofQuery ("f:[".toList ++ v ++ " TO zz]".toList) =
      rangeOpened.after false (v ++ (" TO".toList ++ ' ' :: "zz]".toList)) := by
  have hcompact : Text.IsCompact ("f:[".toList ++ v ++ " TO zz]".toList) := by
    have hblank : ∀ c ∈ "f:[".toList ++ v, Text.isBlank c = false := by
      intro c hc
      rcases List.mem_append.mp hc with hc | hc
      · have hall : "f:[".toList.all (fun c => !Text.isBlank c) = true := by decide
        simpa using List.all_eq_true.mp hall c hc
      · exact isBlank_of_isSpace (hv.of_mem hc).1
    have hletters {t : Text} (hne : t ≠ []) (ht : t.all (fun c => !Text.isBlank c) = true) :
        Text.IsCompact t := .of_forall hne fun c hc => by simpa using List.all_eq_true.mp ht c hc
    have hupper : Text.IsCompact "zz]".toList := hletters (by decide) (by decide)
    have hto : Text.IsCompact ['T', 'O'] := hletters (by decide) (by decide)
    have hrest : Text.IsCollapsed " TO zz]".toList := (hto.append hupper.space).space
    exact (Text.IsCompact.of_forall (by simp) hblank).append hrest
  have hfield : Text.isPlainField ['f'] = true := by decide
  have hslash : ('[' :: (v ++ " TO zz]".toList)).head? ≠ some '/' := by simp
  have hstart := after_field (s := {}) (.of_kind (k := .whitespace) rfl (by simp)) rfl true {} hfield
    hslash
  have hopen := after_rangeStart (s := { ({} : Scan) with inFilter := true }.push
    [.ofText .filterStart ['f']]) rfl rfl (by simp) (⟨none, none, false⟩ : Range Text)
    (v ++ " TO zz]".toList)
  rw [ofQuery_of_collapsed hcompact.space.collapseBlanks_eq]
  exact hstart.trans hopen

/-- The upper bound is a word. -/
theorem after_upper {s : Scan} (hs : s.Ready) :
    s.after true "zz]".toList = (s.push [.ofText .word "zz".toList]).after false [']'] := by
  have hplain : Text.isPlainWord "zz".toList = true := by decide
  have htame : ∀ c ∈ "zz".toList, isTame c = true := List.all_eq_true.mp (by decide)
  exact after_tame true (by decide) htame (stops_cons rfl []) (chunk_word hs {} hplain false)
    (by simp)

/-- What stands behind the keyword brings one more word. -/
theorem boundTexts_upper (s : Scan) (afterSpace : Bool) :
    (s.after afterSpace (' ' :: "zz]".toList)).close.boundTexts = "zz".toList :: s.boundTexts := by
  have hready : (s.addOnce .whitespace).settle.Ready := by
    unfold settle
    split
    · exact .of_kind (lastKind_closeFilter _) (by simp)
    · exact .of_kind (lastKind_addOnce s _) (by simp)
  have hbracket (s : Scan) (hs : s.lastKind = .word) :
      s.after false [']'] = s.closeRange := by
    have hkind : s.closeRange.lastKind ≠ .whitespace := by
      unfold closeRange
      split
      · simp [hs]
      · simp [lastKind_closeFilter]
    have hafter := after_mark (s := s) (c := ']') (by decide) (.inl rfl) rfl rfl hkind []
    rwa [after_nil] at hafter
  rw [after_space, after_upper hready, hbracket _ rfl, boundTexts_close, boundTexts_closeRange]
  have hcons : ((s.addOnce .whitespace).settle.push [.ofText .word "zz".toList]).boundTexts =
      "zz".toList :: (s.addOnce .whitespace).settle.boundTexts := rfl
  rw [boundTexts_settle, boundTexts_addOnce] at hcons
  exact hcons

/-- A lower bound whose pieces are words is one token. -/
theorem scan_bareRange (hv : v.IsUnbroken) (h : v.readsAsWord = true) :
    scan ("f:[".toList ++ v ++ " TO zz]".toList) =
      [.ofText .filterStart "f".toList, .mark (.rangeStart .inclusive), .ofText .word v, .mark .upTo,
        .ofText .word "zz".toList, .mark (.rangeEnd .inclusive), .mark .filterEnd] := by
  have hlower := after_of_readsAsWord (s := rangeOpened) rfl hv h ("TO zz]".toList)
  rw [addWord_eq_push (by decide)] at hlower
  have hto := after_upTo (s := rangeOpened.push [.ofText .word v]) rfl (by simp) "zz]".toList
  have hready : ((rangeOpened.push [.ofText .word v]).push
      [.mark .whitespace, .mark .upTo, .mark .whitespace]).Ready :=
    .of_kind (k := .whitespace) rfl (by simp)
  have hend := after_rangeEnd (s := ((rangeOpened.push [.ofText .word v]).push
    [.mark .whitespace, .mark .upTo, .mark .whitespace]).push [.ofText .word "zz".toList])
    (b := .inclusive) rfl (by simp) false []
  rw [after_nil] at hend
  rw [scan, ofQuery_bareRange hv]
  have hall := hlower.trans (hto.trans ((after_upper hready).trans hend))
  show (rangeOpened.after false (v ++ ' ' :: "TO zz]".toList)).result = _
  rw [hall]
  rfl

/-- The words and phrases of a scan are texts of its tokens. -/
theorem mem_boundTexts_close {q : Text} {t : Token} (ht : t ∈ scan q)
    (hkind : t.kind = .word ∨ t.kind = .text .phrase) (htext : t.text? = some v) :
    v ∈ (ofQuery q).close.boundTexts := by
  have hmem : t ∈ (ofQuery q).close.tokens := List.mem_reverse.mp (List.mem_filter.mp ht).1
  exact List.mem_filterMap.mpr ⟨t, hmem, (if_pos hkind).trans htext⟩

end Scan

namespace Query

/-- The lower bound of a range that is read is the text of a token. -/
theorem exists_token_of_parse {limits : Limits} {q field v : Text} {r : Range Text}
    (h : parse limits q = [.filter field none (.range (.words r) {}) {}]) (hv : v ∈ r.bounds) :
    ∃ t ∈ scan q, (t.kind = .word ∨ t.kind = .text .phrase) ∧ t.text? = some v := by
  have hmem : Node.filter field none (.range (.words r) {}) {} ∈ parseTokens limits (scan q) := by
    rw [← parse, h]
    exact List.mem_singleton_self _
  have hdrawn := (sound_sequence (bodySound_parseBody limits (scan q)) none
    (List.Subset.refl (scan q)) _ hmem).drawn
  simp only [Node.intervals, List.all_cons, List.all_nil, Bool.and_true, Interval.isDrawnFrom,
    List.all_eq_true] at hdrawn
  simpa using hdrawn v hv

/-- **A bare bound is read back just when its pieces are words**, and they are if it has no colon and
is no emoji. -/
theorem parse_bareBound (limits : Limits) {v : Text} (hv : isBareBound v = true) :
    (parse limits ("f:[".toList ++ v ++ " TO zz]".toList) =
        [.filter "f".toList none (.range (.words ⟨some v, some "zz".toList, false⟩) {}) {}] ↔
      v.readsAsWord = true) ∧
    (':' ∉ v → Text.isEmoji v = false → v.readsAsWord = true) := by
  obtain ⟨hunbroken, -⟩ := of_isBareBound hv
  refine ⟨⟨fun hparse => ?_, fun h => ?_⟩, Scan.readsAsWord_of_isBareBound hv⟩
  · by_contra hword
    rw [Bool.not_eq_true] at hword
    obtain ⟨t, ht, hkind, htext⟩ := exists_token_of_parse hparse (v := v) (by simp [Range.bounds])
    obtain ⟨s, p, afterSpace, hafter, hlt⟩ :=
      Scan.exists_wordCount_lt Scan.rangeOpened hunbroken hword "zz]".toList
    have hmem := Scan.mem_boundTexts_close ht hkind htext
    rw [Scan.ofQuery_bareRange hunbroken, hafter, Scan.boundTexts_upper] at hmem
    -- the upper bound would be read as a word, and what comes before it has too few characters
    rcases List.mem_cons.mp hmem with rfl | hmem
    · have hemoji : Text.isEmoji "zz".toList = false := by decide
      rw [Scan.readsAsWord_of_isBareBound hv (by decide) hemoji] at hword
      cases hword
    · have hle := Scan.countP_le_wordCount p s hmem
      have hopened : Scan.rangeOpened.wordCount p = 0 := rfl
      omega
  · rw [parse, Scan.scan_bareRange hunbroken h]
    exact parseTokens_rangeFilter limits _ rfl

/-- Hyphens, dots and colons between words. -/
theorem parse_bareBound_sample :
    isBareBound "v1.2-rc:b".toList = true ∧ Text.readsAsWord "v1.2-rc:b".toList = true ∧
      parse {} ("f:[".toList ++ "v1.2-rc:b".toList ++ " TO zz]".toList) =
        [.filter "f".toList none
          (.range (.words ⟨some "v1.2-rc:b".toList, some "zz".toList, false⟩) {}) {}] := by
  have hbare : isBareBound "v1.2-rc:b".toList = true := by decide
  have hword : Text.readsAsWord "v1.2-rc:b".toList = true := by decide +kernel
  exact ⟨hbare, hword, (parse_bareBound {} hbare).1.mpr hword⟩

/-- A number behind a colon is not read back, although the bound is rendered bare. -/
theorem parse_bareBound_number :
    isBareBound "a:5".toList = true ∧
      parse {} "f:[a:5 TO zz]".toList ≠
        [.filter "f".toList none (.range (.words ⟨some "a:5".toList, some "zz".toList, false⟩) {}) {}] := by
  decide +kernel

end Query

end SearchLang
