import SearchLang.Proofs.Chunk.Spaces
import SearchLang.Proofs.Scan.Leaf
import SearchLang.Proofs.Scan.WellFormed

/-!
# Spaces that chunks bring

Which chunks make tokens with spaces in them, phrases aside. A chunk without spaces
and a phrase make none, a space beyond the blanks is a word, and of a chunk that was
cut off as a link its text decides (`holdsSpace_chunk_link`).
-/

namespace SearchLang

open Pattern Chunk

/-- Whether a token that counts has a text with a space, although it is no phrase. -/
def Token.holdsSpace (t : Token) : Bool :=
  Scan.isKept t && t.kind != .text .phrase && t.text?.any fun s => s.any Text.isSpace

/-- What a scan leaves of a chunk that was cut off as a link and has lost its sign: a link without the
punctuation at its ends. If the sign was all of its scheme, it is no link any more, but a word up to
the first two dots. -/
def Chunk.bodyText (body : Text) : Text :=
  if isUrl body then Text.trim isTrimmed body
  else Text.trim isWordTrimmed (((Text.splitAtDots body).map Prod.fst).getD body)

namespace Text

theorem any_isSpace_eq_false {s t : Text} (h : ∀ c ∈ s, isSpace c = false) (ht : t <:+: s) :
    t.any isSpace = false := by
  rw [List.any_eq_false]
  exact fun c hc => by simp [h c (ht.subset hc)]

end Text

namespace Scan

variable (s : Scan) {value : Text}

/-! ## Single operations -/

/-- Whether a scan has a token that holds a space. -/
def holdsSpace : Bool :=
  s.tokens.any Token.holdsSpace

theorem holdsSpace_ofText {k : Kind} (h : k ≠ .whitespace ∧ k ≠ .ignored ∧ k ≠ .text .phrase)
    (value : Text) : (Token.ofText k value).holdsSpace = value.any Text.isSpace := by
  simp [Token.holdsSpace, isKept, h]

theorem holdsSpace_ofText_of_solid (k : Kind) {value : Text}
    (h : value.any Text.isSpace = false) : (Token.ofText k value).holdsSpace = false := by
  simp [Token.holdsSpace, h]

@[simp] theorem holdsSpace_mark (k : Kind) : (Token.mark k).holdsSpace = false := by
  simp [Token.holdsSpace, Token.mark, Token.text?]

@[simp] theorem holdsSpace_ofNumber (n : Number) : (Token.ofNumber n).holdsSpace = false := by
  simp [Token.holdsSpace, Token.ofNumber, Token.text?]

@[simp] theorem holdsSpace_ignored (value : Text) :
    (Token.ofText .ignored value).holdsSpace = false := by
  simp [Token.holdsSpace, isKept]

@[simp] theorem holdsSpace_phrase (value : Text) :
    (Token.ofText (.text .phrase) value).holdsSpace = false := by
  simp [Token.holdsSpace]

@[simp] theorem holdsSpace_add (t : Token) :
    (s.add t).holdsSpace = (t.holdsSpace || s.holdsSpace) :=
  List.any_cons

@[simp] theorem holdsSpace_addOnce (k : Kind) : (s.addOnce k).holdsSpace = s.holdsSpace := by
  unfold addOnce
  split
  · rfl
  · simp

@[simp] theorem holdsSpace_closeFilter : s.closeFilter.holdsSpace = s.holdsSpace :=
  holdsSpace_addOnce _ _

@[simp] theorem holdsSpace_settle : s.settle.holdsSpace = s.holdsSpace := by
  unfold settle
  split
  · exact holdsSpace_closeFilter s
  · rfl

/-- A word that is glued to another one keeps the spaces of both. -/
theorem holdsSpace_addWord (value : Text) :
    (s.addWord value).holdsSpace = (value.any Text.isSpace || s.holdsSpace) := by
  have hword (value : Text) : (Token.ofText .word value).holdsSpace = value.any Text.isSpace :=
    holdsSpace_ofText (by simp) value
  rcases s.addWord_cases with h | ⟨before, rest, htokens, -, h⟩
  · rw [h, holdsSpace_add, hword]
  · have hbefore : s.holdsSpace = (before.any Text.isSpace || rest.any Token.holdsSpace) := by
      rw [holdsSpace, htokens, List.any_cons, ← hword before]
    rw [h, hbefore, holdsSpace, List.any_cons, hword, List.any_append, Bool.or_left_comm,
      Bool.or_assoc]

theorem holdsSpace_addModifier (m : Modifier) :
    (s.addModifier m).holdsSpace = s.holdsSpace := by
  unfold addModifier
  split
  · rfl
  · split <;> simp

theorem holdsSpace_symbol {symbol : Symbol} (h : Symbol.ofChunk? value = some symbol) :
    (s.symbol symbol).holdsSpace = s.holdsSpace := by
  cases symbol with
  | sign | wildcard | or | and => exact holdsSpace_addOnce s _
  | greater | less | equals | upTo =>
    simp only [symbol]
    split
    · exact holdsSpace_addOnce s _
    · rfl
  | modifier m => exact holdsSpace_addModifier s m
  | rangeStart b =>
    simp only [symbol, openRange]
    split
    · exact holdsSpace_addOnce _ _
    · rfl
  | rangeEnd =>
    simp only [symbol, closeRange]
    split
    · rfl
    · rw [holdsSpace_closeFilter]
      exact holdsSpace_addOnce s _
  | subqueryStart =>
    simp only [symbol, openSubquery]
    split
    · rfl
    · exact holdsSpace_add _ _
  | subqueryEnd =>
    simp only [symbol, closeSubquery]
    split
    · rfl
    · split
      · rw [holdsSpace_closeFilter]
        exact holdsSpace_add _ _
      · exact holdsSpace_add _ _
  | letter c =>
    obtain ⟨-, halpha⟩ := Symbol.of_letter h
    have hspace : Text.isSpace c = false := Text.not_isSpace (p := Char.isAlpha) (by decide) halpha
    simp [symbol, holdsSpace_addWord, hspace]
  | stray c => simp [symbol]

@[simp] theorem holdsSpace_takeSign (value : Text) :
    (s.takeSign value).1.holdsSpace = s.holdsSpace := by
  unfold takeSign
  split
  · exact holdsSpace_addOnce s _
  · exact holdsSpace_addOnce s _
  · rfl

theorem holdsSpace_addPlain (value : Text) :
    (s.addPlain value).holdsSpace =
      ((Text.trim isWordTrimmed value).any Text.isSpace || s.holdsSpace) := by
  unfold addPlain
  simp only
  split
  · rename_i hword
    rcases hword with hword | hword
    · simp [hword]
    · have hzero : Text.isSpace '0' = false := by decide
      simp [hword, hzero]
  · split
    · rw [holdsSpace_addOnce, holdsSpace_addWord]
    · rw [holdsSpace_addWord]

/-! ## Chunks without spaces -/

/-- A chunk without spaces brings none. -/
theorem holdsSpace_chunk_of_solid (h : ∀ c ∈ value, Text.isSpace c = false) :
    (s.chunk value).holdsSpace = s.holdsSpace := by
  have htext {s : Scan} (k : Kind) {value text : Text} (h : ∀ c ∈ value, Text.isSpace c = false)
      (htext : text <:+: (s.takeSign value).2) :
      ((s.takeSign value).1.add (.ofText k text)).holdsSpace = s.holdsSpace := by
    have hsolid := Text.any_isSpace_eq_false h (htext.trans (infix_takeSign s value))
    rw [holdsSpace_add, holdsSpace_ofText_of_solid k hsolid, holdsSpace_takeSign, Bool.false_or]
  fun_induction chunk s value with
  | case1 s => exact holdsSpace_addOnce s _
  | case2 s value _ n _ => rw [holdsSpace_add, holdsSpace_ofNumber, Bool.false_or]
  | case3 s value _ _ symbol hsymbol => exact holdsSpace_symbol s hsymbol
  | case4 s value _ _ _ unsigned form _ => exact htext _ h (Text.infix_trim _ _)
  | case5 s value _ _ _ unsigned _ _ => exact htext _ h (Text.prefix_trimRight _ _).isInfix
  | case6 s value _ _ _ unsigned _ _ _ => simp [unsigned]
  | case7 s value _ _ _ unsigned _ _ _ lower upper hdots _ ihLower ihUpper =>
    have hvalue := Text.append_of_splitAtDots hdots
    have hunsigned : ∀ c ∈ unsigned.2, Text.isSpace c = false := fun c hc =>
      h c ((infix_takeSign s value).subset hc)
    have hupTo : Symbol.ofChunk? ['.', '.'] = some .upTo := rfl
    rw [ihUpper fun c hc => hunsigned c (by simp [hvalue, hc]), holdsSpace_symbol _ hupTo,
      ihLower fun c hc => hunsigned c (by simp [hvalue, hc])]
    exact holdsSpace_takeSign s value
  | case8 s value _ _ _ unsigned _ _ _ _ form _ => exact htext _ h (Text.infix_trim _ _)
  | case9 s value _ _ _ unsigned _ _ _ _ _ =>
    have hword : (Text.trim isWordTrimmed unsigned.2).any Text.isSpace = false :=
      Text.any_isSpace_eq_false h ((Text.infix_trim _ _).trans (infix_takeSign s value))
    rw [holdsSpace_addPlain, hword, Bool.false_or]
    exact holdsSpace_takeSign s value

/-! ## Phrases and lone spaces -/

/-- A phrase may hold spaces. -/
theorem holdsSpace_chunk_phrase (m : Modifiers) {inner : Text} (hne : inner ≠ [])
    (hquote : ∀ c ∈ inner, c ≠ '"') :
    (s.chunk (m.lead ++ '"' :: (inner ++ ['"']))).holdsSpace = s.holdsSpace := by
  have hbody : (s.takeSign (m.lead ++ '"' :: (inner ++ ['"']))).2 = '"' :: (inner ++ ['"']) := by
    rcases lead_cases m with h | h | h <;> rw [h] <;> rfl
  rw [chunk_eq_sortBody (by simp) (number?_lead m _ (by decide))
    (ofChunk?_lead m (.inr rfl) (by simp) (by decide)), hbody, sortBody_quoted _ hne hquote,
    holdsSpace_add, holdsSpace_phrase, holdsSpace_takeSign, Bool.false_or]

/-- A space beyond the blanks is a word. -/
theorem chunk_space {c : Char} (hspace : Text.isSpace c = true) (hblank : Text.isBlank c = false) :
    s.chunk [c] = s.addWord [c] := by
  -- what a chunk is tested for can be tested on all of them
  have htests := Text.of_isSpace (p := fun c => Text.isBlank c ||
      (number? [c]).isNone && (Symbol.ofChunk? [c]).isNone && (c != '+' && c != '-') &&
        (standaloneForm? [c]).isNone && !isField [c] && !isPhrase [c] &&
        (Text.splitAtDots [c]).isNone && (taggedForm? [c]).isNone &&
        Text.trim isWordTrimmed [c] == [c] && c != '0')
    (by decide +kernel) hspace
  simp only [hblank, Bool.false_or, Bool.and_eq_true, Option.isNone_iff_eq_none, bne_iff_ne,
    Bool.not_eq_true', beq_iff_eq] at htests
  obtain ⟨⟨⟨⟨⟨⟨⟨⟨⟨hnumber, hsymbol⟩, hsign⟩, hstandalone⟩, hfield⟩, hphrase⟩, hdots⟩, htagged⟩, htrim⟩,
    hzero⟩ := htests
  have hword : Text.IsTrim isWordTrimmed [c] := .of_trim_eq (List.cons_ne_nil c []) htrim
  rw [chunk_eq_sortBody (List.cons_ne_nil c []) hnumber hsymbol, takeSign_of_ne s [] hsign,
    sortBody_eq_addPlain hstandalone (by simp [hfield]) hphrase hdots htagged,
    addPlain_eq_addWord s hword (by simpa using hzero)]

/-! ## Links -/

theorem snd_takeSign (value : Text) : (s.takeSign value).2 = dropSign value := by
  cases value with
  | nil => rfl
  | cons c cs =>
    by_cases hplus : c = '+'
    · rw [hplus]
      rfl
    · by_cases hminus : c = '-'
      · rw [hminus]
        rfl
      · rw [takeSign_of_ne s cs ⟨hplus, hminus⟩]
        simp [dropSign, signLength, hplus, hminus]

theorem isEmoticon_eq_false_of_isSpace {value : Text} {c : Char} (hc : c ∈ value)
    (hspace : Text.isSpace c = true) : isEmoticon value = false := by
  have hall : emoticons.all (fun e => e.all fun c => !Text.isSpace c) = true := by decide
  rw [Bool.eq_false_iff]
  intro h
  have hsolid := List.all_eq_true.mp (List.all_eq_true.mp hall value (List.contains_iff_mem.mp h)) c hc
  simp [hspace] at hsolid

theorem isEmoji_eq_false_of_isSpace {value : Text} {c : Char} (hc : c ∈ value)
    (hspace : Text.isSpace c = true) : Text.isEmoji value = false := by
  have hpart := Text.of_isSpace (p := fun c => !Text.isPictograph c && !Text.isKeycapBase c &&
    c != '\u20E3' && (Text.regionalLetter? c).isNone) (by decide) hspace
  simp only [Bool.and_eq_true, Bool.not_eq_true', bne_iff_ne, Option.isNone_iff_eq_none,
    and_assoc] at hpart
  obtain ⟨hpictograph, hbase, hkeycap, hregional⟩ := hpart
  unfold Text.isEmoji
  split
  · obtain rfl := List.mem_singleton.mp hc
    exact hpictograph
  · rename_i d e
    have hmem : c = d ∨ c = e := by simpa using hc
    rcases hmem with rfl | rfl
    · simp [hbase, hregional]
    · cases Text.regionalLetter? d <;> simp [hkeycap, hregional]
  · rfl

theorem isSpace_of_isField {value : Text} (h : isField value = true) :
    ∀ c ∈ value, Text.isSpace c = false := by
  have hsolid := isSpace_of_fieldLength? (fun _ h => absurd h Bool.false_ne_true) (beq_iff_eq.mp h)
  rwa [List.take_length] at hsolid

/-- No name and no date has a colon. -/
theorem taggedForm?_eq_none_of_colon {value : Text} (h : ':' ∈ value) :
    taggedForm? value = none := by
  have hcolon : ':' ∈ Text.trim isTrimmed value := Text.mem_trim h (by decide)
  have hhashtag : isHashtag (Text.trimRight isTrimmed value) = false := by
    rw [Bool.eq_false_iff]
    intro hvalue
    exact absurd ((of_isPlainName (isPlainName_of_isHashtag hvalue)).2 ':' hcolon) (by decide)
  have hmention : isMention (Text.trimRight isTrimmed value) = false := by
    rw [Bool.eq_false_iff]
    intro hvalue
    have hname := isMentionName_of_isMention hvalue
    rw [Text.isMentionName, Bool.and_eq_true] at hname
    exact absurd (List.all_eq_true.mp hname.1 ':' hcolon) (by decide)
  have hdate : isDate (Text.trimRight isTrimmed value) = false := by
    rw [Bool.eq_false_iff]
    intro hvalue
    exact absurd ((of_isPlainDate (isPlainDate_of_isDate hvalue)).2.2.2 ':' hcolon) (by decide)
  simp [taggedForm?, hhashtag, hmention, hdate]

/-- A scheme, which may be empty, and an address with a space. -/
structure IsSpacedLink (scheme : Text) (c d : Char) (run : Text) : Prop where
  scheme : ∀ e ∈ scheme, isSchemeChar e = true
  address : IsAddress c d run
  space : Text.isSpace d = true

section

variable (plus scheme : Text) (c d : Char) (run : Text)

theorem colon_mem_linkOf : ':' ∈ plus ++ linkOf scheme c d run := by
  simp [linkOf]

theorem number?_linkOf : number? (plus ++ linkOf scheme c d run) = none :=
  number?_eq_none_of_mem (colon_mem_linkOf plus scheme c d run) (by decide)

theorem ofChunk?_linkOf : Symbol.ofChunk? (plus ++ linkOf scheme c d run) = none := by
  refine ofChunk?_eq_none ?_ (colon_mem_linkOf plus scheme c d run) (by decide)
  simp only [linkOf, List.length_append, List.length_cons]
  omega

end

/-- Nothing is trimmed off the front of a link. -/
theorem isPadding_head_linkOf {plus scheme : Text} {c d : Char} {run : Text}
    (h : IsLink plus scheme c d run) :
    ∀ e ∈ (plus ++ linkOf scheme c d run).head?, Text.isPadding e = false := by
  intro e he
  rcases h.plus with rfl | rfl
  · obtain ⟨f, fs, hscheme⟩ := List.exists_cons_of_ne_nil h.ne_nil
    obtain rfl : f = e := by simpa [linkOf, hscheme] using he
    have hf := h.scheme f (by simp [hscheme])
    refine isPadding_of_isSpace (isSpace_of_isSchemeChar hf) ?_
    rintro rfl
    exact absurd hf (by decide)
  · obtain rfl : '+' = e := by simpa using he
    rfl

namespace IsSpacedLink

variable {scheme run : Text} {c d : Char}

theorem space_mem : d ∈ linkOf scheme c d run := by
  simp [linkOf]

/-- Without a sign it is one still, maybe with an empty scheme. -/
theorem exists_dropSign (h : IsSpacedLink scheme c d run) :
    ∃ scheme', dropSign (linkOf scheme c d run) = linkOf scheme' c d run ∧
      IsSpacedLink scheme' c d run := by
  cases scheme with
  | nil => exact ⟨[], rfl, h⟩
  | cons e es =>
    by_cases he : (e == '+' || e == '-') = true
    · refine ⟨es, by simp [dropSign, signLength, linkOf, he], ?_, h.address, h.space⟩
      exact fun x hx => h.scheme x (List.mem_cons_of_mem e hx)
    · exact ⟨e :: es, by simp [dropSign, signLength, linkOf, he], h⟩

theorem isPhrase_eq_false (h : IsSpacedLink scheme c d run) :
    isPhrase (linkOf scheme c d run) = false := by
  obtain ⟨scheme', hdrop, h'⟩ := h.exists_dropSign
  have hhead : (dropSign (linkOf scheme c d run)).head? ≠ some '"' := by
    rw [hdrop]
    cases scheme' with
    | nil => simp [linkOf]
    | cons e es =>
      rintro ⟨⟩
      exact absurd (h'.scheme '"' (by simp)) (by decide)
  rw [isPhrase, phraseLength?_eq_none hhead]
  rfl

theorem isField_eq_false (h : IsSpacedLink scheme c d run) :
    isField (linkOf scheme c d run) = false := by
  rw [Bool.eq_false_iff]
  intro hfield
  simpa [h.space] using isSpace_of_isField hfield d space_mem

/-- It is a link or nothing that stands alone. -/
theorem standaloneForm?_eq (h : IsSpacedLink scheme c d run) :
    standaloneForm? (linkOf scheme c d run) =
      if isUrl (linkOf scheme c d run) then some .url else none := by
  have hemoticon : isEmoticon (linkOf scheme c d run) = false :=
    isEmoticon_eq_false_of_isSpace space_mem h.space
  have hemoji : Text.isEmoji (linkOf scheme c d run) = false :=
    isEmoji_eq_false_of_isSpace space_mem h.space
  simp [standaloneForm?, hemoticon, hemoji]

/-- Without a scheme and without dots it is a word. -/
theorem sortBody_of_not_isUrl (h : IsSpacedLink scheme c d run)
    (hurl : isUrl (linkOf scheme c d run) = false)
    (hdots : Text.splitAtDots (linkOf scheme c d run) = none) (s : Scan) :
    s.sortBody (linkOf scheme c d run) = s.addPlain (linkOf scheme c d run) := by
  have hstandalone : standaloneForm? (linkOf scheme c d run) = none := by
    simp [h.standaloneForm?_eq, hurl]
  have hcolon : ':' ∈ linkOf scheme c d run := colon_mem_linkOf [] scheme c d run
  exact sortBody_eq_addPlain hstandalone (by simp [h.isField_eq_false]) h.isPhrase_eq_false hdots
    (taggedForm?_eq_none_of_colon hcolon)

theorem scheme_eq_nil (h : IsSpacedLink scheme c d run)
    (hurl : isUrl (linkOf scheme c d run) = false) : scheme = [] := by
  by_contra hne
  have hlink : IsLink [] scheme c d run := ⟨.inl rfl, hne, h.scheme, h.address⟩
  have hlinkUrl := hlink.isUrl
  rw [List.nil_append, hurl] at hlinkUrl
  cases hlinkUrl

end IsSpacedLink

theorem isUrl_colon (rest : Text) : isUrl (':' :: rest) = false := by
  have hcolon : isSchemeChar ':' = false := by decide
  simp [isUrl, urlLength?, hcolon]

/-- What comes before the first two dots of a text is not split at dots. -/
theorem splitAtDots_fst {body lower upper : Text}
    (h : Text.splitAtDots body = some (lower, upper)) : Text.splitAtDots lower = none := by
  fun_induction Text.splitAtDots body generalizing lower upper with
  | case1 rest =>
    obtain ⟨rfl, -⟩ := Prod.mk.inj (Option.some.inj h)
    rfl
  | case2 c rest hdots ih =>
    obtain ⟨⟨before, after⟩, hrest, hparts⟩ := Option.map_eq_some_iff.mp h
    obtain ⟨rfl, rfl⟩ := Prod.mk.inj hparts
    have hbefore := ih hrest
    rw [Text.splitAtDots, hbefore]
    · rfl
    · rintro rest' rfl hbefore'
      rw [Text.append_of_splitAtDots hrest] at hdots
      simp_all
  | case3 => cases h

/-- A chunk without a scheme is read up to its first two dots. -/
theorem holdsSpace_chunk_colon {c d : Char} {run : Text} (h : IsSpacedLink [] c d run)
    (hdots : Text.splitAtDots (linkOf [] c d run) = none) :
    (s.chunk (linkOf [] c d run)).holdsSpace =
      ((Text.trim isWordTrimmed (linkOf [] c d run)).any Text.isSpace || s.holdsSpace) := by
  have hsign : s.takeSign (linkOf [] c d run) = (s, linkOf [] c d run) :=
    takeSign_of_ne s _ (by decide)
  have hne : linkOf [] c d run ≠ [] := List.cons_ne_nil _ _
  have hnumber : number? (linkOf [] c d run) = none := number?_linkOf [] [] c d run
  have hsymbol : Symbol.ofChunk? (linkOf [] c d run) = none := ofChunk?_linkOf [] [] c d run
  rw [chunk_eq_sortBody hne hnumber hsymbol, hsign, h.sortBody_of_not_isUrl (isUrl_colon _) hdots,
    holdsSpace_addPlain]

/-- A link with a space in its address is a link or a word. -/
theorem holdsSpace_sortBody_link {scheme : Text} {c d : Char} {run : Text}
    (h : IsSpacedLink scheme c d run) :
    (s.sortBody (linkOf scheme c d run)).holdsSpace =
      ((bodyText (linkOf scheme c d run)).any Text.isSpace || s.holdsSpace) := by
  cases hurl : isUrl (linkOf scheme c d run) with
  | true =>
    rw [sortBody, h.standaloneForm?_eq]
    simp only [bodyText, hurl, if_true]
    rw [holdsSpace_add, holdsSpace_ofText (by simp)]
  | false =>
    obtain rfl := h.scheme_eq_nil hurl
    cases hdots : Text.splitAtDots (linkOf [] c d run) with
    | none =>
      simp [bodyText, hurl, hdots, h.sortBody_of_not_isUrl hurl hdots, holdsSpace_addPlain]
    | some parts =>
      obtain ⟨lower, upper⟩ := parts
      -- the dots stand behind the space, so only the first half holds it
      obtain ⟨hc, hd, hrun⟩ := h.address
      have hfront : ∀ e ∈ [':', '/', '/', c, d], e ≠ '.' := by
        rintro e he rfl
        simp only [List.mem_cons, List.not_mem_nil, or_false] at he
        rcases he with he | he | he | rfl | rfl
        · cases he
        · cases he
        · cases he
        · exact absurd hc (by decide)
        · exact absurd h.space (by decide)
      have hsplit := Text.splitAtDots_append hfront run
      change Text.splitAtDots (linkOf [] c d run) = _ at hsplit
      rw [hdots] at hsplit
      obtain ⟨⟨before, after⟩, hhalves, hparts⟩ := Option.map_eq_some_iff.mp hsplit.symm
      obtain ⟨hlower, hupper⟩ := Prod.mk.inj hparts
      subst hlower hupper
      have hparts := Text.append_of_splitAtDots hhalves
      have hspaced : IsSpacedLink [] c d before :=
        ⟨h.scheme, ⟨hc, hd, fun e he => hrun e (by simp [hparts, he])⟩, h.space⟩
      have hsolid : ∀ e ∈ after, Text.isSpace e = false := fun e he =>
        isSpace_of_isAddressRest (hrun e (by simp [hparts, he]))
      have hupTo : Symbol.ofChunk? ['.', '.'] = some .upTo := rfl
      have hchunk := holdsSpace_chunk_colon s hspaced (splitAtDots_fst hdots)
      rw [sortBody, h.standaloneForm?_eq]
      simp only [hurl, h.isField_eq_false, h.isPhrase_eq_false, hdots, Bool.and_false,
        Bool.false_eq_true, if_false]
      rw [holdsSpace_chunk_of_solid _ hsolid, holdsSpace_symbol _ hupTo, bodyText, hdots, if_neg
        (by simp [hurl])]
      exact hchunk

/-- A chunk that was cut off as a link, a part of which may have been trimmed off its end. -/
theorem holdsSpace_chunk_link {plus scheme : Text} {c d : Char} {run : Text}
    (h : IsLink plus scheme c d run) (hspace : Text.isSpace d = true) :
    (s.chunk (plus ++ linkOf scheme c d run)).holdsSpace =
      ((bodyText (dropSign (plus ++ linkOf scheme c d run))).any Text.isSpace || s.holdsSpace) := by
  have hlink : IsSpacedLink scheme c d run := ⟨h.scheme, h.address, hspace⟩
  have hbody : ∃ scheme', dropSign (plus ++ linkOf scheme c d run) = linkOf scheme' c d run ∧
      IsSpacedLink scheme' c d run := by
    rcases h.plus with rfl | rfl
    · exact hlink.exists_dropSign
    · exact ⟨scheme, rfl, hlink⟩
  obtain ⟨scheme', hdrop, hlink'⟩ := hbody
  rw [chunk_eq_sortBody (List.ne_nil_of_mem (colon_mem_linkOf plus scheme c d run))
    (number?_linkOf plus scheme c d run) (ofChunk?_linkOf plus scheme c d run), snd_takeSign, hdrop,
    holdsSpace_sortBody_link _ hlink', holdsSpace_takeSign]

end Scan

end SearchLang
