import Mathlib.Data.List.TakeDrop
import SearchLang.Node.Plain
import SearchLang.Node.Tokens
import SearchLang.Proofs.Chunk.Cut
import SearchLang.Proofs.Number.ReadBack
import SearchLang.Proofs.Text.Ends
import SearchLang.Token.Scan

/-!
# Scanning pieces

What the pieces of plain trees add to a scan: each leaf, with the sign before
it, adds its tokens, and so does the start of a filter.
-/

namespace SearchLang.Scan

open Pattern Chunk

/-! ## Adding tokens -/

/-- Adds tokens in their order. -/
def push (s : Scan) (ts : List Token) : Scan :=
  { s with tokens := ts.reverse ++ s.tokens }

@[simp] theorem inFilter_push (s : Scan) (ts : List Token) : (s.push ts).inFilter = s.inFilter := rfl

@[simp] theorem inSubquery_push (s : Scan) (ts : List Token) :
    (s.push ts).inSubquery = s.inSubquery := rfl

@[simp] theorem range_push (s : Scan) (ts : List Token) : (s.push ts).range = s.range := rfl

@[simp] theorem push_nil (s : Scan) : s.push [] = s := rfl

theorem push_append (s : Scan) (ts us : List Token) : s.push (ts ++ us) = (s.push ts).push us := by
  simp [push]

@[simp] theorem lastKind_push_append (s : Scan) (ts : List Token) (t : Token) :
    (s.push (ts ++ [t])).lastKind = t.kind := by
  simp [push, lastKind]

@[simp] theorem lastKind_push_singleton (s : Scan) (t : Token) : (s.push [t]).lastKind = t.kind :=
  rfl

theorem addOnce_eq_push {s : Scan} {k : Kind} (h : s.lastKind ≠ k) :
    s.addOnce k = s.push [.mark k] :=
  addOnce_of_ne h

/-- A word goes into the newest token only if that is a word. -/
theorem addWord_eq_push {s : Scan} (h : s.lastKind ≠ .word) (value : Text) :
    s.addWord value = s.push [.ofText .word value] := by
  rcases s.addWord_cases with hword | ⟨before, rest, htokens, -, -⟩
  · exact hword value
  · simp [lastKind, htokens, Token.ofText] at h

/-! ## Forms that a text does not have -/

/-- A length found in a text, of a form that needs some character, is no length of a text without
the character. -/
theorem beq_length_eq_false {length? : Option Nat} {s : Text} {c : Char} (hc : c ∉ s)
    (h : length?.isSome = true → c ∈ s) : (length? == some s.length) = false := by
  cases length? with
  | none => rfl
  | some n => exact absurd (h rfl) hc

theorem isUrl_eq_false {s : Text} (hs : ':' ∉ s) : isUrl s = false := by
  apply beq_length_eq_false hs
  intro h
  unfold urlLength? at h
  generalize (if s.head? = some '+' then 1 else 0) = start at h
  simp only at h
  split at h
  · simp at h
  · split at h
    · rename_i heq
      exact List.mem_of_mem_drop (heq ▸ List.mem_cons_self)
    · simp at h

theorem isField_eq_false {s : Text} (hs : ':' ∉ s) : isField s = false := by
  apply beq_length_eq_false hs
  intro h
  unfold fieldLength? at h
  split at h
  · rename_i c rest heq
    split at h
    · simp only at h
      split at h
      · rename_i hcolon
        have hmem : ':' ∈ dropSign s := by
          rw [heq]
          exact .tail _ (List.mem_of_mem_drop (hcolon ▸ List.mem_cons_self))
        exact List.mem_of_mem_drop hmem
      · simp at h
    · simp at h
  · simp at h

theorem isPhrase_eq_false {s : Text} (hs : '"' ∉ s) : isPhrase s = false := by
  apply beq_length_eq_false hs
  intro h
  unfold phraseLength? at h
  split at h
  · rename_i rest heq
    have hmem : '"' ∈ dropSign s := by
      rw [heq]
      exact List.mem_cons_self
    exact List.mem_of_mem_drop hmem
  · simp at h

theorem isEmoji_eq_false {s : Text} (h : ∀ c ∈ s, c.toNat < 128) : Text.isEmoji s = false := by
  -- one character must be a pictograph, and two a keycap or a pair of regional letters
  have hpictographs : ∀ r ∈ Text.pictographs, 128 ≤ r.1 := by decide +kernel
  unfold Text.isEmoji
  split
  · rename_i c
    have hc := h c (by simp)
    simp only [Text.isPictograph, Text.inRanges, List.any_eq_false, Bool.and_eq_true,
      decide_eq_true_eq, not_and]
    intro r hr hle
    have := hpictographs r hr
    omega
  · rename_i c d
    have hc := h c (by simp)
    have hd := h d (by simp)
    have hkeycap : d ≠ '\u20E3' := by
      rintro rfl
      simp at hd
    have hregional : Text.regionalLetter? c = none := by
      unfold Text.regionalLetter?
      rw [if_neg]
      simp only [Bool.and_eq_true, decide_eq_true_eq]
      omega
    simp [hkeycap, hregional]
  · rfl

theorem isEmoticon_eq_false {s : Text} (h : ∀ c ∈ s.head?, startsEmoticon c = false) :
    isEmoticon s = false := by
  have hstart : ∀ e ∈ emoticons, e.head?.any startsEmoticon = true := by decide
  rw [isEmoticon, Bool.eq_false_iff]
  intro hmem
  have hs := hstart s (List.contains_iff_mem.mp hmem)
  cases s with
  | nil => simp at hs
  | cons c cs => simp [h c rfl] at hs

/-- A text without two dots in a row is not split. -/
theorem splitAtDots_eq_none {s : Text} (h : ∀ c ∈ s, c ≠ '.') : Text.splitAtDots s = none := by
  cases hs : Text.splitAtDots s with
  | none => rfl
  | some parts =>
    have := Text.append_of_splitAtDots hs
    exact absurd rfl (h '.' (by simp [this]))

/-- The characters of keywords, in upper case. -/
def isKeywordChar (c : Char) : Bool :=
  ['|', '&', '.', 'O', 'R', 'A', 'N', 'D', 'T'].contains c

theorem keyword?_eq_none {s : Text} {c : Char} (hc : c ∈ s)
    (hupper : isKeywordChar c.toUpper = false) : Symbol.keyword? s = none := by
  have hmem : c.toUpper ∈ Text.toUpperAscii s := List.mem_map_of_mem hc
  unfold Symbol.keyword?
  split <;> simp_all [isKeywordChar]

/-- A text that starts with no mark of the keywords is a keyword of letters or none. -/
theorem keyword?_eq_none_of_isKeywordText {s : Text} (h : isKeywordText s = false)
    (hhead : ∀ c ∈ s.head?, c.toUpper ≠ '|' ∧ c.toUpper ≠ '&' ∧ c.toUpper ≠ '.') :
    Symbol.keyword? s = none := by
  have hmark : ∀ c ∈ (Text.toUpperAscii s).head?, c ≠ '|' ∧ c ≠ '&' ∧ c ≠ '.' := by
    simpa [Text.toUpperAscii] using hhead
  unfold Symbol.keyword?
  split <;> simp_all [isKeywordText]

theorem ofChunk?_eq_none {s : Text} {c : Char} (hlen : 2 ≤ s.length) (hc : c ∈ s)
    (hupper : isKeywordChar c.toUpper = false) : Symbol.ofChunk? s = none := by
  unfold Symbol.ofChunk?
  split
  · simp at hlen
  · exact keyword?_eq_none hc hupper

/-- A signed text is no literal if the text after the sign is none. -/
theorem read?_lead (m : Modifiers) {c : Char} {cs : Text} (hc : c ≠ '+' ∧ c ≠ '-')
    (h : Decimal.readUnsigned? (c :: cs) = none) : Decimal.read? (m.lead ++ c :: cs) = none := by
  have hsign : (Decimal.takeSign (m.lead ++ c :: cs)).2 = c :: cs := by
    rcases lead_cases m with h | h | h <;> rw [h]
    · simp only [List.nil_append]
      unfold Decimal.takeSign
      split <;> simp_all
    · rfl
    · rfl
  simp [Decimal.read?, hsign, h]

theorem number?_eq_none {s : Text} (h : Decimal.read? s = none) : number? s = none := by
  simp [number?, Number.ofLiteral?, h]

/-- A text with a character that no literal holds is no number. -/
theorem number?_eq_none_of_mem {s : Text} {c : Char} (hc : c ∈ s)
    (hliteral : Decimal.isLiteralChar c = false) : number? s = none := by
  refine number?_eq_none (Option.not_isSome_iff_eq_none.mp fun h => ?_)
  simp [Decimal.isLiteralChar_of_read? h c hc] at hliteral

/-- A digit or a point must start a number. -/
theorem readUnsigned?_eq_none {c : Char} (cs : Text) (hc : c.isDigit = false ∧ c ≠ '.') :
    Decimal.readUnsigned? (c :: cs) = none := by
  have hspan : (c :: cs).span Char.isDigit = ([], c :: cs) := by
    simp [List.span_eq_takeWhile_dropWhile, hc.1]
  have hfraction : Decimal.takeFraction (c :: cs) = ([], c :: cs) := by
    unfold Decimal.takeFraction
    split
    · simp_all
    · rfl
  unfold Decimal.readUnsigned?
  rw [hspan]
  simp [hfraction]

theorem number?_lead (m : Modifiers) {c : Char} (cs : Text)
    (hc : c.isDigit = false ∧ c ≠ '.' ∧ c ≠ '+' ∧ c ≠ '-') : number? (m.lead ++ c :: cs) = none :=
  number?_eq_none (read?_lead m hc.2.2 (readUnsigned?_eq_none cs ⟨hc.1, hc.2.1⟩))

/-! ## Bodies -/

/-- Sorts the body of a chunk, which is what the sign leaves of one that is no number and no
symbol. -/
def sortBody (s : Scan) (body : Text) : Scan :=
  match standaloneForm? body with
  | some form => s.add (.ofText (.text form) (Text.trim isTrimmed body))
  | none =>
    if s.atClauseStart && isField body then
      { s with inFilter := true }.add (.ofText .filterStart (Text.trimRight (· == ':') body))
    else if isPhrase body then
      s.add (.ofText (.text .phrase) (Text.trimSpace (Text.trim (· == '"') body)))
    else match Text.splitAtDots body with
    | some (lower, upper) => ((s.chunk lower).symbol .upTo).chunk upper
    | none =>
      match taggedForm? body with
      | some form => s.add (.ofText (.text form) (Text.trim isTrimmed body))
      | none => s.addPlain body

theorem chunk_eq_sortBody {s : Scan} {value : Text} (hne : value ≠ []) (hn : number? value = none)
    (hs : Symbol.ofChunk? value = none) :
    s.chunk value = (s.takeSign value).1.sortBody (s.takeSign value).2 := by
  rw [chunk, if_neg hne, hn, hs]
  simp only [sortBody]
  generalize s.takeSign value = unsigned
  cases standaloneForm? unsigned.2 with
  | some form => rfl
  | none =>
    cases hdots : Text.splitAtDots unsigned.2 <;> rfl

/-- A body that has no form is added as a word. -/
theorem sortBody_eq_addPlain {s : Scan} {body : Text} (hstandalone : standaloneForm? body = none)
    (hfield : (s.atClauseStart && isField body) = false) (hphrase : isPhrase body = false)
    (hdots : Text.splitAtDots body = none) (htagged : taggedForm? body = none) :
    s.sortBody body = s.addPlain body := by
  rw [sortBody, hstandalone]
  simp only [hfield, hphrase, Bool.false_eq_true, if_false]
  split
  · simp_all
  · rw [htagged]

/-- A word without punctuation at its ends is added as it stands. -/
theorem addPlain_eq_addWord (s : Scan) {body : Text} (h : Text.IsTrim isWordTrimmed body)
    (hzero : body ≠ ['0']) : s.addPlain body = s.addWord body := by
  have hstar : body.getLast? ≠ some '*' := fun hlast => absurd (h.last '*' hlast) (by decide)
  simp [addPlain, h.trim_eq, h.ne_nil, hzero, hstar]

/-- A character of the words, names and dates of plain trees. -/
def isBare (c : Char) : Bool :=
  isTame c && c.toNat < 128 && c != '.'

/-- A property of the characters of names can be tested on all ASCII characters. -/
theorem of_isNameChar {p : Char → Bool}
    (h : (List.range 128).all (fun n => !isNameChar (Char.ofNat n) || p (Char.ofNat n)) = true)
    {c : Char} (hc : isNameChar c = true) : p c = true := by
  have hlt : c.toNat < 128 := lt_of_isNameRest (by simp [isNameRest, hc])
  have hp := of_ascii (p := fun c => !isNameChar c || p c) h hlt
  simpa [hc] using hp

theorem isBare_of_isNameChar {c : Char} (h : isNameChar c = true) : isBare c = true :=
  of_isNameChar (by decide) h

theorem isTrimmed_of_isNameChar {c : Char} (h : isNameChar c = true) :
    isTrimmed c = false ∧ isWordTrimmed c = false := by
  have hall := of_isNameChar (p := fun c => !isTrimmed c && !isWordTrimmed c) (by decide) h
  simpa using hall

theorem isNameChar_of_isAlpha {c : Char} (h : c.isAlpha = true) : isNameChar c = true := by
  simp [isNameChar, Char.isAlphanum, h]

theorem isNameChar_of_isDigit {c : Char} (h : c.isDigit = true) : isNameChar c = true := by
  simp [isNameChar, Char.isAlphanum, h]

/-- A body of bare characters is a hashtag, a mention, a date or plain. -/
theorem sortBody_of_isBare (s : Scan) {body : Text} (h : ∀ c ∈ body, isBare c = true) :
    s.sortBody body =
      match taggedForm? body with
      | some form => s.push [.ofText (.text form) (Text.trim isTrimmed body)]
      | none => s.addPlain body := by
  have htame : ∀ c ∈ body, isTame c = true ∧ c.toNat < 128 ∧ c ≠ '.' := by
    intro c hc
    have := h c hc
    simp only [isBare, Bool.and_eq_true, decide_eq_true_eq, bne_iff_ne] at this
    exact ⟨this.1.1, this.1.2, this.2⟩
  have hcolon : ':' ∉ body := fun hc => (isTame_iff.mp (htame _ hc).1).2.1 rfl
  have hquote : '"' ∉ body := fun hc => (isTame_iff.mp (htame _ hc).1).2.2.2.1 rfl
  have hurl : isUrl body = false := isUrl_eq_false hcolon
  have hfield : isField body = false := isField_eq_false hcolon
  have hphrase : isPhrase body = false := isPhrase_eq_false hquote
  have hstandalone : standaloneForm? body = none := by
    have hemoticon : isEmoticon body = false := isEmoticon_eq_false fun c hc =>
      startsEmoticon_of_isTame (htame c (List.mem_of_mem_head? hc)).1
    have hemoji : Text.isEmoji body = false := isEmoji_eq_false fun c hc => (htame c hc).2.1
    simp [standaloneForm?, hemoticon, hemoji, hurl]
  have hdots : Text.splitAtDots body = none := splitAtDots_eq_none fun c hc => (htame c hc).2.2
  simp only [sortBody, hstandalone, hfield, hphrase, hdots, Bool.and_false, Bool.false_eq_true,
    if_false]
  rfl

theorem isHashtag_eq_false {s : Text} (hs : '#' ∉ s) : isHashtag s = false := by
  rw [Bool.eq_false_iff]
  intro h
  simp only [isHashtag, Bool.and_eq_true, beq_iff_eq] at h
  exact hs (List.mem_of_mem_drop (List.mem_of_mem_head? h.1.1))

theorem isMention_eq_false {s : Text} (hs : '@' ∉ s) : isMention s = false := by
  rw [Bool.eq_false_iff]
  intro h
  simp only [isMention, Bool.and_eq_true, beq_iff_eq] at h
  exact hs (List.mem_of_mem_drop (List.mem_of_mem_head? h.1))

theorem isDate_eq_false {s : Text} (hs : '-' ∉ s) : isDate s = false := by
  rw [Bool.eq_false_iff]
  intro h
  have hmem : '-' ∈ dropSign s := by
    unfold isDate isPlainDate at h
    split at h
    · rename_i heq
      simp [heq]
    · simp at h
  exact hs (List.mem_of_mem_drop hmem)

/-- The parts of a plain word. -/
theorem of_isPlainWord {s : Text} (h : Text.isPlainWord s = true) :
    s ≠ [] ∧ (∀ c ∈ s, c.isAlpha = true) ∧ isKeywordText s = false := by
  simpa [Text.isPlainWord, and_assoc] using h

theorem sortBody_word {s : Scan} (hs : s.lastKind ≠ .word) {value : Text}
    (hvalue : Text.isPlainWord value = true) (wildcard : Bool) :
    s.sortBody (Leaf.word value wildcard).render = s.push (Leaf.word value wildcard).tokens := by
  obtain ⟨hne, halpha, -⟩ := of_isPlainWord hvalue
  have hname : ∀ c ∈ value, isNameChar c = true := fun c hc => isNameChar_of_isAlpha (halpha c hc)
  have htrim : Text.IsTrim isTrimmed value :=
    .of_forall hne fun c hc => (isTrimmed_of_isNameChar (hname c hc)).1
  have hword : Text.IsTrim isWordTrimmed value :=
    .of_forall hne fun c hc => (isTrimmed_of_isNameChar (hname c hc)).2
  have hnot (c : Char) (hc : c.isAlpha = false) : c ∉ value := by
    intro hmem
    simp [halpha c hmem] at hc
  have hrender : (Leaf.word value wildcard).render = value ++ if wildcard then ['*'] else [] := by
    cases wildcard <;> simp [Leaf.render]
  have hstar : ∀ c ∈ (if wildcard then ['*'] else []), c = '*' := by cases wildcard <;> simp
  -- the star is trimmed off in front of every test, and seen again at the end
  generalize hend : (if wildcard then ['*'] else []) = star at hrender hstar
  have hform : taggedForm? (value ++ star) = none := by
    unfold taggedForm?
    rw [htrim.trimRight_append fun c hc => hstar c hc ▸ rfl]
    simp [isHashtag_eq_false (hnot '#' (by decide)), isMention_eq_false (hnot '@' (by decide)),
      isDate_eq_false (hnot '-' (by decide))]
  have hplain : Text.trim isWordTrimmed (value ++ star) = value :=
    hword.trim_surrounded [] star (List.forall_mem_nil _) fun c hc => hstar c hc ▸ rfl
  have hzero : value ≠ ['0'] := by
    rintro rfl
    exact hnot '0' (by decide) (by simp)
  rw [hrender, sortBody_of_isBare, hform]
  · simp only [addPlain, hplain, hne, hzero, false_or, if_false, addWord_eq_push hs]
    cases wildcard with
    | true =>
      subst hend
      have hkind : (s.push [.ofText .word value]).lastKind ≠ .wildcard := by simp
      simp [addOnce_eq_push hkind, ← push_append, Leaf.tokens]
    | false =>
      subst hend
      have hlast : value.getLast? ≠ some '*' := fun h =>
        hnot '*' (by decide) (List.mem_of_getLast? h)
      simp [hlast, Leaf.tokens]
  · intro c hc
    rcases List.mem_append.mp hc with hc | hc
    · exact isBare_of_isNameChar (hname c hc)
    · rw [hstar c hc]
      decide

theorem of_isPlainName {s : Text} (h : Text.isPlainName s = true) :
    s ≠ [] ∧ ∀ c ∈ s, isNameChar c = true := by
  simpa [Text.isPlainName] using h

/-- A name after the mark of its form is a value of that form. -/
theorem sortBody_marked (s : Scan) {mark : Char} (hbare : isBare mark = true)
    (hmark : isTrimmed mark = true) {name : Text} (h : Text.isPlainName name = true)
    {form : TextForm} (hform : taggedForm? (mark :: name) = some form) :
    s.sortBody (mark :: name) = s.push [.ofText (.text form) name] := by
  obtain ⟨hne, hname⟩ := of_isPlainName h
  have htrim : Text.IsTrim isTrimmed name :=
    .of_forall hne fun c hc => (isTrimmed_of_isNameChar (hname c hc)).1
  have hvalue := htrim.trim_surrounded [mark] [] (by simpa using hmark) (List.forall_mem_nil _)
  have hall : ∀ c ∈ mark :: name, isBare c = true := by
    intro c hc
    rcases List.mem_cons.mp hc with rfl | hc
    · exact hbare
    · exact isBare_of_isNameChar (hname c hc)
  rw [sortBody_of_isBare s hall, hform]
  simp only [List.append_nil, List.cons_append, List.nil_append] at hvalue
  simp only [hvalue]

/-- The end of a name is no punctuation. -/
theorem trimRight_marked (mark : Char) {name : Text} (h : Text.isPlainName name = true) :
    Text.trimRight isTrimmed (mark :: name) = mark :: name := by
  obtain ⟨hne, hname⟩ := of_isPlainName h
  have hlast : ∀ c ∈ (mark :: name).getLast?, isTrimmed c = false := by
    intro c hc
    obtain ⟨d, ds, rfl⟩ := List.exists_cons_of_ne_nil hne
    rw [List.getLast?_cons_cons] at hc
    exact (isTrimmed_of_isNameChar (hname c (List.mem_of_getLast? hc))).1
  have htrim := Text.trimRight_append (List.cons_ne_nil mark name) hlast (List.forall_mem_nil _)
  rwa [List.append_nil] at htrim

/-- A mark that no name holds is all that is dropped in front of a name. -/
theorem dropWhile_marked (mark : Char) (hmark : isNameChar mark = false) {name : Text}
    (h : Text.isPlainName name = true) : (mark :: name).dropWhile (· == mark) = name := by
  obtain ⟨hne, hname⟩ := of_isPlainName h
  obtain ⟨d, ds, rfl⟩ := List.exists_cons_of_ne_nil hne
  have hd : d ≠ mark := by
    rintro rfl
    simp [hname d (by simp)] at hmark
  simp [hd]

theorem sortBody_hashtag (s : Scan) {name : Text} (h : Text.isPlainName name = true) :
    s.sortBody ('#' :: name) = s.push [.ofText (.text .hashtag) name] := by
  have hdrop := dropWhile_marked '#' (by decide) h
  obtain ⟨hne, hname⟩ := of_isPlainName h
  have hhashtag : isHashtag ('#' :: name) = true := by
    have hsign : dropSign ('#' :: name) = '#' :: name := rfl
    simp only [isHashtag, hsign, hdrop]
    simpa [hne] using hname
  exact sortBody_marked s (by decide) (by decide) h
    (by simp [taggedForm?, trimRight_marked _ h, hhashtag])

theorem sortBody_mention (s : Scan) {name : Text} (h : Text.isPlainName name = true) :
    s.sortBody ('@' :: name) = s.push [.ofText (.text .mention) name] := by
  have hdrop := dropWhile_marked '@' (by decide) h
  obtain ⟨hne, hname⟩ := of_isPlainName h
  have hmention : isMention ('@' :: name) = true := by
    have hsign : dropSign ('@' :: name) = '@' :: name := rfl
    obtain ⟨c, cs, rfl⟩ := List.exists_cons_of_ne_nil hne
    simp only [isMention, hsign, hdrop]
    have hrest : ∀ d ∈ cs, isNameRest d = true := fun d hd => by
      simp [isNameRest, hname d (by simp [hd])]
    simpa [hname c (by simp)] using hrest
  have hhashtag : isHashtag ('@' :: name) = false := rfl
  exact sortBody_marked s (by decide) (by decide) h
    (by simp [taggedForm?, trimRight_marked _ h, hmention, hhashtag])

/-- A date starts and ends with a digit, and holds digits and hyphens. -/
theorem of_isPlainDate {s : Text} (h : isPlainDate s = true) :
    s ≠ [] ∧ (∀ c ∈ s.head?, c.isDigit = true) ∧ (∀ c ∈ s.getLast?, c.isDigit = true) ∧
      ∀ c ∈ s, c.isDigit = true ∨ c = '-' := by
  unfold isPlainDate at h
  split at h
  · simp only [List.all_cons, List.all_nil, Bool.and_eq_true] at h
    simp [h]
  · simp at h

theorem hyphen_mem_of_isPlainDate {s : Text} (h : isPlainDate s = true) : '-' ∈ s.tail := by
  unfold isPlainDate at h
  split at h
  · simp
  · simp at h

theorem sortBody_date (s : Scan) {date : Text} (h : isPlainDate date = true) :
    s.sortBody date = s.push [.ofText (.text .date) date] := by
  obtain ⟨hne, hhead, hlast, hall⟩ := of_isPlainDate h
  have hdigit {c : Char} (hc : c.isDigit = true) : isTrimmed c = false :=
    (isTrimmed_of_isNameChar (isNameChar_of_isDigit hc)).1
  have htrim : Text.IsTrim isTrimmed date :=
    ⟨hne, fun c hc => hdigit (hhead c hc), fun c hc => hdigit (hlast c hc)⟩
  have hright : Text.trimRight isTrimmed date = date := by
    have := htrim.trimRight_append (List.forall_mem_nil _)
    rwa [List.append_nil] at this
  have hsign : dropSign date = date := by
    obtain ⟨c, cs, rfl⟩ := List.exists_cons_of_ne_nil hne
    exact (dropSign_lead {} (Decimal.ne_sign_of_isDigit (hhead c rfl)) cs).2
  have hmark (c : Char) (hc : c.isDigit = false ∧ c ≠ '-') : c ∉ date := by
    intro hmem
    rcases hall c hmem with hd | rfl <;> simp_all
  have hform : taggedForm? date = some .date := by
    have hdate : isDate date = true := by rwa [isDate, hsign]
    simp [taggedForm?, hright, isHashtag_eq_false (hmark '#' (by decide)),
      isMention_eq_false (hmark '@' (by decide)), hdate]
  rw [sortBody_of_isBare, hform]
  · simp only [htrim.trim_eq]
  · intro c hc
    rcases hall c hc with hd | rfl
    · exact isBare_of_isNameChar (isNameChar_of_isDigit hd)
    · decide

/-- The parts of a plain phrase. -/
theorem of_isPlainPhrase {s : Text} (h : Text.isPlainPhrase s = true) :
    s ≠ [] ∧ (∀ c ∈ s, c ≠ '"') ∧ Text.IsTrim Text.isSpace s := by
  simp only [Text.isPlainPhrase, Bool.and_eq_true, Bool.not_eq_true', List.isEmpty_eq_false_iff,
    List.contains_eq_mem, decide_eq_false_iff_not, bne_iff_ne, List.all_eq_true, Bool.or_eq_true,
    beq_iff_eq] at h
  obtain ⟨⟨⟨⟨⟨hne, hquote⟩, hall⟩, hhead⟩, hlast⟩, -⟩ := h
  refine ⟨hne, fun c hc heq => hquote (heq ▸ hc), hne, fun c hc => ?_, fun c hc => ?_⟩
  · rcases hall c (List.mem_of_mem_head? hc) with rfl | hspace
    · exact absurd hc hhead
    · exact hspace
  · rcases hall c (List.mem_of_mem_getLast? hc) with rfl | hspace
    · exact absurd hc hlast
    · exact hspace

/-- A text without quotes is a phrase between quotes. -/
theorem sortBody_quoted (s : Scan) {value : Text} (hne : value ≠ [])
    (hquote : ∀ c ∈ value, c ≠ '"') :
    s.sortBody ('"' :: (value ++ ['"'])) =
      s.add (.ofText (.text .phrase) (Text.trimSpace value)) := by
  have hstandalone : standaloneForm? ('"' :: (value ++ ['"'])) = none := by
    have hemoticon : isEmoticon ('"' :: (value ++ ['"'])) = false :=
      isEmoticon_eq_false (by simp; decide)
    have hemoji : Text.isEmoji ('"' :: (value ++ ['"'])) = false := by
      -- an emoji has two characters at most, and the quotes are two already
      rw [Bool.eq_false_iff]
      intro hemoji
      have hpos := List.length_pos_iff.mpr hne
      have hlen := Text.length_of_isEmoji hemoji
      simp only [List.length_append, List.length_cons, List.length_nil] at hlen
      omega
    have hurl : isUrl ('"' :: (value ++ ['"'])) = false := by
      have hnone : urlLength? ('"' :: (value ++ ['"'])) = none := urlLength?_quote {} _
      rw [isUrl, hnone]
      rfl
    simp [standaloneForm?, hemoticon, hemoji, hurl]
  have hfield : isField ('"' :: (value ++ ['"'])) = false := by
    simp [isField, fieldLength?, dropSign, signLength, isFieldStart]
  have hphrase : isPhrase ('"' :: (value ++ ['"'])) = true := by
    have hsome := phraseLength?_lead {} hne hquote []
    rw [isPhrase, beq_iff_eq]
    simpa [Modifiers.lead] using hsome
  have hquotes : Text.IsTrim (· == '"') value :=
    .of_forall hne fun c hc => by simpa using hquote c hc
  have hvalue : Text.trim (· == '"') ('"' :: (value ++ ['"'])) = value :=
    hquotes.trim_surrounded ['"'] ['"'] (by simp) (by simp)
  rw [sortBody, hstandalone]
  simp only [hfield, hphrase, hvalue, Bool.and_false, Bool.false_eq_true, if_false, if_true]

/-- A phrase without spaces at its ends stays as it is. -/
theorem sortBody_phrase (s : Scan) {value : Text} (hquote : ∀ c ∈ value, c ≠ '"')
    (hspace : Text.IsTrim Text.isSpace value) :
    s.sortBody ('"' :: (value ++ ['"'])) = s.push [.ofText (.text .phrase) value] := by
  rw [sortBody_quoted s hspace.ne_nil hquote, Text.trimSpace, hspace.trim_eq]
  rfl

/-- The parts of a plain field. -/
theorem of_isPlainField {field : Text} (h : Text.isPlainField field = true) :
    ∃ c name, field = c :: name ∧ isFieldStart c = true ∧ ∀ d ∈ name, isNameRest d = true := by
  cases field with
  | nil => simp [Text.isPlainField] at h
  | cons c name => exact ⟨c, name, rfl, by simpa [Text.isPlainField] using h⟩

/-- The colon after a field is no part of the name. -/
theorem isTrim_field {field : Text} (h : Text.isPlainField field = true) :
    Text.IsTrim (· == ':') field := by
  obtain ⟨c, name, rfl, hc, hname⟩ := of_isPlainField h
  refine .of_forall (List.cons_ne_nil c name) fun d hd => ?_
  simpa using (isTame_iff.mp (isTame_of_isNameRest (isNameRest_of_mem_field hc hname d hd))).2.1

/-- A field is no emoticon, no emoji and no link. -/
theorem standaloneForm?_field {field : Text} (h : Text.isPlainField field = true) :
    standaloneForm? (field ++ [':']) = none := by
  obtain ⟨c, name, rfl, hc, hname⟩ := of_isPlainField h
  have hall : ∀ d ∈ c :: (name ++ [':']), isNameRest d = true ∨ d = ':' := by
    intro d hd
    rw [← List.cons_append, List.mem_append, List.mem_singleton] at hd
    exact hd.imp_left (isNameRest_of_mem_field hc hname d)
  have hemoticon : isEmoticon (c :: (name ++ [':'])) = false := by
    refine isEmoticon_eq_false fun d hd => ?_
    obtain rfl : c = d := by simpa using hd
    exact startsEmoticon_of_isTame (isTame_of_isNameRest (isNameRest_of_isFieldStart hc))
  have hemoji : Text.isEmoji (c :: (name ++ [':'])) = false := by
    refine isEmoji_eq_false fun d hd => ?_
    rcases hall d hd with hd | rfl
    · exact lt_of_isNameRest hd
    · decide
  have hurl : isUrl (c :: (name ++ [':'])) = false := by
    have hnone : urlLength? (c :: (name ++ [':'])) = none :=
      urlLength?_field {} hc hname (by simp)
    rw [isUrl, hnone]
    rfl
  rw [List.cons_append]
  simp [standaloneForm?, hemoticon, hemoji, hurl]

theorem sortBody_field {s : Scan} (hs : s.atClauseStart = true) {field : Text}
    (h : Text.isPlainField field = true) :
    s.sortBody (field ++ [':']) = { s with inFilter := true }.push [.ofText .filterStart field] := by
  have hstandalone := standaloneForm?_field h
  have hvalue : Text.trimRight (· == ':') (field ++ [':']) = field :=
    (isTrim_field h).trimRight_append (by simp)
  obtain ⟨c, name, rfl, hc, hname⟩ := of_isPlainField h
  have hfield : isField (c :: name ++ [':']) = true := by
    have hsome := fieldLength?_lead {} (fun _ => false) rfl hc hname []
    rw [isField, beq_iff_eq]
    simpa [Modifiers.lead] using hsome
  rw [sortBody, hstandalone]
  simp only [hs, hfield, hvalue, Bool.and_self, if_true]
  rfl

/-! ## Signed chunks -/

/-- Whether the newest token neither waits for a value nor takes a word in. -/
structure Ready (s : Scan) : Prop where
  ne_word : s.lastKind ≠ .word
  ne_sign : ∀ sign, s.lastKind ≠ .sign sign

theorem takeSign_of_ne (s : Scan) {c : Char} (cs : Text) (hc : c ≠ '+' ∧ c ≠ '-') :
    s.takeSign (c :: cs) = (s, c :: cs) := by
  unfold takeSign
  split <;> simp_all

theorem takeSign_lead {s : Scan} (hs : s.Ready) (m : Modifiers) {c : Char} (cs : Text)
    (hc : c ≠ '+' ∧ c ≠ '-') :
    s.takeSign (m.lead ++ c :: cs) = (s.push m.leadTokens, c :: cs) := by
  cases hm : m.sign with
  | none =>
    simp only [Modifiers.lead, Modifiers.leadTokens, hm, List.nil_append, push_nil]
    exact takeSign_of_ne s cs hc
  | some sign =>
    have hpush := addOnce_eq_push (hs.ne_sign sign)
    cases sign <;>
      simp [Modifiers.lead, Modifiers.leadTokens, hm, takeSign, Sign.mark, hpush]

theorem ne_word_push_leadTokens {s : Scan} (hs : s.Ready) (m : Modifiers) :
    (s.push m.leadTokens).lastKind ≠ .word := by
  cases hm : m.sign with
  | none => simpa [Modifiers.leadTokens, hm] using hs.ne_word
  | some sign => simp [Modifiers.leadTokens, hm]

/-- A signed chunk adds its sign and sorts its body. -/
theorem chunk_lead {s : Scan} (hs : s.Ready) (m : Modifiers) {c : Char} {cs : Text}
    (hc : c ≠ '+' ∧ c ≠ '-') (hnumber : number? (m.lead ++ c :: cs) = none)
    (hsymbol : Symbol.ofChunk? (m.lead ++ c :: cs) = none) :
    s.chunk (m.lead ++ c :: cs) = (s.push m.leadTokens).sortBody (c :: cs) := by
  rw [chunk_eq_sortBody (by simp) hnumber hsymbol, takeSign_lead hs m cs hc]

/-- A chunk of a sign or of a mark that no keyword holds is no symbol. -/
theorem ofChunk?_lead (m : Modifiers) {c d : Char} {cs : Text} (hd : d ∈ cs ∨ d = c)
    (hne : cs ≠ []) (hupper : isKeywordChar d.toUpper = false) :
    Symbol.ofChunk? (m.lead ++ c :: cs) = none := by
  have hpos := List.length_pos_iff.mpr hne
  refine ofChunk?_eq_none (c := d) ?_ ?_ hupper
  · simp only [List.length_append, List.length_cons]
    omega
  · simp only [List.mem_append, List.mem_cons]
    exact .inr hd.symm

/-- A signed field is no number and no symbol. -/
theorem chunk_field {s : Scan} (hs : s.Ready) (m : Modifiers) {field : Text}
    (h : Text.isPlainField field = true) :
    s.chunk (m.lead ++ (field ++ [':'])) = (s.push m.leadTokens).sortBody (field ++ [':']) := by
  obtain ⟨c, name, rfl, hc, -⟩ := of_isPlainField h
  have hstart : c.isDigit = false ∧ c ≠ '.' ∧ c ≠ '+' ∧ c ≠ '-' := by
    have hall := of_ascii
      (p := fun c => !isFieldStart c || (!c.isDigit && c != '.' && c != '+' && c != '-'))
      (by decide) (lt_of_isNameRest (isNameRest_of_isFieldStart hc))
    simpa [hc, and_assoc] using hall
  have hcolon : ':' ∈ name ++ [':'] := by simp
  exact chunk_lead hs m hstart.2.2 (number?_lead m _ hstart)
    (ofChunk?_lead m (.inl hcolon) (by simp) (by decide))

theorem number?_date (m : Modifiers) {date : Text} (h : isPlainDate date = true) :
    number? (m.lead ++ date) = none := by
  obtain ⟨hne, hhead, -, -⟩ := of_isPlainDate h
  unfold isPlainDate at h
  split at h
  · rename_i a b c d e f g i
    simp only [List.all_cons, List.all_nil, Bool.and_eq_true] at h
    have hyear : ∀ x ∈ [a, b, c, d], x.isDigit = true := by simp [h]
    have hspan := Decimal.span_digits hyear ['-', e, f, '-', g, i] (by simp)
    -- the literal would end at the hyphen after the year
    apply number?_eq_none
    apply read?_lead m (Decimal.ne_sign_of_isDigit (hhead a rfl))
    unfold Decimal.readUnsigned?
    rw [show a :: b :: c :: d :: ['-', e, f, '-', g, i] =
      [a, b, c, d] ++ ['-', e, f, '-', g, i] from rfl, hspan]
    simp [Decimal.takeFraction, Decimal.readExponent?]
  · simp at h

theorem startsNoNumber_of_isAlpha {c : Char} (h : c.isAlpha = true) :
    c.isDigit = false ∧ c ≠ '.' ∧ c ≠ '+' ∧ c ≠ '-' := by
  have hall := of_isNameChar
    (p := fun c => !c.isAlpha || (!c.isDigit && c != '.' && c != '+' && c != '-')) (by decide)
    (isNameChar_of_isAlpha h)
  simpa [h, and_assoc] using hall

theorem ofChar?_letter {c : Char} (h : c.isAlpha = true) : Symbol.ofChar? c = some (.letter c) := by
  unfold Symbol.ofChar?
  split <;> simp_all

/-- Words of more than one letter, and words with a sign or a wildcard, are no symbols. -/
theorem ofChunk?_word (m : Modifiers) {value : Text} (hvalue : Text.isPlainWord value = true)
    (wildcard : Bool) (h : m.sign.isSome = true ∨ wildcard = true ∨ 2 ≤ value.length) :
    Symbol.ofChunk? (m.lead ++ (Leaf.word value wildcard).render) = none := by
  obtain ⟨hne, halpha, hkeyword⟩ := of_isPlainWord hvalue
  have hpos := List.length_pos_iff.mpr hne
  cases hm : m.sign with
  | some sign =>
    have hlen : 2 ≤ (m.lead ++ (Leaf.word value wildcard).render).length := by
      cases wildcard
      · simp [Modifiers.lead, hm, Leaf.render]
        omega
      · simp [Modifiers.lead, hm, Leaf.render]
    have hmark : isKeywordChar sign.mark.toUpper = false := by cases sign <;> decide
    exact ofChunk?_eq_none hlen (by simp [Modifiers.lead, hm]) hmark
  | none =>
    cases wildcard with
    | true =>
      have hlen : 2 ≤ (m.lead ++ (Leaf.word value true).render).length := by
        simp [Leaf.render]
        omega
      exact ofChunk?_eq_none (c := '*') hlen (by simp [Leaf.render]) (by decide)
    | false =>
      have hlen : 2 ≤ value.length := by simpa [hm] using h
      -- the keywords of letters are excluded, and those of marks start with no letter
      have hmark : ∀ c ∈ value.head?, c.toUpper ≠ '|' ∧ c.toUpper ≠ '&' ∧ c.toUpper ≠ '.' := by
        intro c hc
        have hall := of_isNameChar
          (p := fun c => c.toUpper != '|' && c.toUpper != '&' && c.toUpper != '.') (by decide)
          (isNameChar_of_isAlpha (halpha c (List.mem_of_mem_head? hc)))
        simpa [and_assoc] using hall
      have hlead : m.lead = [] := by simp [Modifiers.lead, hm]
      have hchunk : Symbol.ofChunk? value = Symbol.keyword? value := by
        unfold Symbol.ofChunk?
        split
        · simp at hlen
        · rfl
      rw [hlead, List.nil_append]
      show Symbol.ofChunk? value = none
      rw [hchunk, keyword?_eq_none_of_isKeywordText hkeyword hmark]

theorem chunk_word {s : Scan} (hs : s.Ready) (m : Modifiers) {value : Text}
    (hvalue : Text.isPlainWord value = true) (wildcard : Bool) :
    s.chunk (m.lead ++ (Leaf.word value wildcard).render) =
      s.push (m.leadTokens ++ (Leaf.word value wildcard).tokens) := by
  obtain ⟨hne, halpha, -⟩ := of_isPlainWord hvalue
  obtain ⟨c, cs, rfl⟩ := List.exists_cons_of_ne_nil hne
  have hc := startsNoNumber_of_isAlpha (halpha c (by simp))
  obtain ⟨ds, hrender⟩ : ∃ ds, (Leaf.word (c :: cs) wildcard).render = c :: ds := by
    cases wildcard <;> exact ⟨_, rfl⟩
  have hnumber := number?_lead m ds hc
  by_cases h : m.sign.isSome = true ∨ wildcard = true ∨ 2 ≤ (c :: cs).length
  · have hsymbol := ofChunk?_word m hvalue wildcard h
    rw [hrender] at hsymbol
    rw [hrender, chunk_lead hs m hc.2.2 hnumber hsymbol, ← hrender,
      sortBody_word (ne_word_push_leadTokens hs m) hvalue, ← push_append]
  · -- a single letter is a symbol, which stands for itself
    simp only [not_or, Bool.not_eq_true, Option.isSome_eq_false_iff, Option.isNone_iff_eq_none] at h
    obtain ⟨hm, rfl, hlen⟩ := h
    obtain rfl : cs = [] := by simpa using hlen
    have hlead : m.lead = [] := by simp [Modifiers.lead, hm]
    have hsymbol : Symbol.ofChunk? [c] = some (.letter c) := ofChar?_letter (halpha c (by simp))
    obtain rfl : ds = [] := by simpa [Leaf.render] using hrender.symm
    rw [hrender, hlead, List.nil_append] at *
    rw [chunk, if_neg (List.cons_ne_nil c []), hnumber, hsymbol]
    simp [symbol, addWord_eq_push hs.ne_word, Leaf.tokens, Modifiers.leadTokens, hm]

theorem chunk_phrase {s : Scan} (hs : s.Ready) (m : Modifiers) {value : Text}
    (hquote : ∀ c ∈ value, c ≠ '"') (hspace : Text.IsTrim Text.isSpace value) :
    s.chunk (m.lead ++ '"' :: (value ++ ['"'])) =
      s.push (m.leadTokens ++ [.ofText (.text .phrase) value]) := by
  rw [chunk_lead hs m (by decide) (number?_lead m _ (by decide))
    (ofChunk?_lead m (.inr rfl) (by simp) (by decide)), sortBody_phrase _ hquote hspace,
    ← push_append]

/-- Whatever else a chunk that writes a finite number might be, it is the number. -/
theorem chunk_of_number? (s : Scan) {value : Text} {n : Number} (h : number? value = some n) :
    s.chunk value = s.push [.ofNumber n] := by
  have hne : value ≠ [] := by
    rintro rfl
    simp [number?_eq_none (s := []) rfl] at h
  rw [chunk, if_neg hne, h]
  rfl

theorem number?_of_ofLiteral? {value : Text} {n : Number} (h : Number.ofLiteral? value = some n)
    (hfinite : n.isFinite = true) : number? value = some n := by
  simp [number?, h, Option.filter, hfinite]

theorem chunk_display (s : Scan) {n : Number} (h : n.isFinite = true) :
    s.chunk n.display = s.push [.ofNumber n] :=
  s.chunk_of_number? (number?_of_ofLiteral? (Number.ofLiteral?_display h) h)

/-- The characters of numbers may all stand in names. -/
theorem isNameRest_of_isDisplayChar {c : Char} (h : Number.isDisplayChar c = true) :
    isNameRest c = true := by
  simp only [Number.isDisplayChar, Bool.or_eq_true] at h
  rcases h with (h | h) | h
  · simp [isNameRest, isNameChar_of_isDigit h]
  · simp [isNameRest, h]
  · simp [isNameRest, h]

/-- **A plain leaf adds its sign and its tokens.** A number has no sign of its own. -/
theorem chunk_leaf {s : Scan} (hs : s.Ready) {l : Leaf} (hl : l.isPlain = true) {m : Modifiers}
    (hm : l.number?.isNone = true ∨ m.sign.isNone = true) :
    s.chunk (m.lead ++ l.render) = s.push (m.leadTokens ++ l.tokens) := by
  cases l with
  | word value wildcard => exact chunk_word hs m hl wildcard
  | number value =>
    have hnone : m.sign = none := by simpa [Leaf.number?] using hm
    simp only [Modifiers.lead, Modifiers.leadTokens, hnone, List.nil_append]
    exact chunk_display s hl
  | text form value =>
    cases form with
    | phrase =>
      obtain ⟨-, hquote, hspace⟩ := of_isPlainPhrase hl
      exact chunk_phrase hs m hquote hspace
    | hashtag =>
      obtain ⟨hne, -⟩ := of_isPlainName hl
      show s.chunk (m.lead ++ '#' :: value) = _
      rw [chunk_lead hs m (by decide) (number?_lead m _ (by decide))
        (ofChunk?_lead m (.inr rfl) hne (by decide)), sortBody_hashtag _ hl, ← push_append]
      rfl
    | mention =>
      obtain ⟨hne, -⟩ := of_isPlainName hl
      show s.chunk (m.lead ++ '@' :: value) = _
      rw [chunk_lead hs m (by decide) (number?_lead m _ (by decide))
        (ofChunk?_lead m (.inr rfl) hne (by decide)), sortBody_mention _ hl, ← push_append]
      rfl
    | date =>
      have hdate : isPlainDate value = true := hl
      obtain ⟨hne, hhead, -, -⟩ := of_isPlainDate hdate
      have hnumber := number?_date m hdate
      obtain ⟨c, cs, rfl⟩ := List.exists_cons_of_ne_nil hne
      have hhyphen : '-' ∈ cs := hyphen_mem_of_isPlainDate hdate
      show s.chunk (m.lead ++ c :: cs) = _
      rw [chunk_lead hs m (Decimal.ne_sign_of_isDigit (hhead c rfl)) hnumber
        (ofChunk?_lead m (.inl hhyphen) (List.ne_nil_of_mem hhyphen) (by decide)),
        sortBody_date _ hdate, ← push_append]
      rfl
    | url => simp [Leaf.isPlain] at hl
    | emoticon => simp [Leaf.isPlain] at hl
    | emoji => simp [Leaf.isPlain] at hl

end SearchLang.Scan
