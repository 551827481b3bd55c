import SearchLang.Proofs.Parse.TokenForm
import SearchLang.Proofs.Scan.Compound
import SearchLang.Query.Basic

/-!
# Values that look like fields

No field starts inside a filter: a name with a colon is a word there, and the
word after it goes into the same token. So the value of a filter that looks like
another field stays one word, unless what comes after its colon is a number or a
keyword: a chunk is tested for these before it can be a word.
-/

namespace SearchLang

open Pattern

/-- A letter or an underscore, then letters, digits and underscores. -/
def Text.isIdentifier : Text → Bool
  | c :: rest => isFieldStart c && rest.all isNameChar
  | [] => false

theorem Text.of_isIdentifier {name : Text} (h : name.isIdentifier = true) :
    name ≠ [] ∧ name.isPlainField = true ∧ ∀ c ∈ name, isNameChar c = true := by
  cases name with
  | nil => simp [isIdentifier] at h
  | cons c rest =>
    simp only [isIdentifier, Bool.and_eq_true, List.all_eq_true] at h
    have hc : isNameChar c = true := by
      have hstart := h.1
      simp only [isFieldStart, Bool.or_eq_true] at hstart
      rcases hstart with hc | hc
      · simp [isNameChar, Char.isAlphanum, hc]
      · simp [isNameChar, hc]
    refine ⟨List.cons_ne_nil c rest, ?_, by simpa [hc] using h.2⟩
    simp only [isPlainField, h.1, Bool.true_and, List.all_eq_true]
    exact fun d hd => by simp [isNameRest, h.2 d hd]

namespace Scan

/-! ## Parts of a value -/

section

variable {s : Scan} {body : Text} (hbody : ∀ c ∈ body, isNameChar c = true ∨ c = ':')

include hbody

theorem taggedForm?_part : taggedForm? body = none := by
  have hnot (c : Char) (hc : isNameChar c = false ∧ c ≠ ':') : c ∉ body := by
    intro hmem
    rcases hbody c hmem with h | h
    · simp [hc.1] at h
    · exact hc.2 h
  have hstripped {c : Char} (hc : c ∉ body) : c ∉ Text.trimRight isTrimmed body := fun hmem =>
    hc ((Text.prefix_trimRight isTrimmed body).subset hmem)
  simp [taggedForm?, isHashtag_eq_false (hstripped (hnot '#' (by decide))),
    isMention_eq_false (hstripped (hnot '@' (by decide))),
    isDate_eq_false (hstripped (hnot '-' (by decide)))]

/-- Nothing is trimmed off names and colons. -/
theorem addPlain_part (hne : body ≠ []) (hzero : body ≠ ['0']) :
    s.addPlain body = s.addWord body := by
  have hword : Text.IsTrim isWordTrimmed body := by
    refine .of_forall hne fun c hc => ?_
    rcases hbody c hc with h | rfl
    · exact (isTrimmed_of_isNameChar h).2
    · decide
  have hstar : body.getLast? ≠ some '*' := by
    intro h
    have hmem := hbody '*' (List.mem_of_getLast? h)
    exact absurd hmem (by decide)
  simp [addPlain, hword.trim_eq, hne, hzero, hstar]

end

/-- Where no field may start, a name with a colon is a word. -/
theorem sortBody_nested {s : Scan} (hclause : s.atClauseStart = false) (hs : s.lastKind ≠ .word)
    {name : Text} (hname : name.isIdentifier = true) :
    s.sortBody (name ++ [':']) = s.push [.ofText .word (name ++ [':'])] := by
  obtain ⟨hne, hfield, hall⟩ := Text.of_isIdentifier hname
  have hbody : ∀ c ∈ name ++ [':'], isNameChar c = true ∨ c = ':' := by
    intro c hc
    rcases List.mem_append.mp hc with hc | hc
    · exact .inl (hall c hc)
    · exact .inr (by simpa using hc)
  have hphrase : isPhrase (name ++ [':']) = false :=
    isPhrase_eq_false fun hmem => absurd (hbody _ hmem) (by decide)
  have hdots : Text.splitAtDots (name ++ [':']) = none := by
    refine splitAtDots_eq_none ?_
    rintro c hc rfl
    exact absurd (hbody _ hc) (by decide)
  have hzero : name ++ [':'] ≠ ['0'] := by
    intro h
    have hcolon : ':' ∈ name ++ [':'] := by simp
    rw [h] at hcolon
    simp at hcolon
  rw [sortBody, standaloneForm?_field hfield]
  simp only [hclause, Bool.false_and, Bool.false_eq_true, if_false, hphrase]
  split
  · simp_all
  · rw [taggedForm?_part hbody]
    simp only [addPlain_part hbody (by simp) hzero, addWord_eq_push hs]

/-- A digit writes a number. -/
theorem isSome_number?_digit {c : Char} (hc : c.isDigit = true) : (number? [c]).isSome = true := by
  have hall := of_isNameChar (p := fun c => !c.isDigit || (number? [c]).isSome) (by decide +kernel)
    (isNameChar_of_isDigit hc)
  simpa [hc] using hall

/-- A letter stands for itself: it is looked up as a symbol before it can be a word. -/
theorem chunk_letter (s : Scan) {c : Char} (hc : c.isAlphanum = true)
    (hnumber : number? [c] = none) : s.chunk [c] = s.addWord [c] := by
  have hdigit : c.isDigit = false := by
    rw [Bool.eq_false_iff]
    intro hdigit
    simpa [hnumber] using isSome_number?_digit hdigit
  have halpha : c.isAlpha = true := by simpa [Char.isAlphanum, hdigit] using hc
  have hsymbol : Symbol.ofChunk? [c] = some (.letter c) := ofChar?_letter halpha
  rw [chunk, if_neg (List.cons_ne_nil c []), hnumber, hsymbol]
  rfl

/-- A name that is neither a number nor a symbol is a word. -/
theorem chunk_name (s : Scan) {value : Text} (hne : value ≠ [])
    (hname : ∀ c ∈ value, isNameChar c = true) (hnumber : number? value = none)
    (hsymbol : Symbol.ofChunk? value = none) : s.chunk value = s.addWord value := by
  have hzero : value ≠ ['0'] := by
    rintro rfl
    simpa [hnumber] using isSome_number?_digit (c := '0') (by decide)
  have hsign : s.takeSign value = (s, value) := by
    obtain ⟨c, cs, rfl⟩ := List.exists_cons_of_ne_nil hne
    have hc := of_isNameChar (p := fun c => c != '+' && c != '-') (by decide) (hname c (by simp))
    exact takeSign_of_ne s cs (by simpa using hc)
  rw [chunk_eq_sortBody hne hnumber hsymbol, hsign,
    sortBody_of_isBare s fun c hc => isBare_of_isNameChar (hname c hc),
    taggedForm?_part fun c hc => .inl (hname c hc)]
  exact addPlain_part (fun c hc => .inl (hname c hc)) hne hzero

/-- A chunk of letters and digits is a number, a keyword or a word. -/
theorem chunk_alphanum (s : Scan) {value : Text} (hne : value ≠ [])
    (hvalue : ∀ c ∈ value, c.isAlphanum = true) :
    s.chunk value =
      match number? value, Symbol.keyword? value with
      | some n, _ => s.push [.ofNumber n]
      | none, some keyword => s.symbol keyword
      | none, none => s.addWord value := by
  cases hnumber : number? value with
  | some n =>
    rw [chunk, if_neg hne, hnumber]
    rfl
  | none =>
    obtain ⟨c, cs, rfl⟩ := List.exists_cons_of_ne_nil hne
    cases cs with
    | nil => rw [chunk_letter s (hvalue c (by simp)) hnumber, Symbol.keyword?_singleton]
    | cons d rest =>
      have hsymbol : Symbol.ofChunk? (c :: d :: rest) = Symbol.keyword? (c :: d :: rest) := rfl
      cases hkeyword : Symbol.keyword? (c :: d :: rest) with
      | some keyword => rw [chunk, if_neg hne, hnumber, hsymbol, hkeyword]
      | none =>
        have hname : ∀ a ∈ c :: d :: rest, isNameChar a = true := fun a ha => by
          simp [isNameChar, hvalue a ha]
        exact chunk_name s hne hname hnumber (hsymbol.trans hkeyword)

/-! ## The value of a filter -/

/-- A word goes into a word that ends in a colon. -/
theorem addWord_glue (s : Scan) {before : Text} (hbefore : before.getLast? = some ':')
    (value : Text) :
    (s.push [.ofText .word before]).addWord value = s.push [.ofText .word (before ++ value)] := by
  simp [addWord, push, Token.ofText, hbefore]

/-- The tokens of a name with a colon and of what comes after it, in a filter. -/
def nestedTokens (name value : Text) : List Token :=
  match number? value, Symbol.keyword? value with
  | some n, _ => [.ofText .word (name ++ [':']), .ofNumber n]
  | none, some .or => [.ofText .word (name ++ [':']), .mark .or]
  | none, some .and => [.ofText .word (name ++ [':']), .mark .and]
  | none, some _ => [.ofText .word (name ++ [':'])]
  | none, none => [.ofText .word (name ++ ':' :: value)]

theorem chunk_nested {s : Scan} (hrange : s.range = none) (name : Text) {value : Text}
    (hne : value ≠ []) (hvalue : ∀ c ∈ value, c.isAlphanum = true) :
    (s.push [.ofText .word (name ++ [':'])]).chunk value = s.push (nestedTokens name value) := by
  rw [chunk_alphanum _ hne hvalue]
  unfold nestedTokens
  cases number? value with
  | some n => exact (push_append s _ _).symm
  | none =>
    cases hkeyword : Symbol.keyword? value with
    | none =>
      have hcolon : (name ++ [':']).getLast? = some ':' := by simp
      simpa using addWord_glue s hcolon value
    | some keyword =>
      have hword : (s.push [.ofText .word (name ++ [':'])]).lastKind = .word := rfl
      rcases Symbol.keyword?_cases hkeyword with rfl | rfl | rfl
      · exact (addOnce_eq_push (by simp [hword])).trans (push_append s _ _).symm
      · exact (addOnce_eq_push (by simp [hword])).trans (push_append s _ _).symm
      · exact if_neg (by simp [hrange])

theorem nestedTokens_eq_word_iff (name : Text) {value : Text} (hne : value ≠ []) :
    nestedTokens name value = [.ofText .word (name ++ ':' :: value)] ↔
      number? value = none ∧ Symbol.keyword? value = none := by
  unfold nestedTokens
  split <;> simp_all [Token.ofText]

/-- The tokens of a value count, and the end of the filter may follow them. -/
theorem filter_isKept_nestedTokens (name value : Text) :
    (nestedTokens name value).filter isKept = nestedTokens name value := by
  unfold nestedTokens
  split <;> rfl

theorem lastKind_push_nestedTokens (s : Scan) (name value : Text) :
    (s.push (nestedTokens name value)).lastKind ≠ .whitespace ∧
      (s.push (nestedTokens name value)).lastKind ≠ .filterEnd := by
  unfold nestedTokens
  split <;> exact ⟨by simp [push, lastKind], by simp [push, lastKind]⟩

/-- After the start of a filter no other field starts. -/
theorem after_nestedName {s : Scan} (hs : s.lastKind = .filterStart) {name : Text}
    (hname : name.isIdentifier = true) {rest : Text} (hrest : rest.head? ≠ some '/') :
    s.after false (name ++ ':' :: rest) =
      (s.push [.ofText .word (name ++ [':'])]).after false rest := by
  obtain ⟨-, hnested, -⟩ := Text.of_isIdentifier hname
  have hclause : s.atClauseStart = false := by simp [atClauseStart, hs]
  have hchunk := chunk_field (.of_kind hs (by simp)) {} hnested
  simp only [Modifiers.lead, Modifiers.leadTokens, List.nil_append, push_nil] at hchunk
  rw [sortBody_nested hclause (by simp [hs]) hname] at hchunk
  have hafter := after_fieldChunk false {} hnested hrest hchunk (by simp)
  simpa [Modifiers.lead] using hafter

theorem after_nestedValue {s : Scan} (hrange : s.range = none) (name : Text) {value : Text}
    (hne : value ≠ []) (hvalue : ∀ c ∈ value, c.isAlphanum = true) :
    (s.push [.ofText .word (name ++ [':'])]).after false value = s.push (nestedTokens name value) := by
  have htame : ∀ c ∈ value, Chunk.isTame c = true := fun c hc =>
    Chunk.isTame_of_isNameRest (by simp [isNameRest, isNameChar, hvalue c hc])
  have hafter := after_tame false hne htame Chunk.stops_nil
    (chunk_nested hrange name hne hvalue) (lastKind_push_nestedTokens s name value).1
  rwa [List.append_nil, after_nil] at hafter

/-- Names and colons have no blanks, and no slash. -/
theorem of_forall_isNameRest_or {text : Text} (hne : text ≠ [])
    (h : ∀ c ∈ text, isNameRest c = true ∨ c = ':') :
    Text.IsCompact text ∧ text.head? ≠ some '/' := by
  constructor
  · refine .of_forall hne fun c hc => ?_
    rcases h c hc with hrest | rfl
    · exact isBlank_of_isTame (Chunk.isTame_of_isNameRest hrest)
    · rfl
  · intro hhead
    exact absurd (h '/' (List.mem_of_head? hhead)) (by decide)

/-- A value that looks like a field is scanned inside of the filter. -/
theorem scan_nested {field name value : Text} (hfield : field.isPlainField = true)
    (hname : name.isIdentifier = true) (hne : value ≠ [])
    (hvalue : ∀ c ∈ value, c.isAlphanum = true) :
    scan (field ++ ':' :: (name ++ ':' :: value)) =
      .ofText .filterStart field :: (nestedTokens name value ++ [.mark .filterEnd]) := by
  have hvalueRest : ∀ c ∈ value, isNameRest c = true ∨ c = ':' := fun c hc =>
    .inl (by simp [isNameRest, isNameChar, hvalue c hc])
  have hnestedRest : ∀ c ∈ name ++ ':' :: value, isNameRest c = true ∨ c = ':' := by
    intro c hc
    rcases List.mem_append.mp hc with hc | hc
    · exact .inl (by simp [isNameRest, (Text.of_isIdentifier hname).2.2 c hc])
    · exact (List.mem_cons.mp hc).elim .inr (hvalueRest c)
  have hrest : ∀ c ∈ field ++ ':' :: (name ++ ':' :: value), isNameRest c = true ∨ c = ':' := by
    intro c hc
    rcases List.mem_append.mp hc with hc | hc
    · obtain ⟨d, rest, rfl, hd, hrest⟩ := of_isPlainField hfield
      exact .inl (Chunk.isNameRest_of_mem_field hd hrest c hc)
    · exact (List.mem_cons.mp hc).elim .inr (hnestedRest c)
  have hcompact := (of_forall_isNameRest_or (by simp) hrest).1
  have hslash := (of_forall_isNameRest_or (by simp) hnestedRest).2
  have hslash' := (of_forall_isNameRest_or hne hvalueRest).2
  have hready : ({} : Scan).Ready := .of_kind (k := .whitespace) rfl (by simp)
  have hstart := after_field hready rfl true {} hfield hslash
  simp only [Modifiers.lead, Modifiers.leadTokens, List.nil_append] at hstart
  rw [scan, ofQuery_of_collapsed hcompact.space.collapseBlanks_eq, hstart,
    after_nestedName rfl hname hslash', after_nestedValue rfl name hne hvalue]
  generalize hs : { ({} : Scan) with inFilter := true }.push [.ofText .filterStart field] = s
  have hclose : (s.push (nestedTokens name value)).close =
      { s with inFilter := false }.push (nestedTokens name value ++ [Token.mark .filterEnd]) := by
    have hend := closeFilter_eq_push (lastKind_push_nestedTokens s name value).2
    subst hs
    rw [push_append]
    exact hend
  show (s.push (nestedTokens name value)).close.kept = _
  rw [hclose, kept_push, List.filter_append, filter_isKept_nestedTokens, ← hs]
  rfl

end Scan

open Scan in
/-- **The value of a filter that looks like another field stays one word just when no number and no
keyword comes after its colon**, and that word is then the whole value of the filter. -/
theorem reads_nested_iff (l : Limits) {field name value : Text}
    (hfield : field.isPlainField = true) (hname : name.isIdentifier = true)
    (hvalue : value ≠ [] ∧ ∀ c ∈ value, c.isAlphanum = true) :
    (scan (field ++ ':' :: (name ++ ':' :: value)) =
        [.ofText .filterStart field, .ofText .word (name ++ ':' :: value), .mark .filterEnd] ∧
      Query.parse l.validate (field ++ ':' :: (name ++ ':' :: value)) =
        [.filter field none (.leaf (.word (name ++ ':' :: value) false) {}) {}]) ↔
      number? value = none ∧ Symbol.keyword? value = none := by
  have hscan := scan_nested hfield hname hvalue.1 hvalue.2
  rw [← nestedTokens_eq_word_iff name hvalue.1]
  constructor
  · rintro ⟨hword, -⟩
    rw [hscan] at hword
    exact List.append_cancel_right (List.cons.inj hword).2
  · intro htokens
    rw [htokens] at hscan
    refine ⟨hscan, ?_⟩
    have hcanonical : [Node.filter field none (.leaf (.word (name ++ ':' :: value) false) {}) {}].all
        (Node.isCanonical l.validate) = true := by
      simp [Node.isCanonical, Node.isWellShaped, Node.isWithin, Node.isFilterValue,
        Node.admitsComparison, Node.tag, Leaf.tag, Node.modifiers]
    rw [Query.parse, hscan]
    exact Query.parseTokens_tokensList l (fun _ => true) hcanonical

/-- A word that starts with a number, but is none. -/
theorem reads_nested_iff_sample :
    Text.isPlainField "by.name".toList = true ∧ Text.isIdentifier "s_1".toList = true ∧
      scan "by.name:s_1:5th".toList =
        [.ofText .filterStart "by.name".toList, .ofText .word "s_1:5th".toList,
          .mark .filterEnd] ∧
      Query.parse ({} : Limits).validate "by.name:s_1:5th".toList =
        [.filter "by.name".toList none (.leaf (.word "s_1:5th".toList false) {}) {}] := by
  have hfield : Text.isPlainField "by.name".toList = true := by decide
  have hname : Text.isIdentifier "s_1".toList = true := by decide
  have hword : Scan.number? "5th".toList = none ∧ Symbol.keyword? "5th".toList = none := by
    decide +kernel
  have hvalue : ∀ c ∈ "5th".toList, c.isAlphanum = true := List.all_eq_true.mp (by decide)
  exact ⟨hfield, hname, (reads_nested_iff {} hfield hname ⟨by decide, hvalue⟩).mpr hword⟩

/-- A number after the colon is a token of its own. -/
theorem scan_nested_number :
    scan "f:s:5".toList ≠
      [.ofText .filterStart ['f'], .ofText .word "s:5".toList, .mark .filterEnd] := by
  decide +kernel

end SearchLang
