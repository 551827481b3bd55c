import SearchLang.Proofs.Scan.ChunkSpaces
import SearchLang.Proofs.Scan.Join

/-!
# Spaces in tokens

Runs of blanks are collapsed and trimmed off before a chunk is read, but other
spaces are not, and neither is the space in the address of a link. So a token that
is no phrase holds a space when its chunk is a space beyond the blanks or a link that
keeps its space, and at no other time (`any_holdsSpace_scan`).
-/

namespace SearchLang

open Pattern Chunk

/-- Whether a chunk that is no phrase keeps a space: it is one beyond the blanks, or it was cut off as
a link. -/
def Chunk.keepsSpace : Text → Bool
  | [c] => Text.isSpace c && !Text.isBlank c
  | piece => isUrl piece &&
      (bodyText (dropSign (Text.trim Text.isPadding piece))).any Text.isSpace

namespace Text

variable {p : Char → Bool} {s t : Text} {c : Char}

/-! ## Trimming and collapsing -/

theorem trimRight_append_of_ne_nil (h : trimRight p t ≠ []) :
    trimRight p (s ++ t) = s ++ trimRight p t := by
  induction s with
  | nil => rfl
  | cons c cs ih =>
    have hne : cs ++ trimRight p t ≠ [] := List.append_ne_nil_of_right_ne_nil cs h
    rw [List.cons_append, trimRight, ih]
    cases hrest : cs ++ trimRight p t with
    | nil => exact absurd hrest hne
    | cons d ds => rw [List.cons_append, hrest]

theorem trimRight_append_of_eq_nil (h : trimRight p t = []) :
    trimRight p (s ++ t) = trimRight p s := by
  induction s with
  | nil => exact h
  | cons c cs ih => rw [List.cons_append, trimRight, ih, trimRight]

/-- A collapsed text has no blanks but spaces. -/
theorem eq_space_of_mem_collapseBlanks (hc : c ∈ collapseBlanks s)
    (hblank : isBlank c = true) : c = ' ' := by
  fun_induction collapseBlanks s with
  | case1 => simp at hc
  | case2 => simpa using hc
  | case3 d hd e rest he ih => exact ih hc
  | case4 d hd e rest he ih =>
    rcases List.mem_cons.mp hc with hc | hc
    · exact hc
    · exact ih hc
  | case5 d rest hd ih =>
    rcases List.mem_cons.mp hc with rfl | hc
    · exact absurd hblank hd
    · exact ih hc

theorem filter_collapseBlanks (s : Text) :
    (collapseBlanks s).filter (fun c => !isBlank c) = s.filter fun c => !isBlank c := by
  fun_induction collapseBlanks s with
  | case1 => rfl
  | case2 c hc => simp [hc]; decide
  | case3 c hc d rest hd ih => simp [hc, ih]
  | case4 c hc d rest hd ih =>
    have hspace : isBlank ' ' = true := rfl
    simp [hc, hspace, ih]
  | case5 c rest hc ih => simp [hc, ih]

end Text

/-! ## Chunks that keep spaces -/

theorem Chunk.keepsSpace_of_length {piece : Text} (h : 2 ≤ piece.length) :
    keepsSpace piece = (isUrl piece &&
      (bodyText (dropSign (Text.trim Text.isPadding piece))).any Text.isSpace) := by
  unfold keepsSpace
  split
  · simp at h
  · rfl

theorem Chunk.infix_bodyText (body : Text) : bodyText body <:+: body := by
  unfold bodyText
  split
  · exact Text.infix_trim _ _
  · refine (Text.infix_trim _ _).trans ?_
    cases hdots : Text.splitAtDots body with
    | none => exact List.infix_refl body
    | some parts => exact ⟨[], '.' :: '.' :: parts.2, (Text.append_of_splitAtDots hdots).symm⟩

theorem Chunk.keepsSpace_of_solid {piece : Text} (h : ∀ c ∈ piece, Text.isSpace c = false) :
    keepsSpace piece = false := by
  unfold keepsSpace
  split
  · rename_i c
    simp [h c (by simp)]
  · have hbody : bodyText (dropSign (Text.trim Text.isPadding piece)) <:+: piece :=
      (infix_bodyText _).trans ((List.drop_suffix _ _).isInfix.trans (Text.infix_trim _ _))
    rw [Text.any_isSpace_eq_false h hbody, Bool.and_false]

theorem Chunk.keepsSpace_phrase (m : Modifiers) (inner : Text) :
    keepsSpace (m.lead ++ '"' :: (inner ++ ['"'])) = false := by
  have hlength : 2 ≤ (m.lead ++ '"' :: (inner ++ ['"'])).length := by
    simp only [List.length_append, List.length_cons]
    omega
  rw [keepsSpace_of_length hlength, isUrl, urlLength?_quote]
  rfl

/-- Trimming takes the space off the end of a link, or it leaves the link up to its space and what
comes right behind it. -/
theorem Chunk.trim_link {plus scheme run : Text} {c d : Char} (h : IsLink plus scheme c d run) :
    (∃ run', run' <+: run ∧ Text.trim Text.isPadding (plus ++ linkOf scheme c d run) =
        plus ++ linkOf scheme c d run') ∨
      ∀ e ∈ Text.trim Text.isPadding (plus ++ linkOf scheme c d run), Text.isSpace e = false := by
  have hleft : Text.trimLeft Text.isPadding (plus ++ linkOf scheme c d run) =
      (plus ++ scheme ++ [':', '/', '/', c]) ++ (d :: run) := by
    have hhead := Scan.isPadding_head_linkOf h
    obtain ⟨e, es, heq⟩ := List.exists_cons_of_ne_nil
      (List.ne_nil_of_mem (Scan.colon_mem_linkOf plus scheme c d run))
    rw [← append_linkOf]
    rw [heq] at hhead ⊢
    exact List.dropWhile_cons_of_neg (by simp [hhead e rfl])
  rw [Text.trim, hleft]
  cases htail : Text.trimRight Text.isPadding (d :: run) with
  | nil =>
    right
    rw [Text.trimRight_append_of_eq_nil htail]
    exact fun e he => h.isSpace_front e ((Text.prefix_trimRight _ _).subset he)
  | cons e run' =>
    left
    have hprefix := Text.prefix_trimRight Text.isPadding (d :: run)
    rw [htail] at hprefix
    obtain ⟨rfl, hrun⟩ := List.cons_prefix_cons.mp hprefix
    refine ⟨run', hrun, ?_⟩
    rw [Text.trimRight_append_of_ne_nil (by simp [htail]), htail, append_linkOf]

namespace Scan

variable (s : Scan)

/-! ## Steps and runs -/

theorem trim_space {c : Char} (hspace : Text.isSpace c = true) (hblank : Text.isBlank c = false) :
    Text.trim Text.isPadding [c] = [c] := by
  have htrim := Text.of_isSpace (p := fun c => Text.isBlank c ||
    Text.trim Text.isPadding [c] == [c]) (by decide) hspace
  simpa only [hblank, Bool.false_or, beq_iff_eq] using htrim

/-- A chunk brings a space just when it keeps one. -/
theorem holdsSpace_step {piece : Text} (hpiece : Spacing piece)
    (hblank : ∀ c ∈ piece, Text.isBlank c = true → c = ' ') :
    (s.step piece).holdsSpace = (keepsSpace piece || s.holdsSpace) := by
  rw [step, holdsSpace_settle]
  cases hpiece with
  | solid h =>
    rw [keepsSpace_of_solid h, Bool.false_or]
    exact holdsSpace_chunk_of_solid s fun c hc => h c ((Text.infix_trim _ _).subset hc)
  | @space c hspace =>
    cases hc : Text.isBlank c with
    | true =>
      obtain rfl := hblank c (by simp) hc
      have htrim : Text.trim Text.isPadding [' '] = [] := rfl
      rw [htrim, chunk, if_pos rfl]
      exact holdsSpace_addOnce s .whitespace
    | false =>
      rw [trim_space hspace hc, chunk_space s hspace hc, holdsSpace_addWord]
      simp [keepsSpace, hspace, hc]
  | @phrase m inner hne hquote =>
    have htrim : Text.IsTrim Text.isPadding (m.lead ++ '"' :: (inner ++ ['"'])) := by
      rw [← List.cons_append, ← List.append_assoc]
      refine ⟨by simp, ?_, by rw [List.getLast?_concat]; simp; decide⟩
      rcases lead_cases m with h | h | h <;> rw [h] <;> simp <;> decide
    rw [htrim.trim_eq, holdsSpace_chunk_phrase s m hne hquote, keepsSpace_phrase, Bool.false_or]
  | @link plus scheme run c d h hspace =>
    have hlength : 2 ≤ (plus ++ linkOf scheme c d run).length := by
      simp only [linkOf, List.length_append, List.length_cons]
      omega
    rw [keepsSpace_of_length hlength, h.isUrl, Bool.true_and]
    rcases trim_link h with ⟨run', hrun, htrim⟩ | hsolid
    · have h' : IsLink plus scheme c d run' :=
        ⟨h.plus, h.ne_nil, h.scheme, h.address.1, h.address.2.1, fun e he =>
          h.address.2.2 e (hrun.subset he)⟩
      rw [htrim, holdsSpace_chunk_link s h' hspace]
    · have hbody := (infix_bodyText (dropSign (Text.trim Text.isPadding
        (plus ++ linkOf scheme c d run)))).trans (List.drop_suffix _ _).isInfix
      rw [holdsSpace_chunk_of_solid s hsolid, Text.any_isSpace_eq_false hsolid hbody,
        Bool.false_or]

theorem holdsSpace_run {pieces : List Text}
    (h : ∀ piece ∈ pieces, Spacing piece ∧ ∀ c ∈ piece, Text.isBlank c = true → c = ' ') :
    (s.run pieces).holdsSpace = (pieces.any keepsSpace || s.holdsSpace) := by
  induction pieces generalizing s with
  | nil => rfl
  | cons piece rest ih =>
    obtain ⟨hpiece, hblank⟩ := h piece (by simp)
    show ((s.step piece).run rest).holdsSpace = _
    rw [ih (s.step piece) fun p hp => h p (List.mem_cons_of_mem _ hp), List.any_cons,
      holdsSpace_step s hpiece hblank, Bool.or_left_comm, Bool.or_assoc]

theorem holdsSpace_close : s.close.holdsSpace = s.holdsSpace := by
  have hend : ({ s with inSubquery := false }.add (.mark .subqueryEnd)).holdsSpace =
      s.holdsSpace := holdsSpace_add _ _
  unfold close
  cases s.inSubquery <;> simp only [Bool.false_eq_true, if_false, if_true]
  · split
    · exact holdsSpace_closeFilter s
    · rfl
  · split
    · rw [holdsSpace_closeFilter, hend]
    · exact hend

/-- Names and dates have no spaces. -/
theorem isSpace_of_taggedForm? {value : Text} {form : TextForm} (h : taggedForm? value = some form) :
    ∀ c ∈ Text.trim isTrimmed value, Text.isSpace c = false := by
  have hadmits := admits_of_taggedForm? h
  have hname {c : Char} (hc : isNameChar c = true) : isNameRest c = true := by
    simp [isNameRest, hc]
  intro c hc
  apply isSpace_of_isNameRest
  cases form with
  | hashtag => exact hname ((of_isPlainName hadmits).2 c hc)
  | mention =>
    simp only [TextForm.admits, Text.isMentionName, Bool.and_eq_true] at hadmits
    exact List.all_eq_true.mp hadmits.1 c hc
  | date =>
    rcases (of_isPlainDate hadmits).2.2.2 c hc with hdigit | rfl
    · exact hname (isNameChar_of_isDigit hdigit)
    · rfl
  | phrase | url | emoticon | emoji =>
    unfold taggedForm? at h
    simp only at h
    split_ifs at h <;> simp at h

/-- Only words and links hold spaces: what stands for itself, fields and names have none. -/
theorem tokenLaw_holdsSpace : TokenLaw (fun _ => True) fun t =>
    t.holdsSpace = true → t.kind = .word ∨ t.kind = .text .url where
  part := fun _ _ => trivial
  space := by simp
  mark := by simp
  sign := by simp
  number := by simp
  ignored := by simp
  letter := fun _ _ _ => .inl rfl
  word := fun _ _ _ _ => .inl rfl
  glue := fun _ _ _ _ => .inl rfl
  field := by
    intro s value _ hfield h
    have hname := Text.any_isSpace_eq_false (isSpace_of_isField hfield)
      (Text.prefix_trimRight (· == ':') _).isInfix
    simp [holdsSpace_ofText_of_solid .filterStart hname] at h
  phrase := by simp
  standalone := by
    intro value form _ hform h
    cases form with
    | url => exact .inr rfl
    | _ =>
      rw [holdsSpace_ofText (by simp_all [standaloneForm?]), List.any_eq_true] at h
      obtain ⟨c, hc, hspace⟩ := h
      have hmem := (Text.infix_trim isTrimmed value).subset hc
      simp [standaloneForm?, isEmoticon_eq_false_of_isSpace hmem hspace,
        isEmoji_eq_false_of_isSpace hmem hspace] at hform
  tagged := by
    intro value form _ hform h
    have hname := Text.any_isSpace_eq_false (isSpace_of_taggedForm? hform) (List.infix_refl _)
    simp [holdsSpace_ofText_of_solid (.text form) hname] at h

/-! ## Queries of spaces -/

/-- A scan that has met nothing but spaces: those beyond the blanks are words. -/
structure OnlySpaces (s : Scan) (words : Text) : Prop where
  kept : s.kept = words.map fun c => .ofText .word [c]
  filter : s.inFilter = false
  subquery : s.inSubquery = false
  tokens : ∀ t ∈ s.tokens, t = .mark .whitespace ∨
    ∃ c, Text.isSpace c = true ∧ t = .ofText .word [c]

theorem onlySpaces_empty : ({} : Scan).OnlySpaces [] :=
  ⟨rfl, rfl, rfl, by simp⟩

variable {s} {words : Text}

/-- No word of a space ends in a colon, so that none takes in the next. -/
theorem OnlySpaces.addWord_eq_push (hs : s.OnlySpaces words) (value : Text) :
    s.addWord value = s.push [.ofText .word value] := by
  rcases s.addWord_cases with hword | ⟨before, rest, htokens, hlast, -⟩
  · exact hword value
  · rcases hs.tokens (.ofText .word before) (by simp [htokens]) with hbefore | ⟨c, hspace, hbefore⟩
    · simp [Token.mark, Token.ofText] at hbefore
    · obtain rfl : before = [c] := by simpa [Token.ofText] using hbefore
      obtain rfl : c = ':' := by simpa using hlast
      exact absurd hspace (by decide)

theorem OnlySpaces.step (hs : s.OnlySpaces words) {c : Char} (hspace : Text.isSpace c = true)
    (hblank : Text.isBlank c = true → c = ' ') :
    (s.step [c]).OnlySpaces (words ++ [c].filter fun c => !Text.isBlank c) := by
  have hsettle {s' : Scan} (hfilter : s'.inFilter = false) : s'.settle = s' :=
    if_neg fun h => by simp [hfilter] at h
  cases hc : Text.isBlank c with
  | true =>
    obtain rfl := hblank hc
    rw [step_space, hsettle (by simpa using hs.filter)]
    refine ⟨?_, by simpa using hs.filter, by simpa using hs.subquery, fun t ht => ?_⟩
    · rw [kept_addOnce_whitespace, hs.kept]
      simp [hc]
    · unfold addOnce at ht
      split at ht
      · exact hs.tokens t ht
      · rcases List.mem_cons.mp ht with rfl | ht
        · exact .inl rfl
        · exact hs.tokens t ht
  | false =>
    have hchunk : s.chunk (Text.trim Text.isPadding [c]) = s.push [.ofText .word [c]] := by
      rw [trim_space hspace hc, chunk_space s hspace hc, hs.addWord_eq_push]
    rw [Scan.step, hchunk, hsettle (by simpa using hs.filter)]
    refine ⟨?_, hs.filter, hs.subquery, fun t ht => ?_⟩
    · rw [kept_push, hs.kept]
      simp [hc, isKept, Token.ofText]
    · rcases List.mem_cons.mp ht with rfl | ht
      · exact .inr ⟨c, hspace, rfl⟩
      · exact hs.tokens t ht

theorem OnlySpaces.run (hs : s.OnlySpaces words) {text : Text}
    (h : ∀ c ∈ text, Text.isSpace c = true ∧ (Text.isBlank c = true → c = ' ')) :
    (s.run (text.map fun c => [c])).OnlySpaces
      (words ++ text.filter fun c => !Text.isBlank c) := by
  induction text generalizing s words with
  | nil => simpa [Scan.run] using hs
  | cons c cs ih =>
    obtain ⟨hspace, hblank⟩ := h c (by simp)
    have hrest := ih (hs.step hspace hblank) fun d hd => h d (List.mem_cons_of_mem c hd)
    rwa [List.append_assoc, ← List.filter_append] at hrest

end Scan

/-- A query of spaces has a word for each that is no blank, and no other token. -/
theorem scan_of_spaces {q : Text} (h : ∀ c ∈ q, Text.isSpace c = true) :
    scan q = (q.filter fun c => !Text.isBlank c).map fun c => .ofText .word [c] := by
  have hspaces : ∀ c ∈ Text.collapseBlanks (' ' :: q), Text.isSpace c = true := by
    intro c hc
    rcases Text.mem_collapseBlanks hc with hc | rfl
    · rcases List.mem_cons.mp hc with rfl | hc
      · rfl
      · exact h c hc
    · rfl
  have hrun := Scan.onlySpaces_empty.run fun c hc =>
    ⟨hspaces c hc, fun hblank => Text.eq_space_of_mem_collapseBlanks hc hblank⟩
  rw [← Chunk.split_of_spaces true hspaces, Text.filter_collapseBlanks] at hrun
  have hclose := Scan.close_of_not_open hrun.filter hrun.subquery
  show ((({} : Scan).run (Chunk.ofQuery q)).close).kept = _
  rw [Chunk.ofQuery, hclose, hrun.kept]
  rfl

/-! ## All queries -/

theorem Token.isKept_of_holdsSpace {t : Token} (h : t.holdsSpace = true) : Scan.isKept t = true := by
  simp only [holdsSpace, Bool.and_eq_true] at h
  exact h.1.1

/-- **The spaces of a query are in its phrases and in the chunks that keep one**: the spaces beyond
the blanks, and the links that have a space in their address. -/
theorem any_holdsSpace_scan (q : Text) :
    (scan q).any Token.holdsSpace = (Chunk.ofQuery q).any Chunk.keepsSpace := by
  have hkept : ∀ t : Token, (Scan.isKept t && t.holdsSpace) = t.holdsSpace := by
    intro t
    cases h : t.holdsSpace with
    | false => rw [Bool.and_false]
    | true => rw [Token.isKept_of_holdsSpace h, Bool.and_true]
  have hpieces : ∀ piece ∈ Chunk.ofQuery q, Chunk.Spacing piece ∧
      ∀ c ∈ piece, Text.isBlank c = true → c = ' ' := fun piece hpiece =>
    ⟨Chunk.spacing_of_mem_split hpiece, fun c hc =>
      Text.eq_space_of_mem_collapseBlanks ((Chunk.infix_of_mem_ofQuery hpiece).subset hc)⟩
  have hclose : (Scan.ofQuery q).close.holdsSpace = (Chunk.ofQuery q).any Chunk.keepsSpace := by
    rw [Scan.holdsSpace_close, Scan.ofQuery, Scan.holdsSpace_run _ hpieces]
    exact Bool.or_false _
  rw [scan, Scan.result, List.any_filter, List.any_reverse, ← hclose, Scan.holdsSpace]
  simp only [hkept]

/-- A chunk keeps no space if the query has neither links nor spaces beyond the blanks. -/
theorem Chunk.keepsSpace_eq_false {q piece : Text} (hlink : ¬ linkMark <:+: q)
    (hblank : ∀ c ∈ q, Text.isSpace c = true → Text.isBlank c = true)
    (hpiece : piece ∈ Chunk.ofQuery q) : keepsSpace piece = false := by
  have hpart := infix_of_mem_ofQuery hpiece
  unfold keepsSpace
  split
  · rename_i c
    have hc : c ∈ q ∨ c = ' ' := by
      rcases Text.mem_collapseBlanks (hpart.subset (List.mem_singleton_self c)) with hc | hc
      · exact (List.mem_cons.mp hc).symm
      · exact .inr hc
    have hall : Text.isSpace c = true → Text.isBlank c = true := by
      rcases hc with hc | rfl
      · exact hblank c hc
      · exact fun _ => rfl
    cases hspace : Text.isSpace c with
    | false => rfl
    | true => simp [hall hspace]
  · have hno : ¬ linkMark <:+: piece := fun h =>
      not_linkMark_collapseBlanks hlink (List.infix_refl _) (h.trans hpart)
    rw [isUrl, urlLength?_eq_none_of_linkMark hno]
    rfl

/-- **Spaces get into tokens that are no phrases in two ways.** A space beyond the blanks is a word,
and a link may keep the space in its address. What has neither has spaces in its phrases only; a query
of spaces has no tokens but the words for those beyond the blanks. -/
theorem holdsSpace_scan (q : Text) :
    ((∃ t ∈ scan q, t.holdsSpace = true) ↔
      ∃ piece ∈ Chunk.ofQuery q, Chunk.keepsSpace piece = true) ∧
    (∀ t ∈ scan q, t.holdsSpace = true → t.kind = .word ∨ t.kind = .text .url) ∧
    (¬ "://".toList <:+: q → (∀ c ∈ q, Text.isSpace c = true → Text.isBlank c = true) →
      ∀ t ∈ scan q, t.holdsSpace = false) ∧
    ((∀ c ∈ q, Text.isSpace c = true) →
      scan q = (q.filter fun c => !Text.isBlank c).map fun c => .ofText .word [c]) := by
  have hany := any_holdsSpace_scan q
  refine ⟨?_, fun t => Scan.tokenLaw_holdsSpace.of_mem_scan fun _ _ => trivial, ?_, scan_of_spaces⟩
  · rw [← List.any_eq_true, hany, List.any_eq_true]
  · intro hlink hblank
    have hpieces : (Chunk.ofQuery q).any Chunk.keepsSpace = false := by
      rw [List.any_eq_false]
      intro piece hpiece
      simp [Chunk.keepsSpace_eq_false hlink hblank hpiece]
    rw [hpieces, List.any_eq_false] at hany
    simpa using hany

theorem holdsSpace_scan_samples :
    (∀ t ∈ scan "a \t \"b c\"".toList, t.holdsSpace = false) ∧
      scan [' ', '\u00A0', '\t'] = [.ofText .word ['\u00A0']] := by
  have hlink : ¬ "://".toList <:+: "a \t \"b c\"".toList := fun h =>
    absurd (h.subset (List.mem_cons_self : ':' ∈ "://".toList)) (by decide)
  have hblank : "a \t \"b c\"".toList.all (fun c => !Text.isSpace c || Text.isBlank c) = true := by
    decide
  refine ⟨(holdsSpace_scan _).2.2.1 hlink fun c hc hspace => ?_, ?_⟩
  · simpa [hspace] using List.all_eq_true.mp hblank c hc
  · have hspaces : [' ', '\u00A0', '\t'].all Text.isSpace = true := by decide
    exact (holdsSpace_scan _).2.2.2 (List.all_eq_true.mp hspaces)

/-- A space is scanned as a word, and a link takes in the space in its address and what follows. -/
theorem scan_keeps_spaces :
    scan ['\u00A0'] = [.ofText .word ['\u00A0']] ∧
      scan "x://y z".toList = [.ofText (.text .url) "x://y z".toList] := by
  decide +kernel

end SearchLang
