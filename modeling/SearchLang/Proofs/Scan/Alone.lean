import SearchLang.Node.Readable
import SearchLang.Proofs.Chunk.Join
import SearchLang.Proofs.Scan.Render

/-!
# Leaves that read back alone

What a chunk adds to a scan does not depend on where the chunk stands, if it is
cut off alike and is no symbol and no field. So a leaf that gives itself back
when its text is read alone does so between other pieces of a query, in each
place where it is one chunk (`Leaf.isReadableBefore`).
-/

namespace SearchLang.Scan

open Pattern Chunk

/-! ## Bodies -/

/-- The tokens that a word adds. -/
def plainTokens (value : Text) : List Token :=
  let word := Text.trim isWordTrimmed value
  if word = [] ∨ word = ['0'] then [.ofText .ignored value]
  else .ofText .word word :: if value.getLast? = some '*' then [.mark .wildcard] else []

theorem addPlain_eq_push {s : Scan} (hs : s.lastKind ≠ .word) (value : Text) :
    s.addPlain value = s.push (plainTokens value) := by
  unfold addPlain plainTokens
  simp only
  split
  · rfl
  · rw [addWord_eq_push hs]
    split
    · rw [addOnce_eq_push (by simp), ← push_append]
      rfl
    · rfl

/-- The tokens that the body of a chunk adds which is no field, no phrase and no range. -/
def bodyTokens (body : Text) : List Token :=
  match standaloneForm? body <|> taggedForm? body with
  | some form => [.ofText (.text form) (Text.trim isTrimmed body)]
  | none => plainTokens body

theorem sortBody_eq_push {s : Scan} (hs : s.lastKind ≠ .word) {body : Text}
    (hbody : standaloneForm? body = none → isField body = false ∧ Text.splitAtDots body = none)
    (hphrase : isPhrase body = false) : s.sortBody body = s.push (bodyTokens body) := by
  unfold sortBody bodyTokens
  cases hform : standaloneForm? body with
  | some form => rfl
  | none =>
    obtain ⟨hfield, hdots⟩ := hbody hform
    simp only [hfield, hphrase, hdots, Bool.and_false, Bool.false_eq_true, if_false,
      Option.orElse_eq_orElse, Option.orElse_eq_or, Option.none_or]
    cases taggedForm? body with
    | some form => rfl
    | none => exact addPlain_eq_push hs body

/-- A body adds tokens that all count, or one that does not. -/
theorem filter_isKept_bodyTokens (body : Text) :
    (bodyTokens body).filter isKept = bodyTokens body ∨ (bodyTokens body).filter isKept = [] := by
  unfold bodyTokens
  split
  · exact .inl rfl
  · simp only [plainTokens]
    by_cases hword : Text.trim isWordTrimmed body = [] ∨ Text.trim isWordTrimmed body = ['0']
    · rw [if_pos hword]
      exact .inr rfl
    · rw [if_neg hword]
      split <;> exact .inl rfl

/-! ## Chunks that are read alone -/

/-- The tokens of a query that is one chunk. -/
def readChunk (text : Text) : List Token :=
  (({} : Scan).chunk text).settle.close.kept

/-- A scan of which nothing is open ends as it is. -/
theorem kept_close_settle_push (ts : List Token) :
    (({} : Scan).push ts).settle.close.kept = ts.filter isKept := by
  have hsettle : (({} : Scan).push ts).settle = ({} : Scan).push ts := if_neg (by simp)
  rw [hsettle, kept_close_push rfl rfl]
  rfl

/-- No symbol but a letter stands for a leaf. -/
theorem isLeaf_symbol (symbol : Symbol) (h : ∀ c, symbol ≠ .letter c) :
    ∀ t ∈ (({} : Scan).symbol symbol).settle.close.kept, t.kind.isLeaf = false := by
  cases symbol with
  | letter c => exact absurd rfl (h c)
  | stray c => simp [Scan.symbol, settle, close, kept, add, isKept, Token.ofText, lastKind]
  | sign sign => cases sign <;> decide
  | modifier m => cases m <;> decide
  | rangeStart b => cases b <;> decide
  | _ => decide

theorem exists_isLeaf_tokens (l : Leaf) : ∃ t ∈ l.tokens, t.kind.isLeaf = true := by
  cases l with
  | word value wildcard => exact ⟨_, List.mem_cons_self, rfl⟩
  | number value => exact ⟨_, List.mem_cons_self, rfl⟩
  | text form value => exact ⟨_, List.mem_cons_self, rfl⟩

theorem kind_ne_filterStart_of_mem {m : Modifiers} {l : Leaf} :
    ∀ t ∈ m.leadTokens ++ l.tokens, t.kind ≠ .filterStart := by
  obtain ⟨sign, boost, fuzzy⟩ := m
  intro t ht
  rcases List.mem_append.mp ht with ht | ht
  · cases sign with
    | none => simp [Modifiers.leadTokens] at ht
    | some sign =>
      obtain rfl : t = .mark (.sign sign) := by simpa [Modifiers.leadTokens] using ht
      simp
  · cases l with
    | word value wildcard =>
      have hcases : t = .ofText .word value ∨ t = .mark .wildcard := by
        cases wildcard
        · exact .inl (by simpa [Leaf.tokens] using ht)
        · simpa [Leaf.tokens] using ht
      rcases hcases with rfl | rfl <;> simp
    | number value =>
      obtain rfl : t = .ofNumber value := by simpa [Leaf.tokens] using ht
      simp
    | text form value =>
      obtain rfl : t = .ofText (.text form) value := by simpa [Leaf.tokens] using ht
      simp

theorem ready_empty : ({} : Scan).Ready :=
  .of_kind (k := .whitespace) rfl (by simp)

section

variable {m : Modifiers} {l : Leaf} {c : Char} {cs : Text} (hrender : l.render = c :: cs)
  (hsign : c ≠ '+' ∧ c ≠ '-') (hread : readChunk (m.lead ++ l.render) = m.leadTokens ++ l.tokens)

include hrender hsign hread

/-- A field is read alone as a filter. -/
theorem isField_eq_false_of_readChunk (hnumber : number? (m.lead ++ l.render) = none)
    (hsymbol : Symbol.ofChunk? (m.lead ++ l.render) = none)
    (hform : standaloneForm? l.render = none) : isField l.render = false := by
  rw [Bool.eq_false_iff]
  intro hfield
  have hclause : (({} : Scan).push m.leadTokens).atClauseStart = true :=
    atClauseStart_push_leadTokens rfl m
  have hchunk : ({} : Scan).chunk (m.lead ++ l.render) =
      { ({} : Scan).push m.leadTokens with inFilter := true }.push
        [.ofText .filterStart (Text.trimRight (· == ':') l.render)] := by
    rw [hrender] at hnumber hsymbol hfield hform ⊢
    rw [chunk_lead ready_empty m hsign hnumber hsymbol, sortBody, hform]
    simp only [hclause, hfield, Bool.and_self, if_true]
    rfl
  -- the end of the query closes the filter, and its start stays
  generalize hs : { ({} : Scan).push m.leadTokens with inFilter := true }.push
    [.ofText .filterStart (Text.trimRight (· == ':') l.render)] = s at hchunk
  have hkind : s.lastKind = .filterStart := hs ▸ rfl
  have hclose : s.settle.close = { s with inFilter := false }.push [.mark .filterEnd] := by
    rw [settle_of_ne (by simp [hkind]), ← closeFilter_eq_push (by simp [hkind]), ← hs]
    rfl
  have hstart : Token.ofText .filterStart (Text.trimRight (· == ':') l.render) ∈
      m.leadTokens ++ l.tokens := by
    rw [← hread, readChunk, hchunk, hclose, kept_push]
    refine List.mem_append_left _ ?_
    show _ ∈ s.kept
    rw [← hs, kept_push]
    exact List.mem_append_right _ (by simp [isKept])
  exact kind_ne_filterStart_of_mem _ hstart rfl

/-- **A chunk that is read alone as a leaf is read so in every place.** -/
theorem chunk_of_readChunk {s : Scan} (hs : s.Ready) (hphrase : isPhrase l.render = false)
    (hdots : standaloneForm? l.render = none → Text.splitAtDots l.render = none) :
    s.chunk (m.lead ++ l.render) = s.push (m.leadTokens ++ l.tokens) := by
  have hne : m.lead ++ l.render ≠ [] := by simp [hrender]
  cases hnumber : number? (m.lead ++ l.render) with
  | some n =>
    have hchunk (s : Scan) : s.chunk (m.lead ++ l.render) = s.push [.ofNumber n] := by
      rw [chunk, if_neg hne, hnumber]
      rfl
    rw [readChunk, hchunk, kept_close_settle_push] at hread
    rw [hchunk, ← hread]
    rfl
  | none =>
    cases hsymbol : Symbol.ofChunk? (m.lead ++ l.render) with
    | some symbol =>
      have hchunk (s : Scan) : s.chunk (m.lead ++ l.render) = s.symbol symbol := by
        rw [chunk, if_neg hne, hnumber, hsymbol]
      rw [readChunk, hchunk] at hread
      by_cases hletter : ∃ c, symbol = .letter c
      · obtain ⟨c, rfl⟩ := hletter
        have hpush {s : Scan} (hs : s.Ready) : s.symbol (.letter c) = s.push [.ofText .word [c]] :=
          addWord_eq_push hs.ne_word [c]
        rw [hpush ready_empty, kept_close_settle_push] at hread
        rw [hchunk, hpush hs, ← hread]
        rfl
      · obtain ⟨t, ht, hleaf⟩ := exists_isLeaf_tokens l
        have hnone := isLeaf_symbol symbol (fun c hc => hletter ⟨c, hc⟩) t
          (hread ▸ List.mem_append_right _ ht)
        simp [hleaf] at hnone
    | none =>
      have hchunk {s : Scan} (hs : s.Ready) :
          s.chunk (m.lead ++ l.render) = s.push (m.leadTokens ++ bodyTokens l.render) := by
        have hfield := isField_eq_false_of_readChunk hrender hsign hread hnumber hsymbol
        rw [push_append, ← sortBody_eq_push (ne_word_push_leadTokens hs m)
          (fun hform => ⟨hfield hform, hdots hform⟩) hphrase]
        rw [hrender] at hnumber hsymbol ⊢
        exact chunk_lead hs m hsign hnumber hsymbol
      rw [readChunk, hchunk ready_empty, kept_close_settle_push, List.filter_append,
        filter_isKept_leadTokens] at hread
      have htokens := List.append_cancel_left hread
      rcases filter_isKept_bodyTokens l.render with h | h
      · rw [hchunk hs, ← htokens, h]
      · obtain ⟨t, ht, -⟩ := exists_isLeaf_tokens l
        simp [← htokens, h] at ht

end

/-! ## Solid texts -/

/-- The parts of a solid text. -/
structure IsSolid (s : Text) (c : Char) (cs : Text) : Prop where
  eq : s = c :: cs
  sign : c ≠ '+' ∧ c ≠ '-'
  quote : c ≠ '"'
  slash : c ≠ '/'
  padding : c ≠ '\x00' ∧ ∀ d ∈ s.getLast?, d ≠ '\x00'
  space : ∀ d ∈ s, Text.isSpace d = false

theorem exists_isSolid {s : Text} (h : Text.isSolid s = true) : ∃ c cs, IsSolid s c cs := by
  cases s with
  | nil => simp [Text.isSolid] at h
  | cons c cs =>
    simp only [Text.isSolid, List.head?_cons, Option.any_some, Bool.and_eq_true, Bool.not_eq_true',
      List.contains_eq_mem, decide_eq_false_iff_not, List.mem_cons, not_or, bne_iff_ne,
      List.all_eq_true, List.not_mem_nil, not_false_eq_true, and_true] at h
    obtain ⟨⟨⟨hplus, hminus, hquote, hslash, hnul⟩, hlast⟩, hspace⟩ := h
    refine ⟨c, cs, rfl, ⟨hplus, hminus⟩, hquote, hslash, ⟨hnul, ?_⟩, by simpa using hspace⟩
    rintro d hd rfl
    exact hlast hd

namespace IsSolid

variable {s cs : Text} {c : Char} (hs : IsSolid s c cs) (m : Modifiers)

include hs

theorem isPhrase_eq_false : isPhrase s = false := by
  have hnone : phraseLength? s = none := by
    refine phraseLength?_eq_none ?_
    have hdrop := (dropSign_lead {} hs.sign cs).2
    rw [hs.eq]
    simp only [Modifiers.lead, List.nil_append] at hdrop
    simpa [hdrop] using hs.quote
  rw [isPhrase, hnone]
  rfl

theorem isSpace_of_mem_lead : ∀ d ∈ m.lead ++ s, Text.isSpace d = false := by
  intro d hd
  rcases List.mem_append.mp hd with hd | hd
  · exact (isPlain_iff.mp (isTame_iff.mp (isTame_of_mem_lead d hd)).1).1
  · exact hs.space d hd

theorem ne_nil : m.lead ++ s ≠ [] := by
  simp [hs.eq]

theorem isTrim : Text.IsTrim Text.isPadding (m.lead ++ s) := by
  have hspace := hs.isSpace_of_mem_lead m
  refine ⟨hs.ne_nil m, fun d hd => ?_, fun d hd => ?_⟩
  · refine isPadding_of_isSpace (hspace d (List.mem_of_mem_head? hd)) ?_
    rcases mem_head?_append hd with hlead | hhead
    · rintro rfl
      exact absurd (isTame_of_mem_lead _ hlead) (by decide)
    · obtain rfl : c = d := by simpa [hs.eq] using hhead
      exact hs.padding.1
  · refine isPadding_of_isSpace (hspace d (List.mem_of_mem_getLast? hd)) ?_
    have hlast : s.getLast? = some d := by
      have hcons : s.getLast?.isSome = true := by simp [hs.eq]
      simpa [List.getLast?_append, Option.or_of_isSome hcons] using hd
    exact hs.padding.2 d hlast

theorem isCompact : Text.IsCompact (m.lead ++ s) :=
  .of_forall (hs.ne_nil m) fun d hd => isBlank_of_isSpace (hs.isSpace_of_mem_lead m d hd)

end IsSolid

/-- A query that is one chunk has the tokens of the chunk. -/
theorem scan_eq_readChunk {text : Text} (htrim : Text.IsTrim Text.isPadding text)
    (hcompact : Text.IsCompact text) (hcut : lengthAt true text = text.length) :
    scan text = readChunk text := by
  have hchunk : ({} : Scan).after true (text ++ []) = ({} : Scan).step text := by
    rw [after_append htrim.ne_nil (by rwa [List.append_nil]), after_nil]
  rw [List.append_nil] at hchunk
  show (ofQuery text).close.kept = _
  rw [ofQuery_of_collapsed hcompact.space.collapseBlanks_eq, hchunk, step, htrim.trim_eq]
  rfl

/-- **A leaf that reads back alone does so wherever it is cut off.** -/
theorem scansAt_of_readsAlone {place : Place} {m : Modifiers} {l : Leaf}
    (hsolid : Text.isSolid l.render = true) (hread : l.readsAlone m = true)
    (hdots : standaloneForm? l.render = none → Text.splitAtDots l.render = none)
    (halone : lengthAt true (m.lead ++ l.render) = (m.lead ++ l.render).length)
    (hcut : ∀ afterSpace rest, place afterSpace rest →
      lengthAt afterSpace (m.lead ++ l.render ++ rest) = (m.lead ++ l.render).length) :
    ScansAt place m l := by
  obtain ⟨c, cs, hs⟩ := exists_isSolid hsolid
  have htokens : readChunk (m.lead ++ l.render) = m.leadTokens ++ l.tokens := by
    rw [← scan_eq_readChunk (hs.isTrim m) (hs.isCompact m) halone]
    simpa [Leaf.readsAlone] using hread
  refine ⟨fun {s} hready afterSpace rest hplace => ?_, ?_, ?_⟩
  · have hchunk := chunk_of_readChunk hs.eq hs.sign htokens hready hs.isPhrase_eq_false hdots
    have hkind : (s.chunk (m.lead ++ l.render)).lastKind ≠ .whitespace := by
      rw [hchunk, push_append]
      exact ne_of_endsLeaf (endsLeaf_push_tokens (s.push m.leadTokens) l) rfl
    rw [after_append (hs.ne_nil m) (hcut afterSpace rest hplace), step_eq_chunk (hs.isTrim m) hkind,
      endsInSpace_of_isSpace (hs.ne_nil m) (hs.isSpace_of_mem_lead m), hchunk]
  · exact hs.isCompact {}
  · simp [hs.eq, hs.slash]

/-! ## Readable leaves -/

theorem endsEmoticon_of_endsNode {rest : Text} (h : EndsNode rest) :
    ∀ c ∈ rest.head?, EndsEmoticon c := by
  intro c hc
  rcases h c hc with rfl | rfl | rfl <;> unfold EndsEmoticon <;> decide

/-- The parts of a leaf that is one chunk. -/
theorem of_isOneChunk {next : Text} {spaced : Bool} {m : Modifiers} {l : Leaf}
    (h : l.isOneChunk next spaced m = true) :
    lengthAt spaced (m.lead ++ l.render ++ next) = (m.lead ++ l.render).length ∧
      ¬ linkMark <:+: m.lead ++ l.render ++ next ∧ Text.splitAtDots l.render = none := by
  simpa [Leaf.isOneChunk, linkMark, and_assoc] using h

/-- One chunk is cut off at every stop that it does not take in as an emoticon. -/
theorem lengthAt_of_isOneChunk {next : Text} {spaced : Bool} {m : Modifiers} {l : Leaf}
    (hsolid : Text.isSolid l.render = true) (h : l.isOneChunk next spaced m = true) {tail : Text}
    (htail : Stops tail)
    (hemoticon : (∀ c ∈ tail.head?, EndsEmoticon c) ∨
      ∀ c ∈ (m.lead ++ l.render ++ next).head?, startsEmoticon c = false) :
    lengthAt spaced (m.lead ++ l.render ++ (next ++ tail)) = (m.lead ++ l.render).length := by
  obtain ⟨c, cs, hs⟩ := exists_isSolid hsolid
  obtain ⟨hcut, hlink, -⟩ := of_isOneChunk h
  rw [← List.append_assoc]
  cases tail with
  | nil => rwa [List.append_nil]
  | cons d ds =>
    have hquote : (dropSign (m.lead ++ l.render ++ next)).head? ≠ some '"' := by
      rw [hs.eq, List.append_assoc, List.cons_append, (dropSign_lead m hs.sign (cs ++ next)).2]
      simpa using hs.quote
    rw [lengthAt_append_stop (htail d rfl) (List.append_ne_nil_of_left_ne_nil (hs.ne_nil m) next)
      (.inl hquote) hlink (hemoticon.imp_left fun h => h d rfl), hcut]

/-- What starts no emoticon is cut off alike after a space and elsewhere. -/
theorem lengthAt_eq_of_startsEmoticon {s : Text} (h : ∀ c ∈ s.head?, startsEmoticon c = false)
    (afterSpace afterSpace' : Bool) : lengthAt afterSpace s = lengthAt afterSpace' s := by
  unfold lengthAt
  simp only [emoticonLength?_eq_none h, ite_self]

theorem scansAt_quotable {m : Modifiers} {value : Text} (h : Text.isQuotable value = true) :
    ScansAt anywhere m (.text .phrase value) := by
  simp only [Text.isQuotable, Bool.and_eq_true, Bool.not_eq_true', List.isEmpty_eq_false_iff,
    List.contains_eq_mem, decide_eq_false_iff_not, beq_iff_eq] at h
  obtain ⟨⟨⟨hne, hquote⟩, htrim⟩, hcollapse⟩ := h
  have hspace : Text.IsTrim Text.isSpace value := .of_trim_eq hne htrim
  have hcollapsed : Text.IsCollapsed (value ++ ['"']) := by
    intro rest
    have hlast : ∀ c ∈ value.getLast?, Text.isBlank c = false := fun c hc =>
      isBlank_of_isSpace (hspace.last c hc)
    have htail : Text.IsCollapsed ['"'] := Text.isCollapsed_nil.cons rfl
    rw [List.append_assoc, Text.collapseBlanks_append hlast, hcollapse, htail, List.append_assoc]
  refine ⟨fun hready afterSpace rest _ => ?_, ?_, by simp [Leaf.render]⟩
  · exact after_phrase hready afterSpace m (fun c hc heq => hquote (heq ▸ hc)) hspace rest
  · exact .cons rfl hcollapsed

theorem startsEmoticon_of_mem_lead {m : Modifiers} {s : Text} (hne : s ≠ [])
    (h : s.head?.any startsEmoticon = false) :
    ∀ c ∈ (m.lead ++ s).head?, startsEmoticon c = false := by
  obtain ⟨c, cs, rfl⟩ := List.exists_cons_of_ne_nil hne
  exact startsEmoticon_lead m (by simpa using h) cs

/-- A readable leaf is scanned to its tokens everywhere. -/
theorem scansAt_of_isReadable {m : Modifiers} {l : Leaf} (h : l.isReadable m = true) :
    ScansAt anywhere m l := by
  have hchunk (hsolid : Text.isSolid l.render = true)
      (hhead : l.render.head?.any startsEmoticon = false) (hone : l.isOneChunk [] true m = true)
      (hread : l.readsAlone m = true) : ScansAt anywhere m l := by
    obtain ⟨c, cs, hs⟩ := exists_isSolid hsolid
    have hemoticon := startsEmoticon_of_mem_lead (m := m) (by simp [hs.eq]) hhead
    obtain ⟨hcut, -, hdots⟩ := of_isOneChunk hone
    rw [List.append_nil] at hcut
    refine scansAt_of_readsAlone hsolid hread (fun _ => hdots) hcut fun afterSpace rest hplace => ?_
    have hhead : ∀ c ∈ (m.lead ++ l.render ++ rest).head?, startsEmoticon c = false := by
      obtain ⟨d, ds, htext⟩ := List.exists_cons_of_ne_nil (hs.ne_nil m)
      rw [htext] at hemoticon ⊢
      simpa using hemoticon
    rw [lengthAt_eq_of_startsEmoticon hhead afterSpace true]
    exact lengthAt_of_isOneChunk hsolid hone hplace (.inr (by rwa [List.append_nil]))
  unfold Leaf.isReadable at h
  split at h
  · rename_i value
    simp only [Bool.and_eq_true] at h
    exact scansAt_of_isPlain (l := .number value) h.1 (.inr h.2)
  · exact scansAt_quotable h
  · simp only [Bool.and_eq_true, Bool.not_eq_true', and_assoc] at h
    exact hchunk h.1 h.2.1 h.2.2.1 h.2.2.2

/-- A leaf that is readable in a place is scanned to its tokens there. -/
theorem scansAt_of_isReadableBefore {next : Text} (hnext : Stops next) {spaced : Bool}
    {m : Modifiers} {l : Leaf} (h : l.isReadableBefore next spaced m = true) :
    ScansAt (before next spaced) m l := by
  simp only [Leaf.isReadableBefore, Bool.or_eq_true, Bool.and_eq_true, and_assoc,
    List.isEmpty_iff] at h
  rcases h with h | ⟨hsolid, hread, ⟨rfl, hlink⟩ | ⟨halone, hone⟩⟩
  · exact (scansAt_of_isReadable h).before hnext spaced
  · -- a link goes on to the next space or modifier
    obtain ⟨c, cs, hs⟩ := exists_isSolid hsolid
    have hplus : l.render.head? ≠ some '+' := by simp [hs.eq, hs.sign.1]
    have hdots : standaloneForm? l.render = none → Text.splitAtDots l.render = none := by
      intro hform
      unfold standaloneForm? at hform
      simp only [hlink, if_true] at hform
      split at hform
      · simp at hform
      · split at hform <;> simp at hform
    have hcut {rest : Text} (hrest : EndsNode rest) (afterSpace : Bool) :
        lengthAt afterSpace (m.lead ++ l.render ++ rest) = (m.lead ++ l.render).length := by
      refine lengthAt_link afterSpace m hlink hplus fun e he => ?_
      rcases hrest e he with rfl | rfl | rfl <;> decide
    have halone := hcut endsNode_nil true
    rw [List.append_nil] at halone
    refine scansAt_of_readsAlone hsolid hread hdots halone fun afterSpace rest hplace => ?_
    obtain ⟨-, tail, rfl, htail⟩ := hplace
    exact hcut htail afterSpace
  · obtain ⟨hcut, -, hdots⟩ := of_isOneChunk halone
    rw [List.append_nil] at hcut
    refine scansAt_of_readsAlone hsolid hread (fun _ => hdots) hcut fun afterSpace rest hplace => ?_
    obtain ⟨rfl, tail, rfl, htail⟩ := hplace
    exact lengthAt_of_isOneChunk hsolid hone htail.stops (.inl (endsEmoticon_of_endsNode htail))

/-! ## Readable nodes -/

theorem intervalScans_of_leaves {i : Interval} (h : i.leaves.all (Leaf.isReadable {}) = true) :
    IntervalScans i := by
  rw [List.all_eq_true] at h
  cases i with
  | words r =>
    intro a ha
    have hl := h _ (List.mem_map_of_mem ha)
    refine ⟨Leaf.ofWordBound a, scansAt_of_isReadable hl, ?_, ?_⟩
    · unfold renderWordBound Leaf.ofWordBound
      split <;> rfl
    · unfold Leaf.ofWordBound Token.ofWordBound isQuotedBound
      cases isBareBound a || a.contains '"' <;> rfl
  | numbers r =>
    exact fun a ha => ⟨.number a, scansAt_of_isReadable (h _ (List.mem_map_of_mem ha)), rfl, rfl⟩
  | dates r =>
    exact fun a ha => ⟨.text .date a, scansAt_of_isReadable (h _ (List.mem_map_of_mem ha)), rfl, rfl⟩

theorem bodyScans_of_areReadableLeaves {spaced : Bool} {ns : List Node}
    (h : Node.areReadableLeaves spaced ns = true) : BodyScans spaced ns := by
  induction ns generalizing spaced with
  | nil => exact trivial
  | cons n ns ih =>
    cases n with
    | leaf l m =>
      simp only [Node.areReadableLeaves, Bool.and_eq_true] at h
      exact ⟨scansAt_of_isReadableBefore (stops_bracketAfter m ns) h.1, ih h.2⟩
    | range i m => simp [Node.areReadableLeaves] at h
    | filter field comparison value m => simp [Node.areReadableLeaves] at h
    | subquery nodes m => simp [Node.areReadableLeaves] at h

theorem valueScans_of_isReadableValue {value : Node} (h : value.isReadableValue = true) :
    ValueScans value := by
  cases value with
  | leaf l m => exact scansAt_of_isReadableBefore stops_nil h
  | range i m => exact intervalScans_of_leaves h
  | filter field comparison value m => simp [Node.isReadableValue] at h
  | subquery nodes m => exact bodyScans_of_areReadableLeaves h

theorem nodeScans_of_isReadable {n : Node} (h : n.isReadable = true) : NodeScans n := by
  cases n with
  | leaf l m => exact scansAt_of_isReadableBefore stops_nil h
  | range i m => simp [Node.isReadable] at h
  | filter field comparison value m =>
    simp only [Node.isReadable, Bool.and_eq_true] at h
    exact ⟨h.1, valueScans_of_isReadableValue h.2⟩
  | subquery nodes m => exact bodyScans_of_areReadableLeaves h

end SearchLang.Scan
