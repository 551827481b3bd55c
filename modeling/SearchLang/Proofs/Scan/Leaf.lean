import SearchLang.Proofs.Scan.Piece

/-!
# Scanning rendered leaves

A scan takes the text of a leaf apart into its tokens, whatever comes after it in
the places that the leaf may stand in (`ScansAt`), and leaves the flags as it
found them. A plain leaf may stand anywhere. `after` is the scan of the rest of a
text, from which each lemma takes a piece off.
-/

namespace SearchLang.Scan

open Pattern Chunk

/-- The state after the rest of a text. -/
def after (s : Scan) (afterSpace : Bool) (text : Text) : Scan :=
  s.run (Chunk.split afterSpace text)

@[simp] theorem after_nil (s : Scan) (afterSpace : Bool) : s.after afterSpace [] = s := by
  simp [after, run]

theorem after_append {s : Scan} {afterSpace : Bool} {piece rest : Text} (hne : piece ≠ [])
    (h : lengthAt afterSpace (piece ++ rest) = piece.length) :
    s.after afterSpace (piece ++ rest) = (s.step piece).after (endsInSpace piece) rest := by
  rw [after, split_append hne h]
  rfl

theorem settle_of_ne {s : Scan} (h : s.lastKind ≠ .whitespace) : s.settle = s :=
  if_neg fun hs => h hs.1

theorem settle_settle (s : Scan) : s.settle.settle = s.settle := by
  by_cases h : s.lastKind = .whitespace ∧ s.inFilter ∧ s.range = none ∧ ¬ s.inSubquery
  · have hclose : s.settle = s.closeFilter := if_pos h
    rw [hclose, settle_of_ne (by simp [lastKind_closeFilter])]
  · have hsame : s.settle = s := if_neg h
    rw [hsame, hsame]

/-- A chunk without padding that adds no space is the whole step. -/
theorem step_eq_chunk {s : Scan} {piece : Text} (htrim : Text.IsTrim Text.isPadding piece)
    (h : (s.chunk piece).lastKind ≠ .whitespace) : s.step piece = s.chunk piece := by
  rw [step, htrim.trim_eq, settle_of_ne h]

/-! ## Marks and spaces -/

theorem after_space (s : Scan) (afterSpace : Bool) (rest : Text) :
    s.after afterSpace (' ' :: rest) = (s.addOnce .whitespace).settle.after true rest := by
  have hlen : lengthAt afterSpace ([' '] ++ rest) = 1 := lengthAt_stop rfl (.inr rfl) rest
  have hstep : s.step [' '] = (s.addOnce .whitespace).settle := by
    have htrim : Text.trim Text.isPadding [' '] = [] := rfl
    rw [step, htrim, chunk, if_pos rfl]
  have hafter := after_append (s := s) (List.cons_ne_nil ' ' []) hlen
  rwa [hstep] at hafter

/-- Every query starts with a space, which does nothing. -/
theorem ofQuery_of_collapsed {q : Text} (h : Text.collapseBlanks (' ' :: q) = ' ' :: q) :
    ofQuery q = ({} : Scan).after true q := by
  have hspace : (({} : Scan).addOnce .whitespace).settle = {} := rfl
  have hquery : ofQuery q = ({} : Scan).after true (' ' :: q) := by
    rw [ofQuery, Chunk.ofQuery, h]
    rfl
  rw [hquery, after_space, hspace]

/-- In a subquery or a range a space adds its token and ends nothing. -/
theorem after_space_of_open {s : Scan} (hkind : s.lastKind ≠ .whitespace)
    (hopen : s.inSubquery = true ∨ s.range.isSome = true) (afterSpace : Bool) (rest : Text) :
    s.after afterSpace (' ' :: rest) = (s.push [.mark .whitespace]).after true rest := by
  have hsettle : (s.push [.mark .whitespace]).settle = s.push [.mark .whitespace] := by
    refine if_neg fun hs => ?_
    obtain ⟨-, -, hrange, hsubquery⟩ := hs
    rcases hopen with h | h
    · exact hsubquery h
    · rw [range_push] at hrange
      simp [hrange] at h
  rw [after_space, addOnce_eq_push hkind, hsettle]

/-- A piece that stands for a symbol acts as the symbol. -/
theorem after_symbol {s s' : Scan} {afterSpace : Bool} {piece rest : Text} {symbol : Symbol}
    (htrim : Text.IsTrim Text.isPadding piece) (hend : endsInSpace piece = false)
    (hlen : lengthAt afterSpace (piece ++ rest) = piece.length) (hnumber : number? piece = none)
    (hsymbol : Symbol.ofChunk? piece = some symbol) (hact : s.symbol symbol = s')
    (hkind : s'.lastKind ≠ .whitespace) :
    s.after afterSpace (piece ++ rest) = s'.after false rest := by
  have hchunk : s.chunk piece = s' := by
    rw [chunk, if_neg htrim.ne_nil, hnumber, hsymbol]
    exact hact
  have hstep : s.step piece = s' := by
    rw [step_eq_chunk htrim (hchunk ▸ hkind), hchunk]
  rw [after_append htrim.ne_nil hlen, hstep, hend]

/-- A structural character is neither padding nor a space, and no number starts with it. -/
theorem of_isStructural {c : Char} (hc : isStructural c = true) :
    Text.IsTrim Text.isPadding [c] ∧ Text.isSpace c = false ∧ number? [c] = none := by
  have hclass : ['(', ')', '\\', '^', '<', '>', '[', ']', '{', '}', '~', '='].all (fun c =>
      !Text.isPadding c && !Text.isSpace c && !c.isDigit && c != '.' && c != '+' && c != '-') =
        true := by decide
  have hall := List.all_eq_true.mp hclass c (by simpa [isStructural] using hc)
  simp only [Bool.and_eq_true, Bool.not_eq_true', bne_iff_ne, and_assoc] at hall
  obtain ⟨hpadding, hspace, hnumber⟩ := hall
  exact ⟨.of_forall (by simp) (by simpa using hpadding), hspace, number?_lead {} [] hnumber⟩

theorem step_mark (s : Scan) (symbol : Symbol) {c : Char} (hc : isStructural c = true)
    (hsymbol : Symbol.ofChar? c = some symbol) : s.step [c] = (s.symbol symbol).settle := by
  obtain ⟨htrim, -, hnumber⟩ := of_isStructural hc
  have hchunk : Symbol.ofChunk? [c] = some symbol := hsymbol
  rw [step, htrim.trim_eq, chunk, if_neg htrim.ne_nil, hnumber, hchunk]

/-- A structural character that stands for a symbol acts as the symbol. -/
theorem after_mark {s s' : Scan} {afterSpace : Bool} {c : Char} {symbol : Symbol}
    (hc : isStructural c = true) (he : afterSpace = false ∨ startsEmoticon c = false)
    (hsymbol : Symbol.ofChar? c = some symbol) (hact : s.symbol symbol = s')
    (hkind : s'.lastKind ≠ .whitespace) (rest : Text) :
    s.after afterSpace (c :: rest) = s'.after false rest := by
  obtain ⟨htrim, hspace, hnumber⟩ := of_isStructural hc
  exact after_symbol htrim hspace (lengthAt_stop (by simp [isStop, hc]) he rest) hnumber hsymbol
    hact hkind

/-! ## Tame pieces -/

theorem isPadding_of_isSpace {c : Char} (hspace : Text.isSpace c = false) (hnul : c ≠ '\x00') :
    Text.isPadding c = false := by
  cases hpadding : Text.isPadding c
  · rfl
  · simp only [Text.isPadding, Bool.or_eq_true, beq_iff_eq, hnul, or_false] at hpadding
    rcases hpadding with (((rfl | rfl) | rfl) | rfl) | rfl <;> simp [Text.isSpace] at hspace

theorem isPadding_of_isTame {c : Char} (h : isTame c = true) : Text.isPadding c = false := by
  obtain ⟨hplain, -, -, -, -, hnul⟩ := isTame_iff.mp h
  exact isPadding_of_isSpace (isPlain_iff.mp hplain).1 hnul

theorem isTrim_of_isTame {piece : Text} (hne : piece ≠ []) (h : ∀ c ∈ piece, isTame c = true) :
    Text.IsTrim Text.isPadding piece :=
  .of_forall hne fun c hc => isPadding_of_isTame (h c hc)

theorem endsInSpace_of_isTame {piece : Text} (hne : piece ≠ [])
    (h : ∀ c ∈ piece, isTame c = true) : endsInSpace piece = false :=
  endsInSpace_of_isSpace hne fun c hc => (isPlain_iff.mp (isTame_iff.mp (h c hc)).1).1

/-- A tame piece before a stop is a chunk of its own. -/
theorem after_tame {s s' : Scan} (afterSpace : Bool) {piece rest : Text} (hne : piece ≠ [])
    (h : ∀ c ∈ piece, isTame c = true) (hrest : Stops rest) (hchunk : s.chunk piece = s')
    (hkind : s'.lastKind ≠ .whitespace) :
    s.after afterSpace (piece ++ rest) = s'.after false rest := by
  rw [after_append hne (lengthAt_tame hne h hrest), step_eq_chunk (isTrim_of_isTame hne h)
    (hchunk ▸ hkind), endsInSpace_of_isTame hne h, hchunk]

/-- A tame piece that stands for a symbol acts as the symbol. -/
theorem after_tameSymbol {s s' : Scan} {afterSpace : Bool} {piece rest : Text} {symbol : Symbol}
    (hne : piece ≠ []) (h : ∀ c ∈ piece, isTame c = true)
    (hrest : Stops rest) (hnumber : number? piece = none)
    (hsymbol : Symbol.ofChunk? piece = some symbol) (hact : s.symbol symbol = s')
    (hkind : s'.lastKind ≠ .whitespace) :
    s.after afterSpace (piece ++ rest) = s'.after false rest :=
  after_symbol (isTrim_of_isTame hne h) (endsInSpace_of_isTame hne h) (lengthAt_tame hne h hrest)
    hnumber hsymbol hact hkind

/-! ## Leaves -/

theorem isTame_of_mem_lead {m : Modifiers} : ∀ c ∈ m.lead, isTame c = true := by
  rcases lead_cases m with h | h | h <;> rw [h] <;> simp <;> decide

/-- Leaves other than phrases are written with tame characters. -/
theorem isTame_of_mem_render {l : Leaf} (hl : l.isPlain = true)
    (hphrase : ∀ value, l ≠ .text .phrase value) :
    l.render ≠ [] ∧ ∀ c ∈ l.render, isTame c = true := by
  have hname {c : Char} (hc : isNameChar c = true) : isTame c = true :=
    isTame_of_isNameRest (by simp [isNameRest, hc])
  have hmarked {mark : Char} (hmark : isTame mark = true) {name : Text}
      (h : Text.isPlainName name = true) : ∀ c ∈ mark :: name, isTame c = true := by
    intro c hc
    rcases List.mem_cons.mp hc with rfl | hc
    · exact hmark
    · exact hname ((of_isPlainName h).2 c hc)
  cases l with
  | word value wildcard =>
    obtain ⟨hne, halpha, -⟩ := of_isPlainWord hl
    refine ⟨by cases wildcard <;> simp [Leaf.render, hne], ?_⟩
    intro c hc
    have hcases : c ∈ value ∨ c = '*' := by
      cases wildcard
      · exact .inl hc
      · simpa [Leaf.render] using hc
    rcases hcases with hc | rfl
    · exact hname (isNameChar_of_isAlpha (halpha c hc))
    · decide
  | number value =>
    refine ⟨Number.display_ne_nil hl, fun c hc => isTame_of_isNameRest ?_⟩
    exact isNameRest_of_isDisplayChar (Number.isDisplayChar_of_mem_display hl hc)
  | text form value =>
    cases form with
    | phrase => exact absurd rfl (hphrase value)
    | hashtag => exact ⟨by simp [Leaf.render], hmarked (by decide) hl⟩
    | mention => exact ⟨by simp [Leaf.render], hmarked (by decide) hl⟩
    | date =>
      obtain ⟨hne, -, -, hall⟩ := of_isPlainDate hl
      refine ⟨hne, fun c hc => ?_⟩
      rcases hall c hc with hdigit | rfl
      · exact hname (isNameChar_of_isDigit hdigit)
      · decide
    | url => simp [Leaf.isPlain] at hl
    | emoticon => simp [Leaf.isPlain] at hl
    | emoji => simp [Leaf.isPlain] at hl

/-- The kinds of the last token of a leaf. -/
def endsLeaf (k : Kind) : Bool :=
  k.isLeaf || k == .wildcard

theorem ne_of_endsLeaf {k k' : Kind} (h : endsLeaf k = true) (h' : endsLeaf k' = false) : k ≠ k' := by
  rintro rfl
  simp [h] at h'

theorem endsLeaf_push_tokens (s : Scan) (l : Leaf) :
    endsLeaf (s.push l.tokens).lastKind = true := by
  cases l with
  | word value wildcard => cases wildcard <;> rfl
  | number value => rfl
  | text form value => rfl

/-- A phrase is cut at its quotes, whatever it holds and whatever follows it. -/
theorem after_phrase {s : Scan} (hs : s.Ready) (afterSpace : Bool) (m : Modifiers) {value : Text}
    (hquote : ∀ c ∈ value, c ≠ '"') (hspace : Text.IsTrim Text.isSpace value) (rest : Text) :
    s.after afterSpace (m.lead ++ (Leaf.text .phrase value).render ++ rest) =
      (s.push (m.leadTokens ++ (Leaf.text .phrase value).tokens)).after false rest := by
  have hrender : m.lead ++ (Leaf.text .phrase value).render = m.lead ++ '"' :: value ++ ['"'] := by
    simp [Leaf.render]
  have hchunk : s.chunk (m.lead ++ '"' :: value ++ ['"']) =
      s.push (m.leadTokens ++ (Leaf.text .phrase value).tokens) := by
    rw [List.append_assoc, List.cons_append]
    exact chunk_phrase hs m hquote hspace
  have hkind : (s.chunk (m.lead ++ '"' :: value ++ ['"'])).lastKind ≠ .whitespace := by
    rw [hchunk, push_append]
    exact ne_of_endsLeaf (endsLeaf_push_tokens (s.push m.leadTokens) _) rfl
  have hlen : lengthAt afterSpace (m.lead ++ '"' :: value ++ ['"'] ++ rest) =
      (m.lead ++ '"' :: value ++ ['"']).length := by
    have hphrase := lengthAt_phrase afterSpace m hspace.ne_nil hquote rest
    simp only [List.append_assoc, List.cons_append, List.nil_append, List.length_append,
      List.length_cons, List.length_nil]
    omega
  have htrim : Text.IsTrim Text.isPadding (m.lead ++ '"' :: value ++ ['"']) := by
    refine ⟨by simp, ?_, by rw [List.getLast?_concat]; simp; decide⟩
    rcases lead_cases m with h | h | h <;> rw [h] <;> simp <;> decide
  have hend : endsInSpace (m.lead ++ '"' :: value ++ ['"']) = false := by
    rw [endsInSpace, List.getLast?_concat]
    rfl
  rw [hrender, after_append htrim.ne_nil hlen, step_eq_chunk htrim hkind, hend, hchunk]

/-- A plain leaf before a stop is scanned to its tokens. -/
theorem after_leaf {s : Scan} (hs : s.Ready) (afterSpace : Bool) {l : Leaf} (hl : l.isPlain = true)
    {m : Modifiers} (hm : l.number?.isNone = true ∨ m.sign.isNone = true) {rest : Text}
    (hrest : Stops rest) :
    s.after afterSpace (m.lead ++ l.render ++ rest) =
      (s.push (m.leadTokens ++ l.tokens)).after false rest := by
  by_cases hphrase : ∃ value, l = .text .phrase value
  · obtain ⟨value, rfl⟩ := hphrase
    obtain ⟨-, hquote, hspace⟩ := of_isPlainPhrase hl
    exact after_phrase hs afterSpace m hquote hspace rest
  · -- all other leaves are cut at the stop after them
    have hchunk := chunk_leaf hs hl hm
    have hkind : (s.chunk (m.lead ++ l.render)).lastKind ≠ .whitespace := by
      rw [hchunk, push_append]
      exact ne_of_endsLeaf (endsLeaf_push_tokens (s.push m.leadTokens) l) rfl
    obtain ⟨hne, htame⟩ := isTame_of_mem_render hl fun value hv => hphrase ⟨value, hv⟩
    have hall : ∀ c ∈ m.lead ++ l.render, isTame c = true := by
      intro c hc
      exact (List.mem_append.mp hc).elim (isTame_of_mem_lead c) (htame c)
    have hnil : m.lead ++ l.render ≠ [] := by simp [hne]
    exact after_tame afterSpace hnil hall hrest hchunk (hchunk ▸ hkind)

/-! ## Spaces in leaves -/

theorem isBlank_of_isSpace {c : Char} (h : Text.isSpace c = false) : Text.isBlank c = false := by
  cases hblank : Text.isBlank c with
  | false => rfl
  | true =>
    have hspace := Text.isSpace_of_isBlank hblank
    rw [h] at hspace
    exact absurd hspace (by simp)

theorem isBlank_of_isTame {c : Char} (h : isTame c = true) : Text.isBlank c = false := by
  obtain ⟨hplain, -⟩ := isTame_iff.mp h
  exact isBlank_of_isSpace (isPlain_iff.mp hplain).1

/-- Single spaces between other characters stay, the last of them before the closing quote. -/
theorem isCollapsed_phrase {value : Text} (hdouble : Text.hasDoubleSpace value = false)
    (hvalue : ∀ c ∈ value, c = ' ' ∨ Text.isSpace c = false) :
    Text.IsCollapsed (value ++ ['"']) := by
  have hquote : Text.IsCompact ['"'] := .cons rfl Text.isCollapsed_nil
  induction value with
  | nil => exact hquote.collapsed
  | cons c cs ih =>
    have htail : Text.hasDoubleSpace cs = false := by
      rw [Text.hasDoubleSpace.eq_def] at hdouble
      split at hdouble <;> simp_all
    have hrest := ih htail fun d hd => hvalue d (List.mem_cons_of_mem c hd)
    rcases hvalue c (by simp) with rfl | hc
    · -- The character after a space is none, and neither is the quote.
      cases cs with
      | nil => exact hquote.space
      | cons d ds =>
        have hd : d ≠ ' ' := by
          rintro rfl
          simp [Text.hasDoubleSpace] at hdouble
        have hspace := (hvalue d (by simp)).resolve_left hd
        refine hrest.space (by simp) ?_
        simpa using isBlank_of_isSpace hspace
    · exact hrest.cons (isBlank_of_isSpace hc)

theorem isCompact_leaf {l : Leaf} (hl : l.isPlain = true) : Text.IsCompact l.render := by
  by_cases hphrase : ∃ value, l = .text .phrase value
  · obtain ⟨value, rfl⟩ := hphrase
    have hplain : Text.isPlainPhrase value = true := hl
    simp only [Text.isPlainPhrase, Bool.and_eq_true, Bool.not_eq_true', List.all_eq_true,
      Bool.or_eq_true, beq_iff_eq] at hplain
    obtain ⟨⟨⟨⟨⟨-, -⟩, hvalue⟩, -⟩, -⟩, hdouble⟩ := hplain
    exact .cons rfl (isCollapsed_phrase hdouble hvalue)
  · obtain ⟨hne, htame⟩ := isTame_of_mem_render hl fun value hv => hphrase ⟨value, hv⟩
    exact .of_forall hne fun c hc => isBlank_of_isTame (htame c hc)

/-- No plain leaf starts with a slash, so that no link starts at the field before it. -/
theorem head?_render_leaf {l : Leaf} (hl : l.isPlain = true) : l.render.head? ≠ some '/' := by
  by_cases hphrase : ∃ value, l = .text .phrase value
  · obtain ⟨value, rfl⟩ := hphrase
    simp [Leaf.render]
  · obtain ⟨hne, htame⟩ := isTame_of_mem_render hl fun value hv => hphrase ⟨value, hv⟩
    obtain ⟨c, cs, hcs⟩ := List.exists_cons_of_ne_nil hne
    have hc := (isTame_iff.mp (htame c (by simp [hcs]))).2.2.2.2.1
    simpa [hcs] using hc

/-! ## Places -/

/-- Where a leaf stands: whether a space comes before it, and which text comes after it. -/
abbrev Place := Bool → Text → Prop

/-- The places of all leaves: a space, a modifier or a bracket comes next, or nothing. -/
def anywhere : Place := fun _ rest => Stops rest

/-- A text before which a node ends that no bracket comes after: a space, a modifier or nothing. -/
def EndsNode (rest : Text) : Prop :=
  ∀ c ∈ rest.head?, c = ' ' ∨ c = '^' ∨ c = '~'

/-- The places before `next`, which is nothing or a bracket that ends a node, after a space or right
after something else. -/
def before (next : Text) (spaced : Bool) : Place := fun afterSpace rest =>
  afterSpace = spaced ∧ ∃ tail, rest = next ++ tail ∧ EndsNode tail

theorem EndsNode.stops {rest : Text} (h : EndsNode rest) : Stops rest := by
  intro c hc
  rcases h c hc with rfl | rfl | rfl <;> rfl

theorem EndsNode.before {rest : Text} (h : EndsNode rest) (spaced : Bool) :
    before [] spaced spaced rest :=
  ⟨rfl, rest, rfl, h⟩

theorem stops_append {next tail : Text} (hnext : Stops next) (htail : EndsNode tail) :
    Stops (next ++ tail) := by
  cases next with
  | nil => exact htail.stops
  | cons c cs => exact hnext

theorem endsNode_nil : EndsNode [] := by
  intro c hc
  cases hc

theorem endsNode_space (rest : Text) : EndsNode (' ' :: rest) := by
  intro c hc
  exact .inl (Option.some.inj hc).symm

/-- A leaf whose text is scanned to its tokens in some places, with the sign of its modifiers. -/
structure ScansAt (place : Place) (m : Modifiers) (l : Leaf) : Prop where
  after : ∀ {s : Scan}, s.Ready → ∀ afterSpace {rest}, place afterSpace rest →
    s.after afterSpace (m.lead ++ l.render ++ rest) =
      (s.push (m.leadTokens ++ l.tokens)).after false rest
  compact : Text.IsCompact l.render
  head : l.render.head? ≠ some '/'

/-- What is scanned to its tokens wherever it stands is so before a bracket and before none. -/
theorem ScansAt.before {m : Modifiers} {l : Leaf} (h : ScansAt anywhere m l) {next : Text}
    (hnext : Stops next) (spaced : Bool) : ScansAt (before next spaced) m l := by
  refine ⟨fun hs afterSpace rest hplace => ?_, h.compact, h.head⟩
  obtain ⟨-, tail, rfl, htail⟩ := hplace
  exact h.after hs afterSpace (stops_append hnext htail)

theorem scansAt_of_isPlain {l : Leaf} (hl : l.isPlain = true) {m : Modifiers}
    (hm : l.number?.isNone = true ∨ m.sign.isNone = true) : ScansAt anywhere m l :=
  ⟨fun hs afterSpace _ hplace => after_leaf hs afterSpace hl hm hplace, isCompact_leaf hl,
    head?_render_leaf hl⟩

/-! ## Fields -/

theorem atClauseStart_push_leadTokens {s : Scan} (hs : s.atClauseStart = true) (m : Modifiers) :
    (s.push m.leadTokens).atClauseStart = true := by
  cases hm : m.sign with
  | none => simpa [Modifiers.leadTokens, hm] using hs
  | some sign =>
    simp only [atClauseStart, Bool.and_eq_true] at hs ⊢
    simp [Modifiers.leadTokens, hm, hs.1]

/-- A field is cut at its colon. -/
theorem after_fieldChunk {s s' : Scan} (afterSpace : Bool) (m : Modifiers) {field : Text}
    (hfield : Text.isPlainField field = true) {rest : Text} (hrest : rest.head? ≠ some '/')
    (hchunk : s.chunk (m.lead ++ (field ++ [':'])) = s') (hkind : s'.lastKind ≠ .whitespace) :
    s.after afterSpace (m.lead ++ field ++ ':' :: rest) = s'.after false rest := by
  obtain ⟨c, name, rfl, hc, hname⟩ := of_isPlainField hfield
  have hlen : lengthAt afterSpace (m.lead ++ (c :: name ++ [':']) ++ rest) =
      (m.lead ++ (c :: name ++ [':'])).length := by
    have hlength := lengthAt_field m afterSpace hc hname hrest
    simp only [List.append_assoc, List.cons_append, List.nil_append, List.length_append,
      List.length_cons, List.length_nil]
    omega
  have htrim : Text.IsTrim Text.isPadding (m.lead ++ (c :: name ++ [':'])) := by
    refine .of_forall (by simp) fun d hd => ?_
    simp only [List.mem_append, List.mem_singleton] at hd
    rcases hd with hd | hd | rfl
    · exact isPadding_of_isTame (isTame_of_mem_lead d hd)
    · exact isPadding_of_isTame (isTame_of_isNameRest (isNameRest_of_mem_field hc hname d hd))
    · decide
  have hend : endsInSpace (m.lead ++ (c :: name ++ [':'])) = false := by
    rw [endsInSpace, ← List.append_assoc, List.getLast?_concat]
    rfl
  have hafter := after_append (s := s) htrim.ne_nil hlen
  rw [step_eq_chunk htrim (hchunk ▸ hkind), hend, hchunk] at hafter
  simpa using hafter

/-- A field at the start of a clause opens a filter. -/
theorem after_field {s : Scan} (hs : s.Ready) (hclause : s.atClauseStart = true) (afterSpace : Bool)
    (m : Modifiers) {field : Text} (hfield : Text.isPlainField field = true) {rest : Text}
    (hrest : rest.head? ≠ some '/') :
    s.after afterSpace (m.lead ++ field ++ ':' :: rest) =
      ({ s with inFilter := true }.push (m.leadTokens ++ [Token.ofText .filterStart field])).after
        false rest := by
  refine after_fieldChunk afterSpace m hfield hrest ?_ (by simp)
  rw [chunk_field hs m hfield, sortBody_field (atClauseStart_push_leadTokens hclause m) hfield,
    push_append]
  rfl

/-! ## Modifiers -/

/-- What may stand before a boost or a fuzziness: the end of a value, outside of ranges and of
filters that are still open. -/
structure TakesModifier (s : Scan) : Prop where
  value : s.lastKind ≠ .whitespace ∧ s.lastKind ≠ .boost ∧ s.lastKind ≠ .fuzzy
  range : s.range = none
  filter : s.inFilter = true → s.inSubquery = true

/-- The mark of a modifier. -/
def modifierMark : Modifier → Char
  | .boost => '^'
  | .fuzzy => '~'

theorem addModifier_eq_push {s : Scan} (hs : s.TakesModifier) (modifier : Modifier) :
    s.addModifier modifier = s.push [.mark modifier.kind] := by
  obtain ⟨⟨hspace, hboost, hfuzzy⟩, hrange, hfilter⟩ := hs
  have hne : s.lastKind ≠ modifier.kind := by cases modifier <;> assumption
  have hopen : ¬ (s.inFilter = true ∧ ¬ s.inSubquery = true) := fun h => h.2 (hfilter h.1)
  rw [addModifier, if_neg (by simp [hspace, hrange]), if_neg hopen, addOnce_eq_push hne]

theorem after_modifierMark {s s' : Scan} {modifier : Modifier} (hact : s.addModifier modifier = s')
    (hkind : s'.lastKind ≠ .whitespace) (rest : Text) :
    s.after false (modifierMark modifier :: rest) = s'.after false rest := by
  have hstructural : isStructural (modifierMark modifier) = true := by cases modifier <;> decide
  have hsymbol : Symbol.ofChar? (modifierMark modifier) = some (.modifier modifier) := by
    cases modifier <;> rfl
  exact after_mark hstructural (.inl rfl) hsymbol hact hkind rest

/-- A number is scanned to its token. -/
theorem after_display {s : Scan} (hs : s.Ready) (afterSpace : Bool) {n : Number}
    (hn : n.isFinite = true) {rest : Text} (hrest : Stops rest) :
    s.after afterSpace (n.display ++ rest) = (s.push [.ofNumber n]).after false rest :=
  after_leaf hs afterSpace (l := .number n) hn (m := {}) (.inr rfl) hrest

/-- A modifier after a value is scanned to its tokens. -/
theorem after_modifier {s : Scan} (hs : s.TakesModifier) (modifier : Modifier) {n : Number}
    (hn : n.isFinite = true) {rest : Text} (hrest : Stops rest) :
    s.after false (modifierMark modifier :: (n.display ++ rest)) =
        (s.push [.mark modifier.kind, .ofNumber n]).after false rest ∧
      (s.push [.mark modifier.kind, .ofNumber n]).lastKind = .number := by
  have hkind : (s.push [.mark modifier.kind]).lastKind ≠ .whitespace := by
    cases modifier <;> simp [Modifier.kind]
  have hready : (s.push [.mark modifier.kind]).Ready := by
    constructor <;> cases modifier <;> simp [Modifier.kind]
  rw [after_modifierMark (addModifier_eq_push hs modifier) hkind,
    after_display hready false hn hrest, ← push_append]
  exact ⟨rfl, rfl⟩

/-- Finite amounts, which are written with digits. -/
structure FiniteAmounts (m : Modifiers) : Prop where
  boost : ∀ n ∈ m.boost, n.isFinite = true
  fuzzy : ∀ n ∈ m.fuzzy, n.isFinite = true

/-- The modifiers of a node end what they follow. -/
theorem endsNode_trail (m : Modifiers) {rest : Text} (hrest : EndsNode rest) :
    EndsNode (m.trail ++ rest) := by
  obtain ⟨sign, boost, fuzzy⟩ := m
  intro c hc
  cases boost with
  | some b => exact .inr (.inl (Option.some.inj hc).symm)
  | none =>
    cases fuzzy with
    | some f => exact .inr (.inr (Option.some.inj hc).symm)
    | none => exact hrest c hc

theorem stops_trail (m : Modifiers) {rest : Text} (hrest : Stops rest) : Stops (m.trail ++ rest) := by
  obtain ⟨sign, boost, fuzzy⟩ := m
  cases boost with
  | some b => exact stops_cons rfl _
  | none =>
    cases fuzzy with
    | some f => exact stops_cons rfl _
    | none => exact hrest

/-- Modifiers start with one of their marks, if there are any. -/
theorem trail_cases (m : Modifiers) :
    (m.trail = [] ∧ m.trailTokens = []) ∨
      ∃ modifier text, m.trail = modifierMark modifier :: text := by
  obtain ⟨sign, boost, fuzzy⟩ := m
  cases boost with
  | some b => exact .inr ⟨.boost, _, rfl⟩
  | none =>
    cases fuzzy with
    | some f => exact .inr ⟨.fuzzy, _, rfl⟩
    | none => exact .inl ⟨rfl, rfl⟩

/-- The modifiers of a node are scanned to their tokens. -/
theorem after_trail {s : Scan} (hs : s.TakesModifier) {m : Modifiers} (hm : FiniteAmounts m)
    {rest : Text} (hrest : Stops rest) :
    s.after false (m.trail ++ rest) = (s.push m.trailTokens).after false rest := by
  obtain ⟨sign, boost, fuzzy⟩ := m
  -- the fuzziness is scanned alike with and without a boost before it
  have hfuzzy {s : Scan} (hs : s.TakesModifier) :
      s.after false (({ fuzzy } : Modifiers).trail ++ rest) =
        (s.push ({ fuzzy } : Modifiers).trailTokens).after false rest := by
    cases fuzzy with
    | none => rfl
    | some f => exact (after_modifier hs .fuzzy (hm.fuzzy f rfl) hrest).1
  cases boost with
  | none => exact hfuzzy hs
  | some b =>
    obtain ⟨hboost, hkind⟩ :=
      after_modifier hs .boost (hm.boost b rfl) (stops_trail { fuzzy } hrest)
    have hnext : (s.push [.mark Modifier.boost.kind, .ofNumber b]).TakesModifier :=
      ⟨by simp [hkind], hs.range, hs.filter⟩
    have htext : (⟨sign, some b, fuzzy⟩ : Modifiers).trail ++ rest =
        modifierMark .boost :: (b.display ++ (({ fuzzy } : Modifiers).trail ++ rest)) := by
      simp [Modifiers.trail, modifierMark]
    rw [htext, hboost, hfuzzy hnext, ← push_append]
    rfl

end SearchLang.Scan
