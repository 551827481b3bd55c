import SearchLang.Proofs.Query.RoundTrip

/-!
# Ranges with dots

A range of numbers may be written with two dots between its bounds instead of the
keyword and the spaces around it. The two bounds and the dots are then one chunk,
and a sign in front of it counts as the sign of the chunk: it is split off before
the dots are looked for. So the dots mean the same as the keyword, except that a
lower bound with a minus is lost.
-/

namespace SearchLang

open Pattern Chunk

/-- Whether a number has a minus, which a zero may have too. -/
def Number.hasMinus : Number → Bool
  | .finite negative _ | .infinite negative => negative
  | .nan => false

/-! ## Two dots after a number -/

theorem Text.ne_dot_of_isDigit {s : Text} (h : ∀ c ∈ s, c.isDigit = true) : ∀ c ∈ s, c ≠ '.' := by
  rintro c hc rfl
  simpa using h '.' hc

section Magnitude

variable (x : Magnitude) (rest : Text)

/-- No two dots stand in a number, and it does not end in one. -/
theorem splitAtDots_magnitude :
    Text.splitAtDots (NumberLayout.query.magnitude x ++ '.' :: '.' :: rest) =
      some (NumberLayout.query.magnitude x, rest) := by
  obtain ⟨whole, point, htext, ⟨-, hwhole⟩, hpoint⟩ :=
    Number.exists_setPlain (x.shortest .up).coefficient (x.shortest .up).exponent
  rw [Number.magnitude_query, htext, List.append_assoc,
    Text.splitAtDots_append (Text.ne_dot_of_isDigit hwhole)]
  rcases hpoint with rfl | ⟨fraction, rfl, hne, hfraction⟩
  · simp [Text.splitAtDots]
  · obtain ⟨c, cs, rfl⟩ := List.exists_cons_of_ne_nil hne
    have hc : c ≠ '.' := Text.ne_dot_of_isDigit hfraction c (by simp)
    have hsplit := Text.splitAtDots_append (Text.ne_dot_of_isDigit hfraction) ('.' :: '.' :: rest)
    rw [List.cons_append] at hsplit
    -- the point is not the first of two dots
    rw [List.cons_append, List.cons_append, Text.splitAtDots, hsplit]
    · simp [Text.splitAtDots]
    · simp [hc]

/-- No literal goes on with two dots. -/
theorem readUnsigned?_magnitude_dots :
    Decimal.readUnsigned? (NumberLayout.query.magnitude x ++ '.' :: '.' :: rest) = none := by
  obtain ⟨whole, point, htext, ⟨-, hwhole⟩, hpoint⟩ :=
    Number.exists_setPlain (x.shortest .up).coefficient (x.shortest .up).exponent
  rw [Number.magnitude_query, htext, List.append_assoc]
  unfold Decimal.readUnsigned?
  rcases hpoint with rfl | ⟨fraction, rfl, hne, hfraction⟩
  · rw [List.nil_append, Decimal.span_digits hwhole _ (by simp)]
    simp [Decimal.takeFraction, Decimal.readExponent?, List.span_eq_takeWhile_dropWhile]
  · rw [Decimal.span_digits hwhole _ (by simp)]
    simp only [List.cons_append, Decimal.takeFraction]
    rw [Decimal.span_digits hfraction _ (by simp)]
    simp [Decimal.readExponent?]

end Magnitude

namespace Scan

/-! ## One chunk for two bounds -/

/-- The sign that a chunk loses when it starts with a number. -/
def signOf (negative : Bool) : Modifiers :=
  { sign := if negative then some .prohibited else none }

theorem display_eq_lead (negative : Bool) (x : Magnitude) :
    (Number.finite negative x).display = (signOf negative).lead ++ NumberLayout.query.magnitude x := by
  cases negative <;> rfl

/-- Two numbers with dots between them, after the sign of the first one. -/
theorem sortBody_dotted {s : Scan} (hrange : s.range.isSome = true) (x : Magnitude) {y : Number}
    (hy : y.isFinite = true) :
    s.sortBody (NumberLayout.query.magnitude x ++ '.' :: '.' :: y.display) =
      s.push [.ofNumber (.finite false x), .mark .upTo, .ofNumber y] := by
  have hx : (Number.finite false x).isFinite = true := rfl
  have hchar : ∀ c ∈ NumberLayout.query.magnitude x ++ '.' :: '.' :: y.display,
      Number.isDisplayChar c = true := by
    intro c hc
    simp only [List.mem_append, List.mem_cons] at hc
    rcases hc with hc | rfl | rfl | hc
    · exact Number.isDisplayChar_of_mem_display hx hc
    · rfl
    · rfl
    · exact Number.isDisplayChar_of_mem_display hy hc
  have hnot {c : Char} (hc : Number.isDisplayChar c = false) :
      c ∉ NumberLayout.query.magnitude x ++ '.' :: '.' :: y.display := fun hmem => by
    simp [hchar c hmem] at hc
  have hstandalone :
      standaloneForm? (NumberLayout.query.magnitude x ++ '.' :: '.' :: y.display) = none := by
    have hrest {c : Char} (hc : c ∈ NumberLayout.query.magnitude x ++ '.' :: '.' :: y.display) :
        isNameRest c = true := isNameRest_of_isDisplayChar (hchar c hc)
    have hemoticon := isEmoticon_eq_false fun c hc =>
      Chunk.startsEmoticon_of_isTame (Chunk.isTame_of_isNameRest (hrest (List.mem_of_mem_head? hc)))
    have hemoji := isEmoji_eq_false fun c hc => Chunk.lt_of_isNameRest (hrest hc)
    have hurl := isUrl_eq_false (hnot (c := ':') (by decide))
    simp [standaloneForm?, hemoticon, hemoji, hurl]
  have hfield := isField_eq_false (hnot (c := ':') (by decide))
  have hphrase := isPhrase_eq_false (hnot (c := '"') (by decide))
  rw [sortBody, hstandalone]
  simp only [hfield, hphrase, Bool.and_false, Bool.false_eq_true, if_false]
  rw [splitAtDots_magnitude]
  have hlower : s.chunk (NumberLayout.query.magnitude x) = s.push [.ofNumber (.finite false x)] :=
    chunk_display s hx
  have hdots : (s.push [.ofNumber (.finite false x)]).symbol .upTo =
      s.push [.ofNumber (.finite false x), .mark .upTo] := by
    show (if s.range.isSome = true then _ else _) = _
    rw [if_pos hrange, addOnce_eq_push (by simp), ← push_append]
    rfl
  simp only [hlower, hdots, chunk_display _ hy, ← push_append]
  rfl

theorem exists_magnitude_cons (x : Magnitude) :
    ∃ c cs, NumberLayout.query.magnitude x = c :: cs ∧ c.isDigit = true := by
  obtain ⟨whole, point, htext, ⟨hne, hwhole⟩, -⟩ :=
    Number.exists_setPlain (x.shortest .up).coefficient (x.shortest .up).exponent
  obtain ⟨c, cs, rfl⟩ := List.exists_cons_of_ne_nil hne
  exact ⟨c, cs ++ point, by rw [Number.magnitude_query, htext, List.cons_append],
    hwhole c (by simp)⟩

/-- The sign of the lower bound becomes a token of its own. -/
theorem chunk_dotted {s : Scan} (hs : s.Ready) (hrange : s.range.isSome = true) (negative : Bool)
    (x : Magnitude) {y : Number} (hy : y.isFinite = true) :
    s.chunk ((Number.finite negative x).display ++ '.' :: '.' :: y.display) =
      s.push ((signOf negative).leadTokens ++
        [.ofNumber (.finite false x), .mark .upTo, .ofNumber y]) := by
  have hbody := sortBody_dotted (s := s.push (signOf negative).leadTokens) hrange x hy
  have hread := readUnsigned?_magnitude_dots x y.display
  obtain ⟨c, cs, hmagnitude, hc⟩ := exists_magnitude_cons x
  rw [display_eq_lead, List.append_assoc]
  rw [hmagnitude, List.cons_append] at hbody hread ⊢
  have hkeyword := of_isNameChar (p := fun c => !c.isDigit || !isKeywordChar c.toUpper) (by decide)
    (isNameChar_of_isDigit hc)
  have hsymbol : Symbol.ofChunk? ((signOf negative).lead ++ c :: (cs ++ '.' :: '.' :: y.display)) =
      none := ofChunk?_lead _ (.inr rfl) (by simp) (by simpa [hc] using hkeyword)
  rw [chunk_lead hs _ (Decimal.ne_sign_of_isDigit hc)
    (number?_eq_none (read?_lead _ (Decimal.ne_sign_of_isDigit hc) hread)) hsymbol, hbody, push_append]

/-! ## The whole range -/

/-- A filter on a range of numbers, with a text between the bounds. -/
def rangeText (field : Text) (exclusive : Bool) (x : Number) (between : Text) (y : Number) : Text :=
  field ++ ':' :: openMark exclusive ::
    (x.display ++ (between ++ (y.display ++ [closeMark exclusive])))

theorem isTame_of_mem_display {n : Number} (hn : n.isFinite = true) :
    ∀ c ∈ n.display, isTame c = true := fun _ hc =>
  isTame_of_isNameRest (isNameRest_of_isDisplayChar (Number.isDisplayChar_of_mem_display hn hc))

theorem after_dotted {s : Scan} (hs : s.Ready) (hrange : s.range.isSome = true) (negative : Bool)
    (x : Magnitude) {y : Number} (hy : y.isFinite = true) {rest : Text} (hrest : Stops rest) :
    s.after false ((Number.finite negative x).display ++ (['.', '.'] ++ (y.display ++ rest))) =
      (s.push ((signOf negative).leadTokens ++
        [.ofNumber (.finite false x), .mark .upTo, .ofNumber y])).after false rest := by
  have hx : (Number.finite negative x).isFinite = true := rfl
  have htame : ∀ c ∈ (Number.finite negative x).display ++ '.' :: '.' :: y.display,
      isTame c = true := by
    intro c hc
    simp only [List.mem_append, List.mem_cons] at hc
    rcases hc with hc | rfl | rfl | hc
    · exact isTame_of_mem_display hx c hc
    · rfl
    · rfl
    · exact isTame_of_mem_display hy c hc
  have hafter := after_tame false (by simp) htame hrest
    (chunk_dotted hs hrange negative x hy) (by simp [push, lastKind])
  simpa using hafter

theorem isCompact_dotted {field : Text} (hfield : field.isPlainField = true) (exclusive : Bool)
    {x y : Number} (hx : x.isFinite = true) (hy : y.isFinite = true) :
    Text.IsCompact (rangeText field exclusive x ['.', '.'] y) := by
  obtain ⟨d, name, rfl, hd, hname⟩ := of_isPlainField hfield
  refine .of_forall (by simp [rangeText]) fun c hc => ?_
  simp only [rangeText, List.mem_append, List.mem_cons, List.not_mem_nil, or_false] at hc
  rcases hc with hc | rfl | rfl | hc | (rfl | rfl) | hc | rfl
  · refine isBlank_of_isTame (isTame_of_isNameRest (isNameRest_of_mem_field hd hname c ?_))
    simpa using hc
  · rfl
  · cases exclusive <;> rfl
  · exact isBlank_of_isTame (isTame_of_mem_display hx c hc)
  · rfl
  · rfl
  · exact isBlank_of_isTame (isTame_of_mem_display hy c hc)
  · cases exclusive <;> rfl

/-- The tokens of a range with dots. -/
def dottedTokens (exclusive negative : Bool) (x : Magnitude) (y : Number) : List Token :=
  let b : Bracket := if exclusive then .exclusive else .inclusive
  .mark (.rangeStart b) :: ((signOf negative).leadTokens ++
    [.ofNumber (.finite false x), .mark .upTo, .ofNumber y, .mark (.rangeEnd b)])

/-- A range with dots is scanned to its tokens, and its filter ends with it. -/
theorem after_dottedRange {s : Scan} (hfilter : s.inFilter = true) (hsubquery : s.inSubquery = false)
    (hrange : s.range = none) (hs : ∀ b, s.lastKind ≠ .rangeStart b) (exclusive negative : Bool)
    (x : Magnitude) {y : Number} (hy : y.isFinite = true) :
    (s.after false (openMark exclusive :: ((Number.finite negative x).display ++
      (['.', '.'] ++ (y.display ++ [closeMark exclusive]))))).Stands
        (s.kept ++ dottedTokens exclusive negative x y ++ [.mark .filterEnd]) := by
  have hstop : Stops [closeMark exclusive] := by
    refine stops_cons ?_ []
    cases exclusive <;> rfl
  have hopen := after_rangeStart hfilter hrange hs (⟨none, none, exclusive⟩ : Range Number)
  simp only at hopen
  rw [hopen, after_dotted (.of_kind rfl (by simp)) rfl negative x hy hstop,
    after_rangeEnd rfl (by simp [push, lastKind]), after_nil]
  refine ⟨?_, rfl, hsubquery, rfl, by simp [lastKind, push]⟩
  have hnumber (n : Number) : isKept (.ofNumber n) = true := rfl
  cases negative <;>
    simp [kept, push, dottedTokens, signOf, Modifiers.leadTokens, Range.bracket, isKept_mark,
      hnumber, List.filter_cons]

theorem scan_dotted {field : Text} (hfield : field.isPlainField = true) (exclusive negative : Bool)
    (x : Magnitude) {y : Number} (hy : y.isFinite = true) :
    scan (rangeText field exclusive (.finite negative x) ['.', '.'] y) =
      .ofText .filterStart field :: (dottedTokens exclusive negative x y ++ [.mark .filterEnd]) := by
  have hcompact := isCompact_dotted hfield exclusive (x := .finite negative x) rfl hy
  have hready : ({} : Scan).Ready := .of_kind (k := .whitespace) rfl (by simp)
  have hslash (text : Text) : (openMark exclusive :: text).head? ≠ some '/' := by
    cases exclusive <;> simp [openMark]
  have hstart (text : Text) := after_field hready rfl true {} hfield (hslash text)
  simp only [Modifiers.lead, Modifiers.leadTokens, List.nil_append] at hstart
  have hrange := after_dottedRange (s := { ({} : Scan) with inFilter := true }.push
    [.ofText .filterStart field]) rfl rfl rfl (by simp) exclusive negative x hy
  rw [scan, ofQuery_of_collapsed hcompact.space.collapseBlanks_eq, rangeText, hstart]
  show (after _ _ _).close.kept = _
  rw [close_of_not_open hrange.filter hrange.subquery, hrange.kept]
  rfl

end Scan

namespace Query

/-- A filter with a range and nothing after it. -/
theorem parseTokens_rangeFilter (limits : Limits) (field : Text) {b : Bracket} {ts : List Token}
    {i : Interval} (h : readRange? b ts = some (.interval i, [.mark .filterEnd])) :
    parseTokens limits (.ofText .filterStart field :: .mark (.rangeStart b) :: ts) =
      [.filter field none (.range i {}) {}] := by
  have hvalue : filterOn field none (.range i {}) = .filter field none (.range i {}) {} :=
    filterOn_of_admits field rfl
  have hfilter (body? : Option BodyParser) :
      readFilter body? field none none (.mark (.rangeStart b) :: ts) =
        ⟨[.filter field none (.range i {}) {}], none, []⟩ := by
    rw [readFilter.eq_def]
    simp [h, hvalue, dropFilterEnd_mark, Node.ofInterval]
  rw [parseTokens, sequence_cons]
  simp [step, hfilter, finish, signFirst, attachToLast, attachModifiers, sequence, Node.withSign,
    Node.withModifiers, Node.modifiers]

/-- The sign of the lower bound is passed over with the bound. -/
theorem readRange?_dotted (exclusive negative : Bool) (x : Magnitude) (y : Number) :
    readRange? (if exclusive then .exclusive else .inclusive)
        ((Scan.dottedTokens exclusive negative x y).tail ++ [.mark .filterEnd]) =
      some (.interval (.numbers
        ⟨if negative then none else some (.finite negative x), some y, exclusive⟩),
        [.mark .filterEnd]) := by
  cases exclusive <;> cases negative <;> rfl

/-- The tokens of a range with the keyword. -/
theorem scan_keyword {field : Text} (hfield : field.isPlainField = true) (exclusive : Bool)
    {x y : Number} (hx : x.isFinite = true) (hy : y.isFinite = true) :
    scan (Scan.rangeText field exclusive x " TO ".toList y) =
      .ofText .filterStart field :: ((⟨some x, some y, exclusive⟩ : Range Number).tokens .ofNumber ++
        [.mark .filterEnd]) := by
  have hlimits : ({} : Limits).maxBoost.isFinite = true ∧ ({} : Limits).maxFuzzy.isFinite = true := by
    decide
  have hplain : [Node.filter field none
      (.range (.numbers ⟨some x, some y, exclusive⟩) {}) {}].all (Node.isPlain {}) = true := by
    simp [Node.isPlain, Node.isPlainValue, Node.isCanonical, Interval.isPlain, Range.bounds, hfield,
      hx, hy, Node.isWellShaped, Node.isWithin, Node.isFilterValue, Node.admitsComparison,
      Interval.hasBound, Range.hasBound, Node.tag, Node.modifiers, Interval.tag]
  have hscan := scan_renderList hlimits hplain
  have hrender : Node.renderList [.filter field none
      (.range (.numbers ⟨some x, some y, exclusive⟩) {}) {}] =
      Scan.rangeText field exclusive x " TO ".toList y := by
    cases exclusive <;>
      simp [Node.render, Interval.render, Range.render, Scan.rangeText, Scan.openMark,
        Scan.closeMark, Modifiers.lead, Modifiers.trail]
  rw [hrender] at hscan
  rw [hscan]
  simp [Node.tokensList, Node.tokens, Interval.tokens]

/-- **Dots between numbers mean the same as the keyword, but for a lower bound with a minus.** With
the keyword both bounds are read; with dots the lower one is lost if it has a minus. -/
theorem parse_dotted (limits : Limits) {field : Text} (hfield : field.isPlainField = true)
    (exclusive : Bool) {x y : Number} (hx : x.isFinite = true) (hy : y.isFinite = true) :
    parse limits (Scan.rangeText field exclusive x " TO ".toList y) =
        [.filter field none (.range (.numbers ⟨some x, some y, exclusive⟩) {}) {}] ∧
      parse limits (Scan.rangeText field exclusive x "..".toList y) =
        [.filter field none (.range
          (.numbers ⟨if x.hasMinus then none else some x, some y, exclusive⟩) {}) {}] := by
  constructor
  · obtain ⟨b, ts, htokens, hread⟩ := readRange?_tokens (fun _ => true)
      (i := .numbers ⟨some x, some y, exclusive⟩) rfl [.mark .filterEnd]
    rw [Interval.tokens] at htokens
    rw [parse, scan_keyword hfield exclusive hx hy, htokens]
    exact parseTokens_rangeFilter limits field hread
  · obtain ⟨negative, m, rfl⟩ : ∃ negative m, x = .finite negative m := by
      cases x with
      | finite negative m => exact ⟨negative, m, rfl⟩
      | infinite negative => simp [Number.isFinite] at hx
      | nan => simp [Number.isFinite] at hx
    have hscan := Scan.scan_dotted hfield exclusive negative m hy
    show parseTokens limits (scan (Scan.rangeText field exclusive _ ['.', '.'] y)) = _
    rw [hscan]
    exact parseTokens_rangeFilter limits field (readRange?_dotted exclusive negative m y)

/-- A lower bound with a minus, between braces. -/
theorem parse_dotted_sample :
    Text.isPlainField "n".toList = true ∧
      parse {} "n:\x7b-10 TO 2\x7d".toList =
        [.filter "n".toList none
          (.range (.numbers ⟨some (.finite true (.ofNat 10)), some .two, true⟩) {}) {}] ∧
      parse {} "n:\x7b-10..2\x7d".toList =
        [.filter "n".toList none (.range (.numbers ⟨none, some .two, true⟩) {}) {}] := by
  have hfield : Text.isPlainField "n".toList = true := by decide
  have hkeyword : Scan.rangeText "n".toList true (.finite true (.ofNat 10)) " TO ".toList .two =
      "n:\x7b-10 TO 2\x7d".toList := by decide +kernel
  have hdots : Scan.rangeText "n".toList true (.finite true (.ofNat 10)) "..".toList .two =
      "n:\x7b-10..2\x7d".toList := by decide +kernel
  rw [← hkeyword, ← hdots]
  exact ⟨hfield, parse_dotted {} hfield true rfl rfl⟩

/-- The dots lose a lower bound that the keyword keeps. -/
theorem parse_dotted_negative :
    parse {} "f:[-5..6]".toList ≠ parse {} "f:[-5 TO 6]".toList := by
  decide +kernel

end Query

end SearchLang
