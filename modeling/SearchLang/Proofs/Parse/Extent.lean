import SearchLang.Query.Parse

/-!
# The extent of the parts of a query

What comes later in a query does not change what the tokens before it stand for,
if it starts with a word or a filter and the subqueries before it have ended. The
one exception is a filter that has neither a value nor an end: it takes the word
that follows. `parseTokens_append_word` and `parseTokens_append_word_of_open` are the
two cases.
-/

namespace SearchLang.Query

/-! ## Open filters -/

/-- Whether a filter passes over all tokens after its start. It passes over signs, comparisons,
starts of ranges that do not end, tokens without a value of their kind and subqueries without
nodes. -/
def passesOver (body : BodyParser) : List Token → Bool
  | [] => true
  | t :: ts =>
    match t.kind with
    | .sign _ | .equals => passesOver body ts
    | .greater | .less => passesOver body (takeEquals ts).2
    | .subqueryStart => (body (subqueryBody ts)).isEmpty && passesOver body (afterSubquery ts)
    | .rangeStart b => (readRange? b ts).isNone && passesOver body ts
    | k => k.isLeaf && (readLeaf? t ts).isNone && passesOver body ts
termination_by ts => ts.length
decreasing_by
  all_goals
    have ha := (afterSubquery_suffix ts).length_le
    have he := (takeEquals_suffix ts).length_le
    simp only [List.length_cons]
    omega

/-- Whether tokens end in a filter that has neither a value nor an end. -/
def leavesFilterOpen (limits : Limits) : List Token → Bool
  | [] => false
  | t :: ts =>
    (t.kind == .filterStart && passesOver (parseBody limits) ts) || leavesFilterOpen limits ts

theorem leavesFilterOpen_of_suffix {limits : Limits} {ts us : List Token} (h : us <:+ ts)
    (hts : leavesFilterOpen limits ts = false) : leavesFilterOpen limits us = false := by
  induction ts with
  | nil =>
    rw [List.suffix_nil.mp h]
    rfl
  | cons t ts ih =>
    rcases List.suffix_cons_iff.mp h with rfl | h
    · exact hts
    · simp only [leavesFilterOpen, Bool.or_eq_false_iff] at hts
      exact ih h hts.2

/-- An open filter is the last one. -/
theorem exists_of_leavesFilterOpen {limits : Limits} {ts : List Token}
    (h : leavesFilterOpen limits ts = true) :
    ∃ before t after, ts = before ++ t :: after ∧ t.kind = .filterStart ∧
      passesOver (parseBody limits) after = true := by
  induction ts with
  | nil => simp [leavesFilterOpen] at h
  | cons t ts ih =>
    simp only [leavesFilterOpen, Bool.or_eq_true, Bool.and_eq_true, beq_iff_eq] at h
    rcases h with ⟨hk, hpass⟩ | h
    · exact ⟨[], t, ts, rfl, hk, hpass⟩
    · obtain ⟨before, u, after, rfl, hk, hpass⟩ := ih h
      exact ⟨t :: before, u, after, rfl, hk, hpass⟩

/-! ## Parts -/

/-- Tokens that start a part of a query: with a word or a filter, and without the end of a range
that is not theirs. -/
structure StartsPart (us : List Token) : Prop where
  head : ∃ t rest, us = t :: rest ∧ (t.kind = .word ∨ t.kind = .filterStart)
  endless : hasRangeEnd us = false

/-- Tokens that no reader of what stands before them reaches into: their front is none of the kinds
that a reader takes after what it has read, and they hold no end of a range that is not theirs. -/
structure LeftAlone (us : List Token) : Prop where
  head : ∀ u ∈ us.head?, ∀ k ∈ [Kind.number, .equals, .filterEnd, .wildcard, .boost, .fuzzy],
    u.kind ≠ k
  endless : hasRangeEnd us = false

theorem StartsPart.leftAlone {us : List Token} (h : StartsPart us) : LeftAlone us where
  head := by
    obtain ⟨t, rest, rfl, hk⟩ := h.head
    intro u hu k hkind
    obtain rfl : t = u := by simpa using hu
    rcases hk with hk | hk <;>
    · rintro rfl
      rw [hk] at hkind
      simp at hkind
  endless := h.endless

/-- The end of a subquery, and the end of a query, are left alone by what stands before them. -/
theorem leftAlone_of_subqueryEnd {us : List Token} (h : ∀ u ∈ us.head?, u.kind = .subqueryEnd) :
    LeftAlone us where
  head := by
    intro u hu k hk
    rw [h u hu]
    rintro rfl
    simp at hk
  endless := by
    cases us with
    | nil => rfl
    | cons u us => simp [hasRangeEnd, endsSearch, h u rfl, Kind.isRangeEnd]

/-- Tokens of which the ones before them take none: no wildcard, boost or fuzzy sign at their front,
and no number there behind a modifier. -/
structure Apart (ts us : List Token) : Prop where
  head : ∀ u ∈ us.head?, ∀ k ∈ [Kind.wildcard, .boost, .fuzzy], u.kind ≠ k
  number : (∀ u ∈ us.head?, u.kind ≠ .number) ∨
    ∀ t ∈ ts.getLast?, t.kind ≠ .boost ∧ t.kind ≠ .fuzzy

theorem Apart.of_suffix {ts ts' us : List Token} (h : Apart ts us) (hsuffix : ts' <:+ ts) :
    Apart ts' us where
  head := h.head
  number := by
    refine h.number.imp_right fun hlast t ht => hlast t ?_
    obtain ⟨before, rfl⟩ := hsuffix
    rw [List.getLast?_append, Option.mem_def.mp ht]
    rfl

theorem LeftAlone.apart {us : List Token} (h : LeftAlone us) (ts : List Token) : Apart ts us where
  head := fun u hu k hk => h.head u hu k (by grind)
  number := .inl fun u hu => h.head u hu .number (by simp)

/-- Tokens without signs whose subqueries all end. -/
structure SelfContained (ts : List Token) : Prop where
  unsigned : ∀ t ∈ ts, ∀ sign, t.kind ≠ .sign sign
  closed : ∀ t us, t :: us <:+ ts → t.kind = .subqueryStart → ∃ u ∈ us, u.kind = .subqueryEnd

theorem SelfContained.of_suffix {ts us : List Token} (hts : SelfContained ts) (h : us <:+ ts) :
    SelfContained us :=
  ⟨fun t ht => hts.unsigned t (h.subset ht), fun t vs hv => hts.closed t vs (hv.trans h)⟩

theorem SelfContained.tail {t : Token} {ts : List Token} (h : SelfContained (t :: ts)) :
    SelfContained ts :=
  h.of_suffix (List.suffix_cons t ts)

/-! ## Searches -/

/-- A search that ends in a text ends there whatever follows. -/
theorem dropWhile_append_of_mem {p : Token → Bool} {ts : List Token} {t : Token} (ht : t ∈ ts)
    (hp : p t = false) (us : List Token) :
    t ∈ ts.dropWhile p ∧ (ts ++ us).dropWhile p = ts.dropWhile p ++ us ∧
      (ts ++ us).takeWhile p = ts.takeWhile p := by
  induction ts with
  | nil => cases ht
  | cons u ts ih =>
    by_cases hu : p u = true
    · have hmem : t ∈ ts := by
        rcases List.mem_cons.mp ht with rfl | ht
        · simp [hp] at hu
        · exact ht
      simpa [hu] using ih hmem
    · simpa [hu] using ht

/-- Whether tokens hold the end of a range. -/
def HoldsRangeEnd (ts : List Token) : Prop :=
  ∃ t ∈ ts, t.kind.isRangeEnd = true

theorem holdsRangeEnd_of_hasRangeEnd {ts : List Token} (h : hasRangeEnd ts = true) :
    HoldsRangeEnd ts := by
  unfold hasRangeEnd at h
  split at h
  · rename_i t ht
    exact ⟨t, List.mem_of_find?_eq_some ht, h⟩
  · simp at h

/-- A leaf takes a wildcard after it and nothing else. -/
theorem rest_of_readLeaf? {t : Token} {ts rest : List Token} {l : Leaf}
    (h : readLeaf? t ts = some (l, rest)) :
    rest = ts ∨ ∃ w, w.kind = .wildcard ∧ ts = w :: rest := by
  unfold readLeaf? at h
  split at h
  · obtain ⟨value, -, h⟩ := Option.map_eq_some_iff.mp h
    split at h
    · split at h
      · rename_i hw
        cases h
        exact .inr ⟨_, hw, rfl⟩
      · cases h
        exact .inl rfl
    · cases h
      exact .inl rfl
  · obtain ⟨value, -, h⟩ := Option.map_eq_some_iff.mp h
    cases h
    exact .inl rfl
  · obtain ⟨value, -, h⟩ := Option.map_eq_some_iff.mp h
    cases h
    exact .inl rfl
  · simp at h

theorem skipToUpper_append {ts : List Token} (h : HoldsRangeEnd ts) (us : List Token) :
    skipToUpper (ts ++ us) = skipToUpper ts ++ us ∧ HoldsRangeEnd (skipToUpper ts) := by
  obtain ⟨e, he, hkind⟩ := h
  obtain ⟨hmem, hdrop, -⟩ := dropWhile_append_of_mem
    (p := fun t => t.kind != .upTo && !t.kind.isRangeEnd) he (by simp [hkind]) us
  unfold skipToUpper
  rw [hdrop]
  cases hrest : ts.dropWhile fun t => t.kind != .upTo && !t.kind.isRangeEnd with
  | nil => simp [hrest] at hmem
  | cons t rest =>
    simp only [List.cons_append]
    split
    · rename_i hk
      rw [hrest] at hmem
      rcases List.mem_cons.mp hmem with rfl | hmem
      · simp [hk, Kind.isRangeEnd] at hkind
      · exact ⟨rfl, e, hmem, hkind⟩
    · exact ⟨rfl, e, hrest ▸ hmem, hkind⟩

theorem skipRangeEnd_append {ts : List Token} (h : HoldsRangeEnd ts) (us : List Token) :
    skipRangeEnd (ts ++ us) = skipRangeEnd ts ++ us := by
  obtain ⟨e, he, hkind⟩ := h
  obtain ⟨hmem, hdrop, -⟩ :=
    dropWhile_append_of_mem (p := fun t => !t.kind.isRangeEnd) he (by simp [hkind]) us
  obtain ⟨t, rest, hrest⟩ := List.exists_cons_of_ne_nil (List.ne_nil_of_mem hmem)
  simp [skipRangeEnd, hdrop, hrest]

/-- A subquery that ends is read up to its own end. -/
theorem subqueryBody_append_of_mem {ts : List Token} (h : ∃ t ∈ ts, t.kind = .subqueryEnd)
    (us : List Token) : subqueryBody (ts ++ us) = subqueryBody ts ∧
      afterSubquery (ts ++ us) = afterSubquery ts ++ us := by
  obtain ⟨e, he, hkind⟩ := h
  obtain ⟨hmem, hdrop, htake⟩ :=
    dropWhile_append_of_mem (p := fun t => t.kind != .subqueryEnd) he (by simp [hkind]) us
  obtain ⟨t, rest, hrest⟩ := List.exists_cons_of_ne_nil (List.ne_nil_of_mem hmem)
  refine ⟨htake, ?_⟩
  simp [afterSubquery, hdrop, hrest]

/-! ## Leaves and modifiers -/

section Apart

variable {us : List Token}

/-- A leaf takes nothing of what comes later, if that starts with no wildcard. -/
theorem readLeaf?_append (hus : ∀ u ∈ us.head?, u.kind ≠ .wildcard) (t : Token)
    (ts : List Token) :
    readLeaf? t (ts ++ us) = (readLeaf? t ts).map fun (l, rest) => (l, rest ++ us) := by
  unfold readLeaf?
  split
  · cases t.text? with
    | none => rfl
    | some value =>
      cases ts with
      | nil =>
        cases us with
        | nil => rfl
        | cons u us => simp [hus u rfl]
      | cons w ts =>
        simp only [List.cons_append, Option.map_some]
        split <;> rfl
  · cases t.number? <;> rfl
  · cases t.text? <;> rfl
  · rfl

/-- A modifier takes no number of what comes later. -/
theorem Apart.takeNumber {t : Token} {ts : List Token} (h : Apart (t :: ts) us)
    (ht : t.kind = .boost ∨ t.kind = .fuzzy) :
    takeNumber (ts ++ us) = ((takeNumber ts).1, (takeNumber ts).2 ++ us) := by
  cases ts with
  | nil =>
    cases us with
    | nil => rfl
    | cons u us =>
      have hu : u.kind ≠ .number := by
        rcases h.number with hhead | hlast
        · exact hhead u rfl
        · obtain ⟨hboost, hfuzzy⟩ := hlast t rfl
          exact absurd ht (by simp [hboost, hfuzzy])
      simp [Query.takeNumber, hu]
  | cons w ts =>
    simp only [List.cons_append, Query.takeNumber]
    split <;> rfl

theorem attachModifiers_append {ts : List Token} (h : Apart ts us) (limits : Limits) (n : Node) :
    attachModifiers limits n (ts ++ us) =
      ((attachModifiers limits n ts).1, (attachModifiers limits n ts).2 ++ us) := by
  have htail {t : Token} {ts : List Token} (h : Apart (t :: ts) us) :
      Apart (takeNumber ts).2 us :=
    h.of_suffix ((takeNumber_suffix ts).trans (List.suffix_cons t ts))
  fun_induction attachModifiers limits n ts with
  | case1 n =>
    cases us with
    | nil => rw [List.append_nil, attachModifiers]
    | cons u us =>
      exact attachModifiers_of_ne limits n us (h.head u rfl .boost (by simp))
        (h.head u rfl .fuzzy (by simp))
  | case2 n t ts hk ih =>
    rw [List.cons_append, attachModifiers]
    simp only [hk, h.takeNumber (.inl hk), ih (htail h)]
  | case3 n t ts hk node ih =>
    rw [List.cons_append, attachModifiers]
    simp only [hk, h.takeNumber (.inr hk)]
    exact ih (htail h)
  | case4 n t ts hboost hfuzzy => exact attachModifiers_of_ne limits n (ts ++ us) hboost hfuzzy

/-- What a reader makes of its tokens if others follow them. -/
def Progress.followedBy (p : Progress) (us : List Token) : Progress :=
  { p with rest := p.rest ++ us }

theorem finish_append {ts : List Token} (h : Apart ts us) (limits : Limits) (sign : Option Sign)
    (nodes : List Node) :
    finish limits sign nodes (ts ++ us) = (finish limits sign nodes ts).followedBy us := by
  have hlast (nodes : List Node) : attachToLast limits nodes (ts ++ us) =
      ((attachToLast limits nodes ts).1, (attachToLast limits nodes ts).2 ++ us) := by
    fun_induction attachToLast limits nodes ts with
    | case1 ts => rfl
    | case2 n ts => simp only [attachToLast, attachModifiers_append h]
    | case3 ts n nodes _ ih => simp [attachToLast, ih h]
  simp only [finish, hlast, Progress.followedBy]

end Apart

section LeftAlone

variable {us : List Token} (hus : LeftAlone us)

include hus

theorem LeftAlone.ne_wildcard : ∀ u ∈ us.head?, u.kind ≠ .wildcard :=
  fun u hu => hus.head u hu .wildcard (by simp)

theorem takeEquals_append (ts : List Token) :
    takeEquals (ts ++ us) = ((takeEquals ts).1, (takeEquals ts).2 ++ us) := by
  cases ts with
  | nil =>
    cases us with
    | nil => rfl
    | cons u us => simp [takeEquals, hus.head u rfl .equals (by simp)]
  | cons t ts =>
    simp only [List.cons_append, takeEquals]
    split <;> rfl

theorem dropFilterEnd_append (ts : List Token) :
    dropFilterEnd (ts ++ us) = dropFilterEnd ts ++ us := by
  cases ts with
  | nil =>
    cases us with
    | nil => rfl
    | cons u us => simp [dropFilterEnd, hus.head u rfl .filterEnd (by simp)]
  | cons t ts =>
    simp only [List.cons_append, dropFilterEnd]
    split <;> rfl

/-! ## Ranges -/

theorem hasRangeEnd_append (ts : List Token) : hasRangeEnd (ts ++ us) = hasRangeEnd ts := by
  have hend := hus.endless
  unfold hasRangeEnd at hend ⊢
  rw [List.find?_append]
  cases hfind : ts.find? fun t => t.kind.isRangeEnd || endsSearch t with
  | some t => rfl
  | none => simpa using hend

theorem readBound_append {ts : List Token} (h : HoldsRangeEnd ts) :
    readBound (ts ++ us) = ((readBound ts).1, (readBound ts).2 ++ us) ∧
      HoldsRangeEnd (readBound ts).2 := by
  obtain ⟨e, he, hkind⟩ := h
  cases ts with
  | nil => cases he
  | cons t ts =>
    have htail (hne : t.kind.isRangeEnd = false) : HoldsRangeEnd ts := by
      rcases List.mem_cons.mp he with rfl | he
      · simp [hkind] at hne
      · exact ⟨e, he, hkind⟩
    rw [List.cons_append, readBound, readBound, readLeaf?_append hus.ne_wildcard]
    split
    · rename_i hk
      exact ⟨rfl, htail (by simp [hk, Kind.isRangeEnd])⟩
    · split
      · rename_i hleaf
        have hts := htail (by cases hk : t.kind <;> simp_all [Kind.isLeaf, Kind.isRangeEnd])
        cases hread : readLeaf? t ts with
        | none => exact ⟨rfl, hts⟩
        | some p =>
          obtain ⟨l, rest⟩ := p
          refine ⟨rfl, ?_⟩
          rcases rest_of_readLeaf? hread with rfl | ⟨w, hw, rfl⟩
          · exact hts
          · obtain ⟨e, he, hkind⟩ := hts
            rcases List.mem_cons.mp he with rfl | he
            · simp [hw, Kind.isRangeEnd] at hkind
            · exact ⟨e, he, hkind⟩
      · exact ⟨rfl, e, he, hkind⟩

/-- A range is read up to its own end. -/
theorem readRange?_append (b : Bracket) (ts : List Token) :
    readRange? b (ts ++ us) = (readRange? b ts).map fun (r, rest) => (r, rest ++ us) := by
  unfold readRange?
  rw [hasRangeEnd_append hus]
  split
  · rename_i hend
    obtain ⟨hlower, hafter⟩ := readBound_append hus (holdsRangeEnd_of_hasRangeEnd hend)
    obtain ⟨hskip, hupper⟩ := skipToUpper_append hafter us
    obtain ⟨hread, hrest⟩ := readBound_append hus hupper
    simp only [hlower, hskip, hread, skipRangeEnd_append hrest us, Option.map_some]
  · rfl

/-! ## Filters -/

omit hus in
theorem passesOver_leaf (body : BodyParser) {t : Token} (hleaf : t.kind.isLeaf = true)
    (ts : List Token) :
    passesOver body (t :: ts) = ((readLeaf? t ts).isNone && passesOver body ts) := by
  rw [passesOver.eq_def]
  cases hk : t.kind <;> simp [hk, Kind.isLeaf] at hleaf ⊢

omit hus in
/-- A leaf is the value of a filter, if its token carries one. -/
theorem readFilter_leaf (body? : Option BodyParser) (field : Text) (sign : Option Sign)
    (comparison : Option Comparison) {t : Token} (hleaf : t.kind.isLeaf = true) (ts : List Token) :
    readFilter body? field sign comparison (t :: ts) =
      match readLeaf? t ts with
      | none => readFilter body? field sign comparison ts
      | some (l, rest) => ⟨[filterOn field comparison (.ofLeaf l)], sign, dropFilterEnd rest⟩ := by
  obtain ⟨kind, literal⟩ := t
  rw [readFilter.eq_def]
  cases kind with
  | word | number | text form => rfl
  | _ => simp [Kind.isLeaf] at hleaf

/-- Whether what follows some tokens is none of the filter that they may be in: a filter of its own
or the end of a subquery follows, or the filter does not pass over all of them. -/
def EndsBefore (body? : Option BodyParser) (ts us : List Token) : Prop :=
  (∀ u ∈ us.head?, u.kind = .filterStart ∨ u.kind = .subqueryEnd) ∨
    ∃ body ∈ body?, passesOver body ts = false

omit hus in
theorem EndsBefore.of_eq {body? : Option BodyParser} {ts ts' : List Token}
    (h : EndsBefore body? ts us)
    (hpass : ∀ body ∈ body?, passesOver body ts = passesOver body ts') :
    EndsBefore body? ts' us :=
  h.imp_right fun ⟨body, hbody, hts⟩ => ⟨body, hbody, hpass body hbody ▸ hts⟩

/-- Where subqueries are read, they all end. -/
def Closes (body? : Option BodyParser) (ts : List Token) : Prop :=
  body?.isSome = true →
    ∀ t us, t :: us <:+ ts → t.kind = .subqueryStart → ∃ u ∈ us, u.kind = .subqueryEnd

omit hus in
theorem Closes.of_suffix {body? : Option BodyParser} {ts us : List Token} (hts : Closes body? ts)
    (h : us <:+ ts) : Closes body? us :=
  fun hb t vs hv => hts hb t vs (hv.trans h)

omit hus in
theorem SelfContained.closes {ts : List Token} (h : SelfContained ts) (body? : Option BodyParser) :
    Closes body? ts :=
  fun _ => h.closed

/-- **A filter is read up to its own end**, unless it passes over all tokens to a word. -/
theorem readFilter_append {body? : Option BodyParser} (field : Text) (sign : Option Sign)
    (comparison : Option Comparison) {ts : List Token} (hts : Closes body? ts)
    (hends : EndsBefore body? ts us) :
    readFilter body? field sign comparison (ts ++ us) =
      (readFilter body? field sign comparison ts).followedBy us := by
  have htail {t : Token} {ts : List Token} (hts : Closes body? (t :: ts)) : Closes body? ts :=
    hts.of_suffix (List.suffix_cons t ts)
  fun_induction readFilter body? field sign comparison ts with
  | case1 sign comparison =>
    cases us with
    | nil => rw [List.append_nil, readFilter]; rfl
    | cons u us =>
      have hk : u.kind = .filterStart ∨ u.kind = .subqueryEnd := by
        rcases hends with h | ⟨body, -, h⟩
        · exact h u rfl
        · simp [passesOver] at h
      rw [List.nil_append, readFilter.eq_def]
      rcases hk with hk | hk <;> simp [hk, Kind.isLeaf, Progress.followedBy]
  | case2 sign comparison t ts hk =>
    rw [List.cons_append, readFilter.eq_def]
    simp [hk, Progress.followedBy]
  | case3 sign comparison t ts s hk ih | case6 sign comparison t ts hk ih =>
    have hends' : EndsBefore body? ts us := hends.of_eq fun body _ => by
      rw [passesOver.eq_def]
      simp [hk]
    rw [← ih (htail hts) hends', List.cons_append, readFilter.eq_def]
    simp [hk]
  | case4 sign comparison t ts hk equals ih | case5 sign comparison t ts hk equals ih =>
    have hends' : EndsBefore body? (takeEquals ts).2 us := hends.of_eq fun body _ => by
      rw [passesOver.eq_def]
      simp [hk]
    rw [← ih ((htail hts).of_suffix (takeEquals_suffix ts)) hends', List.cons_append,
      readFilter.eq_def]
    simp [hk, takeEquals_append hus, equals]
  -- a subquery: where there are none, where it is empty, and where it is the value
  | case7 sign comparison t ts hk hnone =>
    subst hnone
    rw [List.cons_append, readFilter.eq_def]
    simp [hk, Progress.followedBy]
  | case8 sign comparison t ts hk body hb hnil ih =>
    subst hb
    obtain ⟨hspan, hafter⟩ :=
      subqueryBody_append_of_mem (hts rfl t ts (List.suffix_refl _) hk) us
    have hends' : EndsBefore (some body) (afterSubquery ts) us := hends.of_eq fun body' hb' => by
      obtain rfl := Option.some.inj hb'
      rw [passesOver.eq_def]
      simp [hk, hnil]
    rw [← ih ((htail hts).of_suffix (afterSubquery_suffix ts)) hends', List.cons_append,
      readFilter.eq_def]
    simp [hk, hspan, hafter, hnil]
  | case9 sign comparison t ts hk body hb hne =>
    subst hb
    obtain ⟨hspan, hafter⟩ :=
      subqueryBody_append_of_mem (hts rfl t ts (List.suffix_refl _) hk) us
    rw [List.cons_append, readFilter.eq_def]
    simp only [hk, hspan, hafter, dropFilterEnd_append hus]
    rfl
  -- a range: without an end, as the values of its bounds, and as one
  | case10 sign comparison t ts b hk hnone ih =>
    have hends' : EndsBefore body? ts us := hends.of_eq fun body _ => by
      rw [passesOver.eq_def]
      simp [hk, hnone]
    rw [← ih (htail hts) hends', List.cons_append, readFilter.eq_def]
    simp [hk, readRange?_append hus, hnone]
  | case11 sign comparison t ts b hk ls rest hrange
  | case12 sign comparison t ts b hk i rest hrange =>
    rw [List.cons_append, readFilter.eq_def]
    simp [hk, readRange?_append hus, hrange, dropFilterEnd_append hus, Progress.followedBy]
  -- a leaf: without a value of its kind, and with one
  | case13 sign comparison t ts hread _ _ _ _ _ _ _ hleaf ih =>
    have hends' : EndsBefore body? ts us := hends.of_eq fun body _ => by
      rw [passesOver_leaf body hleaf, hread]
      rfl
    rw [← ih (htail hts) hends', List.cons_append, readFilter_leaf _ _ _ _ hleaf,
      readLeaf?_append hus.ne_wildcard, hread]
    rfl
  | case14 sign comparison t ts l rest hread _ _ _ _ _ _ _ hleaf =>
    rw [List.cons_append, readFilter_leaf _ _ _ _ hleaf, readLeaf?_append hus.ne_wildcard, hread]
    simp [dropFilterEnd_append hus, Progress.followedBy]
  | case15 sign comparison t ts =>
    rw [List.cons_append, readFilter.eq_def]
    cases hk : t.kind <;> simp_all [Kind.isLeaf, Progress.followedBy]

end LeftAlone

/-! ## Sequences -/

variable {us : List Token} {limits : Limits}

/-- A step takes nothing of what comes later that is apart from it, if the subqueries that it may
read have ended. Of ranges and filters nothing at all may reach into what comes later. -/
theorem step_append {body? : Option BodyParser} (sign : Option Sign) {t : Token} {ts : List Token}
    (h : Apart (t :: ts) us)
    (hsubquery : body?.isSome = true → t.kind = .subqueryStart → ∃ u ∈ ts, u.kind = .subqueryEnd)
    (hrange : ∀ b, t.kind = .rangeStart b → LeftAlone us)
    (hfilter : t.kind = .filterStart → LeftAlone us ∧ Closes body? ts ∧ EndsBefore body? ts us) :
    step limits body? sign t (ts ++ us) = (step limits body? sign t ts).followedBy us := by
  have htail {rest : List Token} (hsuffix : rest <:+ ts) : Apart rest us :=
    h.of_suffix (hsuffix.trans (List.suffix_cons t ts))
  unfold step
  split
  · rfl
  · rfl
  · rfl
  · rfl
  · rename_i hk
    split
    · rfl
    · obtain ⟨hspan, hafter⟩ := subqueryBody_append_of_mem (hsubquery rfl hk) us
      simp only [hspan, hafter, finish_append (htail (afterSubquery_suffix ts))]
  · rename_i hk
    obtain ⟨hus, hcloses, hends⟩ := hfilter hk
    simp only [readFilter_append hus _ sign none hcloses hends]
    exact finish_append (hus.apart _) _ _ _
  · rename_i b hk
    rw [readRange?_append (hrange b hk)]
    cases readRange? b ts with
    | none => rfl
    | some p => exact finish_append ((hrange b hk).apart _) _ _ _
  · rename_i hk
    simp only [h.takeNumber (.inl hk)]
    rfl
  · rename_i hk
    simp only [h.takeNumber (.inr hk)]
    rfl
  · rw [readLeaf?_append fun u hu => h.head u hu .wildcard (by simp)]
    cases hread : readLeaf? t ts with
    | none => rfl
    | some p => exact finish_append (htail (readLeaf?_suffix hread)) _ _ _

/-- A step takes nothing of what is left alone. -/
theorem LeftAlone.step_append (hus : LeftAlone us) {body? : Option BodyParser} (sign : Option Sign)
    {t : Token} {ts : List Token} (hts : Closes body? (t :: ts))
    (hends : t.kind = .filterStart → EndsBefore body? ts us) :
    step limits body? sign t (ts ++ us) = (step limits body? sign t ts).followedBy us :=
  Query.step_append sign (hus.apart _) (fun hbody => hts hbody t ts (List.suffix_refl _))
    (fun _ _ => hus) fun hk => ⟨hus, hts.of_suffix (List.suffix_cons t ts), hends hk⟩

section StartsPart

variable (hus : StartsPart us)

include hus

omit hus in
/-- No sign waits after a step over a token that is none. -/
theorem sign_step {body? : Option BodyParser} {t : Token} (ht : ∀ sign, t.kind ≠ .sign sign)
    (ts : List Token) : (step limits body? none t ts).sign = none := by
  unfold step
  split
  · rename_i s hk
    exact absurd hk (ht s)
  · rfl
  · rfl
  · rfl
  · split <;> rfl
  · rfl
  · split <;> rfl
  · rfl
  · rfl
  · split <;> rfl

/-- **A query may be parsed in parts.** Tokens without signs, whose subqueries have ended, stand
for the same whatever part follows them, unless a word follows an open filter. -/
theorem parseTokens_append {ts : List Token} (hts : SelfContained ts)
    (hends : (∀ u ∈ us.head?, u.kind = .filterStart) ∨ leavesFilterOpen limits ts = false) :
    parseTokens limits (ts ++ us) = parseTokens limits ts ++ parseTokens limits us := by
  -- no step leaves a sign, so that each one starts as the first does
  unfold parseTokens
  generalize hsign : none = sign
  fun_induction sequence limits (some (parseBody limits)) sign ts with
  | case1 sign => rfl
  | case2 sign t ts p ih =>
    subst hsign
    have hsuffix : p.rest <:+ t :: ts :=
      (step_suffix limits (some (parseBody limits)) none t ts).trans (List.suffix_cons t ts)
    have hfilter : t.kind = .filterStart → EndsBefore (some (parseBody limits)) ts us := by
      intro hk
      refine hends.imp (fun h u hu => .inl (h u hu)) fun hopen => ?_
      simp only [leavesFilterOpen, hk, beq_self_eq_true, Bool.true_and,
        Bool.or_eq_false_iff] at hopen
      exact ⟨parseBody limits, rfl, hopen.1⟩
    have hstep : step limits (some (parseBody limits)) none t (ts ++ us) = p.followedBy us :=
      hus.leftAlone.step_append none (hts.closes _) hfilter
    have hsign : p.sign = none := sign_step (hts.unsigned t (by simp)) ts
    have hrest := ih (hts.of_suffix hsuffix)
      (hends.imp_right (leavesFilterOpen_of_suffix hsuffix)) hsign.symm
    have hpart : sequence limits (some (parseBody limits)) p.sign us =
        sequence limits (some (parseBody limits)) none us := by rw [hsign]
    rw [hpart] at hrest
    rw [List.cons_append, sequence, hstep, List.append_assoc, ← hrest]
    rfl

end StartsPart

/-! ## A word after an open filter -/

/-- Tokens that a filter passes over hold no end of a range. -/
theorem hasRangeEnd_of_passesOver {body : BodyParser} {ts : List Token}
    (h : passesOver body ts = true) : hasRangeEnd ts = false := by
  -- a token either ends the search for the end of a range or is passed over by it as well
  have hskip {t : Token} (hk : t.kind.isRangeEnd = false) (he : endsSearch t = false)
      (ts : List Token) : hasRangeEnd (t :: ts) = hasRangeEnd ts := by
    simp [hasRangeEnd, hk, he]
  have hstop {t : Token} (hk : t.kind.isRangeEnd = false) (he : endsSearch t = true)
      (ts : List Token) : hasRangeEnd (t :: ts) = false := by
    simp [hasRangeEnd, hk, he]
  have hequals (ts : List Token) : hasRangeEnd (takeEquals ts).2 = hasRangeEnd ts := by
    cases ts with
    | nil => rfl
    | cons t ts =>
      rw [takeEquals]
      split
      · rename_i hk
        rw [hskip] <;> simp [hk, Kind.isRangeEnd, endsSearch]
      · rfl
  fun_induction passesOver body ts with
  | case1 => rfl
  | case2 t ts s hk ih | case3 t ts hk ih =>
    rw [hskip, ih h] <;> simp [hk, Kind.isRangeEnd, endsSearch]
  | case4 t ts hk ih | case5 t ts hk ih =>
    rw [hskip, ← hequals, ih h] <;> simp [hk, Kind.isRangeEnd, endsSearch]
  | case6 t ts hk ih | case7 t ts b hk ih =>
    rw [hstop] <;> simp [hk, Kind.isRangeEnd, endsSearch]
  | case8 t ts _ _ _ _ _ _ ih =>
    simp only [Bool.and_eq_true] at h
    have hleaf : t.kind.isLeaf = true := h.1.1
    rw [hskip, ih h.2] <;>
      cases hk : t.kind <;> simp [hk, Kind.isLeaf, Kind.isRangeEnd, endsSearch] at hleaf ⊢

theorem startsPart_word (w : Text) : StartsPart [.ofText .word w] :=
  ⟨⟨_, [], rfl, .inl rfl⟩, rfl⟩

/-- **An open filter takes the word after it.** -/
theorem readFilter_of_passesOver {body : BodyParser} (field : Text)
    (comparison : Option Comparison) {ts : List Token} (hts : SelfContained ts)
    (h : passesOver body ts = true) (w : Text) :
    readFilter (some body) field none comparison ts = ⟨[], none, []⟩ ∧
      ∃ c, readFilter (some body) field none comparison (ts ++ [.ofText .word w]) =
        ⟨[filterOn field c (.ofLeaf (.word w false))], none, []⟩ := by
  have hword := (startsPart_word w).leftAlone
  fun_induction passesOver body ts generalizing comparison with
  | case1 =>
    refine ⟨by rw [readFilter], comparison, ?_⟩
    rw [List.nil_append, readFilter_leaf _ _ _ _ rfl]
    rfl
  | case2 t ts s hk ih => exact absurd hk (hts.unsigned t (by simp) s)
  | case3 t ts hk ih =>
    obtain ⟨hnone, c, hsome⟩ := ih comparison hts.tail h
    refine ⟨?_, c, ?_⟩
    · rw [readFilter.eq_def]
      simpa [hk] using hnone
    · rw [List.cons_append, readFilter.eq_def]
      simpa [hk] using hsome
  | case4 t ts hk ih =>
    obtain ⟨hnone, c, hsome⟩ := ih (some (comparisonOf true (takeEquals ts).1))
      (hts.tail.of_suffix (takeEquals_suffix ts)) h
    refine ⟨?_, c, ?_⟩
    · rw [readFilter.eq_def]
      simpa [hk] using hnone
    · rw [List.cons_append, readFilter.eq_def]
      simpa [hk, takeEquals_append hword] using hsome
  | case5 t ts hk ih =>
    obtain ⟨hnone, c, hsome⟩ := ih (some (comparisonOf false (takeEquals ts).1))
      (hts.tail.of_suffix (takeEquals_suffix ts)) h
    refine ⟨?_, c, ?_⟩
    · rw [readFilter.eq_def]
      simpa [hk] using hnone
    · rw [List.cons_append, readFilter.eq_def]
      simpa [hk, takeEquals_append hword] using hsome
  | case6 t ts hk ih =>
    simp only [Bool.and_eq_true, List.isEmpty_iff] at h
    obtain ⟨hspan, hafter⟩ := subqueryBody_append_of_mem (hts.closed t ts (List.suffix_refl _) hk)
      [.ofText .word w]
    obtain ⟨hnone, c, hsome⟩ := ih comparison (hts.tail.of_suffix (afterSubquery_suffix ts)) h.2
    refine ⟨?_, c, ?_⟩
    · rw [readFilter.eq_def]
      simpa [hk, h.1] using hnone
    · rw [List.cons_append, readFilter.eq_def]
      simpa [hk, hspan, hafter, h.1] using hsome
  | case7 t ts b hk ih =>
    simp only [Bool.and_eq_true, Option.isNone_iff_eq_none] at h
    obtain ⟨hnone, c, hsome⟩ := ih comparison hts.tail h.2
    refine ⟨?_, c, ?_⟩
    · rw [readFilter.eq_def]
      simpa [hk, h.1] using hnone
    · rw [List.cons_append, readFilter.eq_def]
      simpa [hk, readRange?_append hword, h.1] using hsome
  | case8 t ts _ _ _ _ _ _ ih =>
    simp only [Bool.and_eq_true, Option.isNone_iff_eq_none] at h
    obtain ⟨⟨hleaf, hread⟩, hpass⟩ := h
    obtain ⟨hnone, c, hsome⟩ := ih comparison hts.tail hpass
    refine ⟨?_, c, ?_⟩
    · rw [readFilter_leaf _ _ _ _ hleaf, hread]
      exact hnone
    · rw [List.cons_append, readFilter_leaf _ _ _ _ hleaf, readLeaf?_append hword.ne_wildcard, hread]
      exact hsome

/-- A word after tokens without an open filter is a node of its own. -/
theorem parseTokens_append_word {limits : Limits} {ts : List Token} (hts : SelfContained ts)
    (hopen : leavesFilterOpen limits ts = false) (w : Text) :
    parseTokens limits (ts ++ [.ofText .word w]) =
      parseTokens limits ts ++ [.ofLeaf (.word w false)] := by
  have hword : parseTokens limits [.ofText .word w] = [.ofLeaf (.word w false)] := by
    have hstep : step limits (some (parseBody limits)) none (.ofText .word w) [] =
        finish limits none [.ofLeaf (.word w false)] [] := rfl
    rw [parseTokens, sequence, hstep]
    simp [finish, signFirst, attachToLast, attachModifiers, sequence, Node.ofLeaf, Node.withSign,
      Node.withModifiers, Node.modifiers]
  rw [parseTokens_append (startsPart_word w) hts (.inr hopen), hword]

/-- A word after an open filter becomes its value. -/
theorem parseTokens_append_word_of_open {limits : Limits} {ts : List Token}
    (hts : SelfContained ts)
    (hparts : ∀ before t after, ts = before ++ t :: after → t.kind = .filterStart →
      SelfContained before)
    (hopen : leavesFilterOpen limits ts = true) (w : Text) :
    ∃ field c, parseTokens limits (ts ++ [.ofText .word w]) =
      parseTokens limits ts ++ [filterOn field c (.ofLeaf (.word w false))] := by
  obtain ⟨before, t, after, rfl, hk, hpass⟩ := exists_of_leavesFilterOpen hopen
  have hbefore : SelfContained before := hparts before t after rfl hk
  have hafter : SelfContained after :=
    hts.of_suffix ((List.suffix_cons t after).trans (List.suffix_append before _))
  obtain ⟨hnone, c, hsome⟩ :=
    readFilter_of_passesOver (t.text?.getD []) none hafter hpass w
  -- the open filter is a part of its own, with the word and without it
  have hfilter (us : List Token) (hend : hasRangeEnd (after ++ us) = false) :
      parseTokens limits (before ++ t :: (after ++ us)) =
        parseTokens limits before ++ parseTokens limits (t :: (after ++ us)) := by
    refine parseTokens_append ⟨⟨t, _, rfl, .inr hk⟩, ?_⟩ hbefore (.inl (by simpa using hk))
    simpa [hasRangeEnd, hk, Kind.isRangeEnd, endsSearch] using hend
  have hrange : hasRangeEnd after = false := hasRangeEnd_of_passesOver hpass
  have hstep (us : List Token) : step limits (some (parseBody limits)) none t us =
      finish limits (readFilter (some (parseBody limits)) (t.text?.getD []) none none us).sign
        (readFilter (some (parseBody limits)) (t.text?.getD []) none none us).nodes
        (readFilter (some (parseBody limits)) (t.text?.getD []) none none us).rest := by
    simp [step, hk]
  have hempty : parseTokens limits (t :: after) = [] := by
    rw [parseTokens, sequence, hstep, hnone]
    simp [finish, signFirst, attachToLast, sequence]
  have hvalue : parseTokens limits (t :: (after ++ [.ofText .word w])) =
      [filterOn (t.text?.getD []) c (.ofLeaf (.word w false))] := by
    rw [parseTokens, sequence, hstep, hsome]
    simp [finish, signFirst, attachToLast, attachModifiers, sequence, filterOn, Node.withSign,
      Node.withModifiers, Node.modifiers]
  refine ⟨t.text?.getD [], c, ?_⟩
  have hshort := hfilter [] (by simpa using hrange)
  have hlong := hfilter [.ofText .word w]
    (by rw [hasRangeEnd_append (startsPart_word w).leftAlone, hrange])
  rw [List.append_nil, hempty, List.append_nil] at hshort
  rw [List.append_assoc, List.cons_append, hlong, hvalue, hshort]

end SearchLang.Query
