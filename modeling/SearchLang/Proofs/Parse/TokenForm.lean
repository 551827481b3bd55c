import SearchLang.Node.Canonical
import SearchLang.Proofs.Node.TokenKinds
import SearchLang.Query.Parse

/-!
# Parsing token forms

A canonical tree is what its tokens parse to, whatever tokens come next: each
construct takes its own tokens and leaves no sign behind. Tokens that come next
can only touch the last node, which takes a wildcard if it is a bare word, and
boosts and fuzzies; `absorb` says how.
-/

namespace SearchLang.Query

/-! ## What a node takes of the tokens after it -/

/-- A word without a wildcard and without amounts takes a wildcard directly after it. -/
def takeWildcard : Node → List Token → Node × List Token
  | .leaf (.word value false) m, t :: ts =>
    if t.kind = .wildcard ∧ m.boost = none ∧ m.fuzzy = none then
      (.leaf (.word value true) m, ts)
    else
      (.leaf (.word value false) m, t :: ts)
  | n, ts => (n, ts)

/-- What a node takes of the tokens after it. -/
def absorbOne (limits : Limits) (n : Node) (ts : List Token) : Node × List Token :=
  attachModifiers limits (takeWildcard n ts).1 (takeWildcard n ts).2

/-- What the last of some nodes takes of the tokens after it. -/
def absorb (limits : Limits) : List Node → List Token → List Node × List Token
  | [], ts => ([], ts)
  | [n], ts => ([(absorbOne limits n ts).1], (absorbOne limits n ts).2)
  | n :: ns, ts => (n :: (absorb limits ns ts).1, (absorb limits ns ts).2)

/-- Whether a node takes a token directly after it. -/
def extendsNode (n : Node) (t : Token) : Bool :=
  match t.kind with
  | .boost | .fuzzy => true
  | .wildcard =>
    match n with
    | .leaf (.word _ false) m => m.boost.isNone && m.fuzzy.isNone
    | _ => false
  | _ => false

/-- Whether the last of some nodes takes nothing of the tokens after it. -/
def standsApart (ns : List Node) (ts : List Token) : Bool :=
  match ns.getLast?, ts.head? with
  | some n, some t => !extendsNode n t
  | _, _ => true

theorem takeWildcard_of_not_extends {n : Node} {t : Token} (ts : List Token)
    (h : extendsNode n t = false) : takeWildcard n (t :: ts) = (n, t :: ts) := by
  unfold takeWildcard
  split
  · rename_i value m t' ts' heq
    obtain ⟨rfl, rfl⟩ := List.cons.inj heq
    split
    · rename_i hw
      simp [extendsNode, hw] at h
    · rfl
  · rfl

theorem absorbOne_of_not_extends (limits : Limits) {n : Node} {t : Token} (ts : List Token)
    (h : extendsNode n t = false) : absorbOne limits n (t :: ts) = (n, t :: ts) := by
  unfold absorbOne
  rw [takeWildcard_of_not_extends ts h]
  refine attachModifiers_of_ne limits n ts ?_ ?_ <;>
    · intro hk
      simp [extendsNode, hk] at h

theorem absorbOne_nil (limits : Limits) (n : Node) : absorbOne limits n [] = (n, []) := by
  unfold absorbOne takeWildcard
  split
  · simp_all
  · simp [attachModifiers]

/-- Where the last node takes nothing, the nodes and the tokens stay as they are. -/
theorem absorb_of_standsApart (limits : Limits) {ns : List Node} {ts : List Token}
    (h : standsApart ns ts = true) : absorb limits ns ts = (ns, ts) := by
  fun_induction absorb limits ns ts with
  | case1 ts => rfl
  | case2 n ts =>
    cases ts with
    | nil => simp [absorbOne_nil]
    | cons t ts =>
      have hn : extendsNode n t = false := by simpa [standsApart] using h
      simp [absorbOne_of_not_extends limits ts hn]
  | case3 n ns ts hns ih =>
    cases ns with
    | nil => exact absurd rfl hns
    | cons m ns =>
      have htail : standsApart (m :: ns) ts = true := by
        simpa [standsApart, List.getLast?_cons_cons] using h
      rw [ih htail]

/-! ## Leaves and ranges -/

/-- A leaf is read from its tokens; a wildcard after a word without one would go with it. -/
theorem readLeaf?_tokens (l : Leaf) (rest : List Token)
    (h : ∀ value, l = .word value false → ∀ t ∈ rest.head?, t.kind ≠ .wildcard) :
    ∃ t ts, l.tokens ++ rest = t :: ts ∧ t.kind.isLeaf = true ∧ readLeaf? t ts = some (l, rest) := by
  cases l with
  | word value wildcard =>
    cases wildcard with
    | true => exact ⟨_, _, rfl, rfl, by simp [readLeaf?]⟩
    | false =>
      refine ⟨_, _, rfl, rfl, ?_⟩
      cases rest with
      | nil => simp [readLeaf?]
      | cons t rest =>
        have ht : t.kind ≠ .wildcard := h value rfl t rfl
        simp [readLeaf?, ht]
  | number value => exact ⟨_, _, rfl, rfl, by simp [readLeaf?]⟩
  | text form value => exact ⟨_, _, rfl, rfl, by simp [readLeaf?]⟩

/-- A bound reads back if its token is read as its leaf before tokens that are no wildcard. -/
theorem readBound_getD {α : Type} (bound : α → Token) (leaf : α → Leaf)
    (hleaf : ∀ a, (bound a).kind.isLeaf = true)
    (hread : ∀ a t ts, t.kind ≠ .wildcard → readLeaf? (bound a) (t :: ts) = some (leaf a, t :: ts))
    (side : Option α) {t : Token} (ts : List Token) (ht : t.kind ≠ .wildcard) :
    readBound ((side.map bound).getD (.mark .wildcard) :: t :: ts) = (side.map leaf, t :: ts) := by
  cases side with
  | none => simp [readBound]
  | some a =>
    have hne : (bound a).kind ≠ .wildcard := by
      intro hw
      have := hleaf a
      simp [hw, Kind.isLeaf] at this
    simp [readBound, hne, hleaf a, hread a t ts ht]

/-- The tokens between the brackets of a range are read up to its end. -/
theorem readRange?_range {α : Type} (bound : α → Token) (leaf : α → Leaf)
    (hleaf : ∀ a, (bound a).kind.isLeaf = true)
    (hread : ∀ a t ts, t.kind ≠ .wildcard → readLeaf? (bound a) (t :: ts) = some (leaf a, t :: ts))
    (r : Range α) (rest : List Token) :
    readRange? r.bracket ((r.tokens bound).tail ++ rest) =
      some (.ofBounds (r.lower.map leaf) (r.upper.map leaf) r.exclusive, rest) := by
  have hside (side : Option α) : ((side.map bound).getD (.mark .wildcard)).kind.isLeaf = true ∨
      (side.map bound).getD (.mark .wildcard) = .mark .wildcard := by
    cases side with
    | none => exact .inr rfl
    | some a => exact .inl (hleaf a)
  have hnot (side : Option α) (t : Token)
      (ht : t = (side.map bound).getD (.mark .wildcard)) :
      (t.kind.isRangeEnd || endsSearch t) = false := by
    rcases ht ▸ hside side with h | h
    · cases hk : t.kind <;> simp_all [Kind.isLeaf, Kind.isRangeEnd, endsSearch]
    · rw [h]
      rfl
  -- the search for the end of the range passes over both bounds
  have hend : hasRangeEnd ((r.tokens bound).tail ++ rest) = true := by
    simp only [Range.tokens, List.tail_cons, List.cons_append, List.nil_append, hasRangeEnd,
      List.find?_cons, hnot r.lower _ rfl, hnot r.upper _ rfl]
    rfl
  have hexclusive : (r.bracket == .exclusive) = r.exclusive := by
    unfold Range.bracket
    cases r.exclusive <;> rfl
  have hlower := readBound_getD bound leaf hleaf hread r.lower
    ((r.upper.map bound).getD (.mark .wildcard) :: .mark (.rangeEnd r.bracket) :: rest)
    (t := .mark .upTo) (by simp)
  have hupper := readBound_getD bound leaf hleaf hread r.upper rest
    (t := .mark (.rangeEnd r.bracket)) (by simp)
  unfold readRange?
  rw [if_pos hend]
  simp only [Range.tokens, List.tail_cons, List.cons_append, List.nil_append] at hlower ⊢
  rw [hlower]
  simp [skipToUpper, hupper, skipRangeEnd, hexclusive, Kind.isRangeEnd]

/-- The leaf that the token of a bound of a word range stands for. -/
def wordBoundLeaf (quoted : Text → Bool) (s : Text) : Leaf :=
  if quoted s then .text .phrase s else .word s false

theorem text?_wordBoundLeaf (quoted : Text → Bool) (s : Text) :
    (wordBoundLeaf quoted s).text? = some s := by
  unfold wordBoundLeaf
  split <;> rfl

theorem boundClass?_wordBoundLeaf (quoted : Text → Bool) (s : Text) :
    boundClass? (wordBoundLeaf quoted s) = some .word := by
  unfold wordBoundLeaf
  split <;> rfl

/-- Bounds of one type share it. -/
theorem sharedClass?_map {α : Type} (leaf : α → Leaf) {c : BoundClass}
    (hc : ∀ a, boundClass? (leaf a) = some c) {r : Range α} (h : r.hasBound = true) :
    sharedClass? (r.lower.map leaf) (r.upper.map leaf) = some c := by
  obtain ⟨lower, upper, exclusive⟩ := r
  cases lower <;> cases upper <;> simp_all [sharedClass?, Range.hasBound]

theorem of?_of_hasBound {α : Type} {r : Range α} (h : r.hasBound = true) :
    Range.of? r.lower r.upper r.exclusive = some r := by
  unfold Range.of?
  rw [if_neg]
  cases hl : r.lower <;> cases hu : r.upper <;> simp_all [Range.hasBound]

/-- A range with a bound is read back from its tokens. -/
theorem readRange?_tokens (quoted : Text → Bool) {i : Interval} (h : i.hasBound = true)
    (rest : List Token) :
    ∃ b ts, i.tokens quoted ++ rest = .mark (.rangeStart b) :: ts ∧
      readRange? b ts = some (.interval i, rest) := by
  cases i with
  | words r =>
    refine ⟨r.bracket, (r.tokens (.ofWordBound quoted)).tail ++ rest, rfl, ?_⟩
    have hleaf (s : Text) : (Token.ofWordBound quoted s).kind.isLeaf = true := by
      simp only [Token.ofWordBound]
      split <;> rfl
    have hread (s : Text) (t : Token) (ts : List Token) (ht : t.kind ≠ .wildcard) :
        readLeaf? (.ofWordBound quoted s) (t :: ts) = some (wordBoundLeaf quoted s, t :: ts) := by
      unfold Token.ofWordBound wordBoundLeaf
      split <;> simp [readLeaf?, ht]
    rw [readRange?_range (.ofWordBound quoted) (wordBoundLeaf quoted) hleaf hread r rest]
    have hclass := sharedClass?_map _ (boundClass?_wordBoundLeaf quoted) h
    have htext (side : Option Text) : (side.map (wordBoundLeaf quoted)).bind Leaf.text? = side := by
      cases side <;> simp [text?_wordBoundLeaf]
    simp [RangeReading.ofBounds, interval?, hclass, htext, of?_of_hasBound h]
  | numbers r =>
    refine ⟨r.bracket, (r.tokens .ofNumber).tail ++ rest, rfl, ?_⟩
    rw [readRange?_range .ofNumber .number (fun _ => rfl) (fun _ _ _ _ => by simp [readLeaf?]) r rest]
    have hclass := sharedClass?_map Leaf.number (fun _ => rfl) h
    have hnumber (side : Option Number) : (side.map Leaf.number).bind Leaf.number? = side := by
      cases side <;> rfl
    simp [RangeReading.ofBounds, interval?, hclass, hnumber, of?_of_hasBound h]
  | dates r =>
    refine ⟨r.bracket, (r.tokens (.ofText (.text .date))).tail ++ rest, rfl, ?_⟩
    rw [readRange?_range (.ofText (.text .date)) (.text .date) (fun _ => rfl)
      (fun _ _ _ _ => by simp [readLeaf?]) r rest]
    have hclass := sharedClass?_map (Leaf.text .date) (fun _ => rfl) h
    have htext (side : Option Text) : (side.map (Leaf.text .date)).bind Leaf.text? = side := by
      cases side <;> rfl
    simp [RangeReading.ofBounds, interval?, hclass, htext, of?_of_hasBound h]

/-! ## Amounts -/

theorem isFinite_validate (l : Limits) :
    l.validate.maxBoost.isFinite = true ∧ l.validate.maxFuzzy.isFinite = true :=
  ⟨Limits.isFinite_sane _ rfl, Limits.isFinite_sane _ rfl⟩

/-- An amount between zero and a finite maximum is not changed. -/
theorem clamp_of_allowsAmount {default max n : Number} (hmax : max.isFinite = true)
    (h : Limits.allowsAmount max (some n) = true) : Limits.clamp default max (some n) = n := by
  have hfinite := Limits.isFinite_of_allowsAmount hmax h
  simp only [Limits.allowsAmount, Bool.and_eq_true, Bool.not_eq_true'] at h
  obtain ⟨hnonneg, hle⟩ := h
  cases n with
  | nan => simp [Number.isFinite] at hfinite
  | infinite negative => simp [Number.isFinite] at hfinite
  | finite negative m =>
    have hzero : Number.lt (.finite negative m) .zero = false := by
      simp only [Number.isNonneg, Bool.or_eq_true, Bool.not_eq_true', beq_iff_eq] at hnonneg
      cases negative <;>
        simp_all [Number.lt, Number.zero, Number.signed, Magnitude.zero]
    simp [Limits.clamp, Number.isFinite, Number.maximum, Number.minimum, hzero, hle]

/-- Limits that leave the amounts they allow as they are. -/
structure Steady (limits : Limits) : Prop where
  boost : ∀ n, Limits.allowsAmount limits.maxBoost (some n) = true → limits.boost (some n) = n
  fuzzy : ∀ n, Limits.allowsAmount limits.maxFuzzy (some n) = true → limits.fuzzy (some n) = n

theorem steady_validate (l : Limits) : Steady l.validate where
  boost := fun _ h => clamp_of_allowsAmount (isFinite_validate l).1 h
  fuzzy := fun _ h => clamp_of_allowsAmount (isFinite_validate l).2 h

variable {limits : Limits}

theorem attachModifiers_boost (n : Node) (b : Number) (ts : List Token) :
    attachModifiers limits n (.mark .boost :: .ofNumber b :: ts) =
      attachModifiers limits (n.withBoost (limits.boost (some b))) ts := by
  rw [attachModifiers]
  simp [takeNumber]

theorem attachModifiers_fuzzy {n : Node} (h : n.supportsFuzzy = true) (f : Number)
    (ts : List Token) :
    attachModifiers limits n (.mark .fuzzy :: .ofNumber f :: ts) =
      attachModifiers limits (n.withFuzzy (limits.fuzzy (some f))) ts := by
  rw [attachModifiers]
  simp [takeNumber, h]

/-- The amounts of a node are attached from its own tokens before any that follow. -/
theorem attachModifiers_trailTokens (hl : Steady limits) (n : Node) {m : Modifiers}
    (hm : limits.allows m = true) (hf : m.fuzzy.isSome = true → n.supportsFuzzy = true)
    (rest : List Token) :
    attachModifiers limits (n.withModifiers { sign := m.sign }) (m.trailTokens ++ rest) =
      attachModifiers limits (n.withModifiers m) rest := by
  obtain ⟨sign, boost, fuzzy⟩ := m
  simp only [Limits.allows, Bool.and_eq_true] at hm
  cases boost with
  | none =>
    cases fuzzy with
    | none => rfl
    | some f =>
      have hn : (n.withModifiers { sign := sign }).supportsFuzzy = true := by simpa using hf
      simp [Modifiers.trailTokens, attachModifiers_fuzzy hn, hl.fuzzy f hm.2, Node.withFuzzy]
  | some b =>
    cases fuzzy with
    | none => simp [Modifiers.trailTokens, attachModifiers_boost, hl.boost b hm.1, Node.withBoost]
    | some f =>
      have hn : (n.withModifiers { sign := sign, boost := b }).supportsFuzzy = true := by
        simpa using hf
      simp [Modifiers.trailTokens, attachModifiers_boost, hl.boost b hm.1, Node.withBoost,
        attachModifiers_fuzzy hn, hl.fuzzy f hm.2, Node.withFuzzy]

/-! ## Single nodes in a sequence -/

variable {body? : Option BodyParser}

/-- The sign of a node waits for it. -/
theorem sequence_leadTokens (m : Modifiers) (ts : List Token) :
    sequence limits body? none (m.leadTokens ++ ts) = sequence limits body? m.sign ts := by
  cases hs : m.sign with
  | none => simp [Modifiers.leadTokens, hs]
  | some sign => simp [Modifiers.leadTokens, hs, sequence_cons, step]

/-- A step that makes one node out of a construct hands it the sign, its own amounts, and what it
takes of the tokens that follow. -/
theorem sequence_of_step (hl : Steady limits) (n : Node) {t : Token} {ts : List Token}
    {m : Modifiers} {rest : List Token} (hm : limits.allows m = true)
    (hf : m.fuzzy.isSome = true → n.supportsFuzzy = true) (hn : n.modifiers = {})
    (h : step limits body? m.sign t ts = finish limits m.sign [n] (m.trailTokens ++ rest)) :
    sequence limits body? m.sign (t :: ts) =
      (attachModifiers limits (n.withModifiers m) rest).1 ::
        sequence limits body? none (attachModifiers limits (n.withModifiers m) rest).2 := by
  have hsign : n.withSign m.sign = n.withModifiers { sign := m.sign } := by
    simp [Node.withSign, hn]
  rw [sequence_cons, h]
  simp [finish, signFirst, attachToLast, hsign, attachModifiers_trailTokens hl n hm hf]

theorem step_of_readLeaf? {sign : Option Sign} {t : Token} {ts rest : List Token} {l : Leaf}
    (ht : t.kind.isLeaf = true) (h : readLeaf? t ts = some (l, rest)) :
    step limits body? sign t ts = finish limits sign [.ofLeaf l] rest := by
  unfold step
  cases hk : t.kind <;> simp_all [Kind.isLeaf]

/-- Either a leaf is a bare word that takes a wildcard, or it leaves the tokens after it alone. -/
theorem takeWildcard_cases (l : Leaf) (m : Modifiers) (rest : List Token) :
    (∃ value t ts, l = .word value false ∧ m.trailTokens = [] ∧ rest = t :: ts ∧
        t.kind = .wildcard ∧
        takeWildcard (.leaf l m) rest = (.leaf (.word value true) m, ts)) ∨
      (takeWildcard (.leaf l m) rest = (.leaf l m, rest) ∧
        ∀ value, l = .word value false → ∀ t ∈ (m.trailTokens ++ rest).head?, t.kind ≠ .wildcard) := by
  obtain ⟨sign, boost, fuzzy⟩ := m
  cases l with
  | number value => exact .inr ⟨rfl, by simp⟩
  | text form value => exact .inr ⟨rfl, by simp⟩
  | word value wildcard =>
    cases wildcard with
    | true => exact .inr ⟨rfl, by simp⟩
    | false =>
      cases rest with
      | nil =>
        refine .inr ⟨rfl, ?_⟩
        cases boost <;> cases fuzzy <;> simp [Modifiers.trailTokens]
      | cons t ts =>
        by_cases hw : t.kind = .wildcard ∧ boost = none ∧ fuzzy = none
        · obtain ⟨ht, rfl, rfl⟩ := hw
          exact .inl ⟨value, t, ts, rfl, rfl, rfl, ht, by simp [takeWildcard, ht]⟩
        · refine .inr ⟨by simp [takeWildcard, hw], ?_⟩
          cases boost <;> cases fuzzy <;> simp_all [Modifiers.trailTokens]

theorem sequence_leaf (hl : Steady limits) (quoted : Text → Bool) {l : Leaf} {m : Modifiers}
    (hshape : (Node.leaf l m).isWellShaped = true) (hm : limits.allows m = true)
    (rest : List Token) :
    sequence limits body? none ((Node.leaf l m).tokens quoted ++ rest) =
      (absorbOne limits (.leaf l m) rest).1 ::
        sequence limits body? none (absorbOne limits (.leaf l m) rest).2 := by
  have hf : m.fuzzy.isSome = true → l.supportsFuzzy = true := by
    intro h
    cases hfuzzy : m.fuzzy <;> simp_all [Node.isWellShaped]
  simp only [Node.tokens, List.append_assoc, sequence_leadTokens, absorbOne]
  rcases takeWildcard_cases l m rest with ⟨value, t, ts, rfl, htrail, rfl, ht, htake⟩ | ⟨htake, hnext⟩
  · -- the word and the wildcard after it are read as one leaf
    have hread : readLeaf? (.ofText .word value) (t :: ts) = some (.word value true, ts) := by
      simp [readLeaf?, ht]
    have hstep : step limits body? m.sign (.ofText .word value) (t :: ts) =
        finish limits m.sign [.ofLeaf (.word value true)] (m.trailTokens ++ ts) := by
      rw [htrail]
      exact step_of_readLeaf? rfl hread
    rw [htake, htrail]
    exact sequence_of_step hl (.ofLeaf (.word value true)) hm hf rfl hstep
  · obtain ⟨t, ts, htokens, ht, hread⟩ := readLeaf?_tokens l (m.trailTokens ++ rest) hnext
    rw [htake, htokens]
    exact sequence_of_step hl (.ofLeaf l) hm hf rfl (step_of_readLeaf? ht hread)

theorem sequence_range (hl : Steady limits) (quoted : Text → Bool) {i : Interval} {m : Modifiers}
    (hshape : (Node.range i m).isWellShaped = true) (hm : limits.allows m = true)
    (rest : List Token) :
    sequence limits body? none ((Node.range i m).tokens quoted ++ rest) =
      (absorbOne limits (.range i m) rest).1 ::
        sequence limits body? none (absorbOne limits (.range i m) rest).2 := by
  simp only [Node.isWellShaped, Bool.and_eq_true] at hshape
  obtain ⟨hfuzzy, hbound⟩ := hshape
  obtain ⟨b, ts, htokens, hread⟩ := readRange?_tokens quoted hbound (m.trailTokens ++ rest)
  simp only [Node.tokens, List.append_assoc, sequence_leadTokens]
  rw [htokens]
  have hstep : step limits body? m.sign (.mark (.rangeStart b)) ts =
      finish limits m.sign [.ofInterval i] (m.trailTokens ++ rest) := by
    simp [step, hread, RangeReading.nodes]
  exact sequence_of_step hl (.ofInterval i) hm (by simp_all) rfl hstep

/-! ## Filters -/

theorem dropFilterEnd_mark (rest : List Token) : dropFilterEnd (.mark .filterEnd :: rest) = rest := by
  simp [dropFilterEnd]

/-- A comparison before a value is read from its tokens. -/
theorem readFilter_comparison (field : Text) (sign : Option Sign) {comparison : Option Comparison}
    (hc : comparison ≠ some .eq) {t : Token} (ts : List Token) (ht : t.kind ≠ .equals) :
    readFilter body? field sign none ((comparison.map Comparison.tokens).getD [] ++ t :: ts) =
      readFilter body? field sign comparison (t :: ts) := by
  cases comparison with
  | none => rfl
  | some c =>
    cases c with
    | eq => exact absurd rfl hc
    | gt | gte | lt | lte =>
      simp only [Option.map_some, Option.getD_some, Comparison.tokens, List.cons_append,
        List.nil_append]
      rw [readFilter.eq_def]
      simp [takeEquals, ht, comparisonOf]

/-- The node that a filter is made of once its value is read. -/
theorem filterOn_of_admits {value : Node} {comparison : Option Comparison} (field : Text)
    (h : value.admitsComparison comparison = true) :
    filterOn field comparison value = .filter field comparison value {} := by
  unfold filterOn
  cases comparison with
  | none => simp
  | some c =>
    simp only [Node.admitsComparison, Bool.and_eq_true, Bool.not_eq_true'] at h
    simp [h.1]

/-! ## Tokens of a node -/

/-- A node starts with a token that the node before it, or a comparison, does not take. -/
theorem tokens_eq_cons (quoted : Text → Bool) (n : Node) :
    ∃ t ts, n.tokens quoted = t :: ts ∧
      t.kind ≠ .equals ∧ t.kind ≠ .wildcard ∧ t.kind ≠ .boost ∧ t.kind ≠ .fuzzy := by
  have hlead (m : Modifiers) (t : Token) (ts : List Token)
      (h : t.kind ≠ .equals ∧ t.kind ≠ .wildcard ∧ t.kind ≠ .boost ∧ t.kind ≠ .fuzzy) :
      ∃ t' ts', m.leadTokens ++ t :: ts = t' :: ts' ∧
        t'.kind ≠ .equals ∧ t'.kind ≠ .wildcard ∧ t'.kind ≠ .boost ∧ t'.kind ≠ .fuzzy := by
    cases hs : m.sign with
    | none => exact ⟨t, ts, by simp [Modifiers.leadTokens, hs], h⟩
    | some sign => exact ⟨.mark (.sign sign), t :: ts, by simp [Modifiers.leadTokens, hs], by simp⟩
  cases n with
  | leaf l m =>
    obtain ⟨t, ts, hl, ht, -⟩ := readLeaf?_tokens l [.mark .filterEnd] (by simp)
    have htokens : ∃ ts, l.tokens = t :: ts := by
      cases l <;> simp_all [Leaf.tokens]
    obtain ⟨ts, hts⟩ := htokens
    simp only [Node.tokens, List.append_assoc, hts, List.cons_append]
    exact hlead m _ _ (by cases hk : t.kind <;> simp_all [Kind.isLeaf])
  | range i m =>
    simp only [Node.tokens, List.append_assoc]
    cases i <;> exact hlead m _ _ (by simp)
  | filter f c value m =>
    simp only [Node.tokens, List.append_assoc, List.cons_append]
    exact hlead m _ _ (by simp)
  | subquery ns m =>
    simp only [Node.tokens, List.append_assoc, List.cons_append]
    exact hlead m _ _ (by simp)

/-- Only a subquery has a subquery end among its tokens. -/
theorem kind_ne_subqueryEnd (quoted : Text → Bool) {n : Node} (h : n.holdsSubquery = false) :
    ∀ t ∈ n.tokens quoted, t.kind ≠ .subqueryEnd := by
  intro t ht hk
  have hwrites := n.writesTree_of_mem quoted t ht
  simp [hk, h, Kind.writesTree] at hwrites

theorem tokensList_ne_subqueryEnd (quoted : Text → Bool) {ns : List Node}
    (h : ns.any Node.holdsSubquery = false) :
    ∀ t ∈ Node.tokensList quoted ns, t.kind ≠ .subqueryEnd := by
  intro t ht
  rw [Node.tokensList_eq_flatMap, List.mem_flatMap] at ht
  obtain ⟨n, hn, ht⟩ := ht
  exact kind_ne_subqueryEnd quoted (by simpa using List.any_eq_false.mp h n hn) t ht

/-- The tokens up to a subquery end are its body, and those after it remain. -/
theorem subqueryBody_append {ts : List Token} (h : ∀ t ∈ ts, t.kind ≠ .subqueryEnd)
    (rest : List Token) :
    subqueryBody (ts ++ .mark .subqueryEnd :: rest) = ts ∧
      afterSubquery (ts ++ .mark .subqueryEnd :: rest) = rest := by
  have hp : ∀ t ∈ ts, (t.kind != .subqueryEnd) = true := by simpa using h
  constructor
  · simp [subqueryBody, List.takeWhile_append_of_pos hp]
  · simp [afterSubquery, List.dropWhile_append_of_pos hp]

/-! ## Whole trees -/

/-- How the body of a subquery must be read for its nodes to come back. Without a body parser
there are no subqueries. -/
structure ReadsBodies (limits : Limits) (quoted : Text → Bool) (body? : Option BodyParser) :
    Prop where
  body : ∀ body, body? = some body → ∀ ns : List Node, ns.all (Node.isCanonical limits) = true →
    ns.any Node.holdsSubquery = false → body (Node.tokensList quoted ns) = ns

/-- Whether a node may stand where subqueries are read by `body?`. -/
def fits (body? : Option BodyParser) (n : Node) : Bool :=
  body?.isSome || !n.holdsSubquery

theorem exists_body_of_fits {ns : List Node} {m : Modifiers}
    (h : fits body? (.subquery ns m) = true) : ∃ body, body? = some body := by
  cases body? with
  | none => simp [fits, Node.holdsSubquery] at h
  | some body => exact ⟨body, rfl⟩

variable {quoted : Text → Bool}

/-- The parts of a canonical subquery. -/
theorem of_isCanonical_subquery {ns : List Node} {m : Modifiers}
    (h : (Node.subquery ns m).isCanonical limits = true) :
    limits.allows m = true ∧ m.fuzzy.isSome = false ∧ ns ≠ [] ∧
      ns.any Node.holdsSubquery = false ∧ ns.all (Node.isCanonical limits) = true := by
  simp only [Node.isCanonical, Node.isWellShaped, Node.isWithin, Node.areWellShaped_eq_all,
    Node.areWithin_eq_all, Bool.and_eq_true, Bool.not_eq_true', List.isEmpty_eq_false_iff] at h
  obtain ⟨⟨⟨⟨hf, hne⟩, hflat⟩, hshape⟩, hm, hwithin⟩ := h
  refine ⟨hm, by simpa using hf, hne, hflat, ?_⟩
  rw [List.all_eq_true] at hshape hwithin ⊢
  intro n hn
  simp [Node.isCanonical, hshape n hn, hwithin n hn]

/-- The value of a filter is read from its tokens, and its end with it. -/
theorem readFilter_value (hb : ReadsBodies limits quoted body?) (field : Text)
    (sign : Option Sign) (comparison : Option Comparison) {value : Node}
    (hv : value.isFilterValue = true) (hcanon : value.isCanonical limits = true)
    (hfits : fits body? value = true) (rest : List Token) :
    readFilter body? field sign comparison (value.tokens quoted ++ .mark .filterEnd :: rest) =
      ⟨[filterOn field comparison value], sign, rest⟩ := by
  simp only [Node.isFilterValue, Bool.and_eq_true, bne_iff_ne, beq_iff_eq] at hv
  obtain ⟨htag, hmodifiers⟩ := hv
  cases value with
  | leaf l m =>
    obtain rfl : m = {} := hmodifiers
    obtain ⟨t, ts, htokens, ht, hread⟩ :=
      readLeaf?_tokens l (.mark .filterEnd :: rest) (by simp)
    simp only [Node.tokens, Modifiers.leadTokens_empty, Modifiers.trailTokens_empty,
      List.nil_append, List.append_nil, htokens]
    rw [readFilter.eq_def]
    cases hk : t.kind <;> simp_all [Kind.isLeaf, dropFilterEnd_mark, Node.ofLeaf]
  | range i m =>
    obtain rfl : m = {} := hmodifiers
    have hbound : i.hasBound = true := by
      simp only [Node.isCanonical, Node.isWellShaped, Bool.and_eq_true] at hcanon
      exact hcanon.1.2
    obtain ⟨b, ts, htokens, hread⟩ := readRange?_tokens quoted hbound (.mark .filterEnd :: rest)
    simp only [Node.tokens, Modifiers.leadTokens_empty, Modifiers.trailTokens_empty,
      List.nil_append, List.append_nil, htokens]
    rw [readFilter.eq_def]
    simp [hread, dropFilterEnd_mark, Node.ofInterval]
  | filter f c v m => exact absurd rfl htag
  | subquery ns m =>
    obtain rfl : m = {} := hmodifiers
    obtain ⟨-, -, hne, hflat, hall⟩ := of_isCanonical_subquery hcanon
    obtain ⟨body, hbody⟩ := exists_body_of_fits hfits
    obtain ⟨hspan, hafter⟩ := subqueryBody_append (tokensList_ne_subqueryEnd quoted hflat)
      (.mark .filterEnd :: rest)
    obtain ⟨n, ns', rfl⟩ := List.exists_cons_of_ne_nil hne
    simp only [Node.tokens, Modifiers.leadTokens_empty, Modifiers.trailTokens_empty,
      List.nil_append, List.cons_append, List.append_assoc]
    rw [readFilter.eq_def]
    simp [hbody, hspan, hafter, hb.body body hbody _ hall hflat, dropFilterEnd_mark]

theorem sequence_filter (hl : Steady limits) (hb : ReadsBodies limits quoted body?) {field : Text}
    {comparison : Option Comparison} {value : Node} {m : Modifiers}
    (hcanon : (Node.filter field comparison value m).isCanonical limits = true)
    (hfits : fits body? value = true) (rest : List Token) :
    sequence limits body? none ((Node.filter field comparison value m).tokens quoted ++ rest) =
      (absorbOne limits (.filter field comparison value m) rest).1 ::
        sequence limits body? none (absorbOne limits (.filter field comparison value m) rest).2 := by
  simp only [Node.isCanonical, Node.isWellShaped, Node.isWithin, Bool.and_eq_true] at hcanon
  obtain ⟨⟨⟨⟨hfuzzy, hv⟩, hadmits⟩, hshape⟩, hm, hwithin⟩ := hcanon
  have hvalue : value.isCanonical limits = true := by simp [Node.isCanonical, hshape, hwithin]
  have hneq : comparison ≠ some .eq := by
    rintro rfl
    simp [Node.admitsComparison] at hadmits
  obtain ⟨t, ts, htokens, ht, -⟩ := tokens_eq_cons quoted value
  have hread : readFilter body? field m.sign none
      ((comparison.map Comparison.tokens).getD [] ++
        (value.tokens quoted ++ .mark .filterEnd :: (m.trailTokens ++ rest))) =
      ⟨[.filter field comparison value {}], m.sign, m.trailTokens ++ rest⟩ := by
    -- the comparison is read first, so the tokens of the value are opened and closed again
    rw [htokens, List.cons_append, readFilter_comparison field m.sign hneq _ ht,
      ← List.cons_append, ← htokens,
      readFilter_value hb field m.sign comparison hv hvalue hfits, filterOn_of_admits field hadmits]
  have hstep : step limits body? m.sign (.ofText .filterStart field)
      ((comparison.map Comparison.tokens).getD [] ++
        (value.tokens quoted ++ .mark .filterEnd :: (m.trailTokens ++ rest))) =
      finish limits m.sign [.filter field comparison value {}] (m.trailTokens ++ rest) := by
    simp [step, hread]
  simp only [Node.tokens, List.append_assoc, List.cons_append, sequence_leadTokens]
  refine sequence_of_step hl (.filter field comparison value {}) hm ?_ rfl hstep
  intro h
  cases hf : m.fuzzy <;> simp_all [Node.supportsFuzzy]

theorem sequence_subquery (hl : Steady limits) (hb : ReadsBodies limits quoted body?)
    {ns : List Node} {m : Modifiers} (hcanon : (Node.subquery ns m).isCanonical limits = true)
    (hfits : fits body? (.subquery ns m) = true) (rest : List Token) :
    sequence limits body? none ((Node.subquery ns m).tokens quoted ++ rest) =
      (absorbOne limits (.subquery ns m) rest).1 ::
        sequence limits body? none (absorbOne limits (.subquery ns m) rest).2 := by
  obtain ⟨hm, hfuzzy, hne, hflat, hall⟩ := of_isCanonical_subquery hcanon
  obtain ⟨body, hbody⟩ := exists_body_of_fits hfits
  obtain ⟨hspan, hafter⟩ := subqueryBody_append (tokensList_ne_subqueryEnd quoted hflat)
    (m.trailTokens ++ rest)
  have hnodes : subqueryNodes ns = [.subquery ns {}] := by
    cases ns with
    | nil => exact absurd rfl hne
    | cons n ns => rfl
  have hstep : step limits body? m.sign (.mark .subqueryStart)
      (Node.tokensList quoted ns ++ .mark .subqueryEnd :: (m.trailTokens ++ rest)) =
      finish limits m.sign [.subquery ns {}] (m.trailTokens ++ rest) := by
    simp [step, hbody, hspan, hafter, hb.body body hbody ns hall hflat, hnodes]
  simp only [Node.tokens, List.append_assoc, List.cons_append, sequence_leadTokens]
  exact sequence_of_step hl (.subquery ns {}) hm (by simp [hfuzzy]) rfl hstep

/-- One canonical node comes back from its tokens, with what it takes of those that follow. -/
theorem sequence_node (hl : Steady limits) (hb : ReadsBodies limits quoted body?) {n : Node}
    (hcanon : n.isCanonical limits = true) (hfits : fits body? n = true) (rest : List Token) :
    sequence limits body? none (n.tokens quoted ++ rest) =
      (absorbOne limits n rest).1 :: sequence limits body? none (absorbOne limits n rest).2 := by
  cases n with
  | leaf l m =>
    simp only [Node.isCanonical, Bool.and_eq_true] at hcanon
    exact sequence_leaf hl quoted hcanon.1 hcanon.2 rest
  | range i m =>
    simp only [Node.isCanonical, Bool.and_eq_true] at hcanon
    exact sequence_range hl quoted hcanon.1 hcanon.2 rest
  | filter f c value m => exact sequence_filter hl hb hcanon hfits rest
  | subquery ns m => exact sequence_subquery hl hb hcanon hfits rest

/-- A node does not take the first token of the node after it. -/
theorem absorbOne_tokens (quoted : Text → Bool) (n m : Node) (rest : List Token) :
    absorbOne limits n (m.tokens quoted ++ rest) = (n, m.tokens quoted ++ rest) := by
  obtain ⟨t, ts, htokens, -, hwildcard, hboost, hfuzzy⟩ := tokens_eq_cons quoted m
  rw [htokens, List.cons_append]
  apply absorbOne_of_not_extends
  unfold extendsNode
  split <;> simp_all

/-- The nodes of a sequence come back one after the other; only the last one meets the tokens that
follow. -/
theorem sequence_tokensList (hl : Steady limits) (hb : ReadsBodies limits quoted body?)
    {ns : List Node} (hcanon : ns.all (Node.isCanonical limits) = true)
    (hfits : ns.all (fits body?) = true) (rest : List Token) :
    sequence limits body? none (Node.tokensList quoted ns ++ rest) =
      (absorb limits ns rest).1 ++ sequence limits body? none (absorb limits ns rest).2 := by
  induction ns with
  | nil => simp [Node.tokensList, absorb]
  | cons n ns ih =>
    simp only [List.all_cons, Bool.and_eq_true] at hcanon hfits
    have hnode := sequence_node hl hb hcanon.1 hfits.1
    cases ns with
    | nil =>
      -- only the last node meets what follows
      simp only [Node.tokensList, List.append_nil, absorb, List.cons_append, List.nil_append]
      exact hnode rest
    | cons m ns =>
      have htail := ih hcanon.2 hfits.2
      have hone : absorbOne limits n (Node.tokensList quoted (m :: ns) ++ rest) =
          (n, Node.tokensList quoted (m :: ns) ++ rest) := by
        rw [Node.tokensList_cons, List.append_assoc]
        exact absorbOne_tokens quoted n m _
      rw [Node.tokensList_cons, List.append_assoc, hnode, hone, htail]
      simp [absorb]

theorem absorb_nil (limits : Limits) (ns : List Node) : absorb limits ns [] = (ns, []) := by
  apply absorb_of_standsApart
  cases h : ns.getLast? <;> simp [standsApart, h]

theorem readsBodies_none (limits : Limits) (quoted : Text → Bool) :
    ReadsBodies limits quoted none :=
  ⟨fun body h => by simp at h⟩

/-- The nodes of a subquery come back from its body. -/
theorem readsBodies_parseBody (hl : Steady limits) (quoted : Text → Bool) :
    ReadsBodies limits quoted (some (parseBody limits)) where
  body := by
    intro body hbody ns hall hflat
    obtain rfl := Option.some.inj hbody
    have hfits : ns.all (fits none) = true := by
      rw [List.all_eq_true]
      intro n hn
      have := List.any_eq_false.mp hflat n hn
      simpa [fits] using this
    have hseq := sequence_tokensList hl (readsBodies_none limits quoted) hall hfits []
    rw [absorb_nil, List.append_nil] at hseq
    simpa [parseBody, sequence] using hseq

/-- With nothing after them, the tokens of a canonical tree parse to the tree. -/
theorem parseTokens_tokensList (l : Limits) (quoted : Text → Bool) {ns : List Node}
    (h : ns.all (Node.isCanonical l.validate) = true) :
    parseTokens l.validate (Node.tokensList quoted ns) = ns := by
  have hl := steady_validate l
  have hfits : ns.all (fits (some (parseBody l.validate))) = true := by simp [fits]
  have hseq := sequence_tokensList hl (readsBodies_parseBody hl quoted) h hfits []
  rw [absorb_nil, List.append_nil] at hseq
  simpa [parseTokens, sequence] using hseq

/-- **Token forms parse back.** The tokens of a canonical tree parse to the tree, and what follows
them parses as it would alone; of all tokens that can follow, only those directly after the last
node that it takes (`absorb`) go to that node. -/
theorem parseTokens_tokensList_append (l : Limits) (quoted : Text → Bool) {ns : List Node}
    (h : ns.all (Node.isCanonical l.validate) = true) (rest : List Token) :
    parseTokens l.validate (Node.tokensList quoted ns ++ rest) =
        (absorb l.validate ns rest).1 ++ parseTokens l.validate (absorb l.validate ns rest).2 ∧
      (standsApart ns rest = true →
        parseTokens l.validate (Node.tokensList quoted ns ++ rest) =
          ns ++ parseTokens l.validate rest) := by
  have hl := steady_validate l
  have hfits : ns.all (fits (some (parseBody l.validate))) = true := by simp [fits]
  have hseq := sequence_tokensList hl (readsBodies_parseBody hl quoted) h hfits rest
  refine ⟨hseq, fun hapart => ?_⟩
  rw [absorb_of_standsApart l.validate hapart] at hseq
  exact hseq

/-- A filter with a comparison, a subquery with a filter and a wildcard in it, and a bare word. -/
def sampleNodes : List Node := [
  .filter "a".toList (some .gte) (.leaf (.number .ten) {})
    { sign := some .required, boost := some .two },
  .subquery [
    .filter "b".toList none (.range (.words ⟨some "x".toList, none, true⟩) {}) {},
    .leaf (.word "c".toList true) { fuzzy := some .one }] { sign := some .prohibited },
  .leaf (.word "d".toList false) {}]

/-- The sample comes back although a stray subquery end follows it. -/
theorem parseTokens_tokensList_append_sample :
    sampleNodes.all (Node.isCanonical ({} : Limits).validate) = true ∧
      parseTokens ({} : Limits).validate
          (Node.tokensList (fun _ => true) sampleNodes ++ [.mark .subqueryEnd, .mark .boost]) =
        sampleNodes ++ parseTokens ({} : Limits).validate [.mark .subqueryEnd, .mark .boost] := by
  have hcanon : sampleNodes.all (Node.isCanonical ({} : Limits).validate) = true := by
    decide +kernel
  exact ⟨hcanon, (parseTokens_tokensList_append {} (fun _ => true) hcanon _).2 (by decide)⟩

end SearchLang.Query
