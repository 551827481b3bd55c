import SearchLang.Node.Shape
import SearchLang.Proofs.Parse.Finish

/-!
# The shape of parsed trees

Whatever tokens are parsed, in whatever order and with whatever values, the trees
are well shaped, and the bounds of their ranges are values of tokens of the same
type. Every reader keeps this (`Sound`); inside a subquery it also makes no
subquery, because there is no parser for its body.
-/

namespace SearchLang.Query

/-- What is known of every node that comes out of the tokens `ts`. Inside a subquery `nested` is
true. -/
structure Sound (ts : List Token) (nested : Bool) (n : Node) : Prop where
  shaped : n.isWellShaped = true
  drawn : n.intervals.all (Interval.isDrawnFrom ts) = true
  flat : nested = true → n.holdsSubquery = false

variable {ts : List Token} {nested : Bool} {limits : Limits}

/-! ## Modifiers -/

theorem Sound.withModifiers {n : Node} (h : Sound ts nested n) {m : Modifiers}
    (hf : m.fuzzy.isSome = true → n.modifiers.fuzzy.isSome = true ∨ n.supportsFuzzy = true) :
    Sound ts nested (n.withModifiers m) := by
  obtain ⟨hshaped, hdrawn, hflat⟩ := h
  -- of the modifiers only the fuzziness takes part in the shape
  cases n <;>
    · refine ⟨?_, hdrawn, hflat⟩
      simp only [Node.withModifiers, Node.isWellShaped, Node.modifiers, Node.supportsFuzzy,
        ← Option.not_isSome] at hf hshaped ⊢
      grind

theorem modifiable_sound : Modifiable limits (Sound ts nested) where
  sign _ _ h := h.withModifiers fun hf => .inl hf
  boost _ _ h := h.withModifiers fun hf => .inl hf
  fuzzy _ _ hs h := h.withModifiers fun _ => .inr hs

/-! ## Leaves and ranges -/

theorem Sound.ofLeaf (l : Leaf) : Sound ts nested (.ofLeaf l) :=
  ⟨by simp [Node.ofLeaf, Node.isWellShaped], rfl, fun _ => rfl⟩

/-- The value of a leaf is the value of its token, and its kind the kind of the token. -/
theorem of_readLeaf? {t : Token} {us rest : List Token} {l : Leaf}
    (h : readLeaf? t us = some (l, rest)) :
    (∃ value wildcard, l = .word value wildcard ∧ t.kind = .word ∧ t.text? = some value) ∨
      (∃ value, l = .number value ∧ t.kind = .number ∧ t.number? = some value) ∨
      ∃ form value, l = .text form value ∧ t.kind = .text form ∧ t.text? = some value := by
  unfold readLeaf? at h
  split at h
  · rename_i hk
    simp only [Option.map_eq_some_iff] at h
    obtain ⟨value, hv, h⟩ := h
    refine .inl ?_
    split at h
    · split at h
      · cases h; exact ⟨value, true, rfl, hk, hv⟩
      · cases h; exact ⟨value, false, rfl, hk, hv⟩
    · cases h; exact ⟨value, false, rfl, hk, hv⟩
  · rename_i hk
    simp only [Option.map_eq_some_iff] at h
    obtain ⟨value, hv, h⟩ := h
    cases h
    exact .inr (.inl ⟨value, rfl, hk, hv⟩)
  · rename_i form hk
    simp only [Option.map_eq_some_iff] at h
    obtain ⟨value, hv, h⟩ := h
    cases h
    exact .inr (.inr ⟨form, value, rfl, hk, hv⟩)
  · simp at h

/-- Whether a leaf is the reading of one of some tokens. -/
def IsRead (ts : List Token) (l : Leaf) : Prop :=
  ∃ t ∈ ts, ∃ us rest, readLeaf? t us = some (l, rest)

theorem isRead_of_readBound {us : List Token} (hsub : us ⊆ ts) {l : Leaf}
    (h : (readBound us).1 = some l) : IsRead ts l := by
  cases us with
  | nil => simp [readBound] at h
  | cons t us =>
    rw [readBound] at h
    split at h
    · simp at h
    · split at h
      · split at h
        · rename_i l' after hread
          cases h
          exact ⟨t, hsub (by simp), us, after, hread⟩
        · simp at h
      · simp at h

/-- Bounds that share a type have it. -/
theorem boundClass?_of_sharedClass? {lower upper : Option Leaf} {c : BoundClass}
    (h : sharedClass? lower upper = some c) :
    ∀ l ∈ lower.toList ++ upper.toList, boundClass? l = some c := by
  cases lower <;> cases upper <;> simp_all [sharedClass?]

/-- A leaf that can bound a word range was a word or a phrase, and so on. -/
theorem token_of_boundClass? {l : Leaf} (hread : IsRead ts l) {c : BoundClass}
    (hc : boundClass? l = some c) :
    ∃ t ∈ ts, match c with
      | .word => (t.kind = .word ∨ t.kind = .text .phrase) ∧ t.text? = l.text?
      | .number => t.kind = .number ∧ t.number? = l.number?
      | .date => t.kind = .text .date ∧ t.text? = l.text? := by
  obtain ⟨t, ht, us, rest, h⟩ := hread
  refine ⟨t, ht, ?_⟩
  rcases of_readLeaf? h with ⟨value, wildcard, rfl, hk, hv⟩ | ⟨value, rfl, hk, hv⟩ |
    ⟨form, value, rfl, hk, hv⟩
  · cases hc
    exact ⟨.inl hk, hv⟩
  · cases hc
    exact ⟨hk, hv⟩
  · cases form <;> simp [boundClass?] at hc <;> subst hc
    · exact ⟨.inr hk, hv⟩
    · exact ⟨hk, hv⟩

/-- What holds of the values of the bounding leaves holds of the bounds. -/
theorem all_bounds_of? {α : Type} {value : Leaf → Option α} {lower upper : Option Leaf}
    {exclusive : Bool} {r : Range α}
    (h : Range.of? (lower.bind value) (upper.bind value) exclusive = some r) {p : α → Bool}
    (hp : ∀ l ∈ lower.toList ++ upper.toList, ∀ a, value l = some a → p a = true) :
    r.bounds.all p = true := by
  rw [List.all_eq_true]
  intro a ha
  unfold Range.of? at h
  split at h
  · simp at h
  · cases h
    simp only [Range.bounds, List.mem_append, Option.mem_toList,
      Option.bind_eq_some_iff] at ha
    rcases ha with ⟨l, hl, hv⟩ | ⟨l, hl, hv⟩
    · exact hp l (by simp [hl]) a hv
    · exact hp l (by simp [hl]) a hv

theorem hasBound_of? {α : Type} {lower upper : Option α} {exclusive : Bool} {r : Range α}
    (h : Range.of? lower upper exclusive = some r) : r.hasBound = true := by
  unfold Range.of? at h
  split at h
  · simp at h
  · cases h
    cases lower <;> cases upper <;> simp_all [Range.hasBound]

/-- A range has a bound, and its bounds are values of tokens of its type. -/
theorem of_interval? {lower upper : Option Leaf} {exclusive : Bool} {i : Interval}
    (hread : ∀ l ∈ lower.toList ++ upper.toList, IsRead ts l)
    (h : interval? lower upper exclusive = some i) :
    i.hasBound = true ∧ i.isDrawnFrom ts = true := by
  have htoken {c : BoundClass} (hc : sharedClass? lower upper = some c) (l : Leaf)
      (hl : l ∈ lower.toList ++ upper.toList) :=
    token_of_boundClass? (hread l hl) (boundClass?_of_sharedClass? hc l hl)
  unfold interval? at h
  split at h
  · simp at h
  · rename_i hc
    obtain ⟨r, hr, rfl⟩ := Option.map_eq_some_iff.mp h
    refine ⟨hasBound_of? hr, all_bounds_of? hr fun l hl s hs => ?_⟩
    obtain ⟨t, ht, hk, htext⟩ := htoken hc l hl
    exact List.any_eq_true.mpr ⟨t, ht, by simp [hk, htext, hs]⟩
  · rename_i hc
    obtain ⟨r, hr, rfl⟩ := Option.map_eq_some_iff.mp h
    refine ⟨hasBound_of? hr, all_bounds_of? hr fun l hl n hn => ?_⟩
    obtain ⟨t, ht, hk, hnumber⟩ := htoken hc l hl
    exact List.any_eq_true.mpr ⟨t, ht, by simp [hk, hnumber, hn]⟩
  · rename_i hc
    obtain ⟨r, hr, rfl⟩ := Option.map_eq_some_iff.mp h
    refine ⟨hasBound_of? hr, all_bounds_of? hr fun l hl s hs => ?_⟩
    obtain ⟨t, ht, hk, htext⟩ := htoken hc l hl
    exact List.any_eq_true.mpr ⟨t, ht, by simp [hk, htext, hs]⟩

theorem Sound.ofInterval {i : Interval} (hbound : i.hasBound = true)
    (hdrawn : i.isDrawnFrom ts = true) : Sound ts nested (.ofInterval i) :=
  ⟨by simp [Node.ofInterval, Node.isWellShaped, hbound],
    by simp [Node.ofInterval, Node.intervals, hdrawn], fun _ => rfl⟩

/-- Both readings of a range are sound: as one, and as the values of its bounds. -/
theorem sound_readRange? {b : Bracket} {us rest : List Token} {r : RangeReading} (hsub : us ⊆ ts)
    (h : readRange? b us = some (r, rest)) : ∀ n ∈ r.nodes, Sound ts nested n := by
  unfold readRange? at h
  split at h
  · simp only [Option.some.injEq, Prod.mk.injEq] at h
    obtain ⟨rfl, -⟩ := h
    have hupper : skipToUpper (readBound us).2 ⊆ ts :=
      List.Subset.trans ((skipToUpper_suffix _).trans (readBound_suffix _)).subset hsub
    have hread : ∀ l ∈ (readBound us).1.toList ++
        (readBound (skipToUpper (readBound us).2)).1.toList, IsRead ts l := by
      intro l hl
      rcases List.mem_append.mp hl with hl | hl
      · exact isRead_of_readBound hsub (by simpa using hl)
      · exact isRead_of_readBound hupper (by simpa using hl)
    unfold RangeReading.ofBounds
    intro n hn
    split at hn
    · rename_i i hi
      obtain rfl := List.mem_singleton.mp hn
      obtain ⟨hbound, hdrawn⟩ := of_interval? hread hi
      exact .ofInterval hbound hdrawn
    · obtain ⟨l, -, rfl⟩ := List.mem_map.mp hn
      exact .ofLeaf l
  · simp at h

/-! ## Filters -/

/-- A comparison that was written: none of the marks for one means equality. -/
def IsWritten (comparison : Option Comparison) : Prop :=
  comparison ≠ some .eq

theorem isWritten_comparisonOf (greater orEqual : Bool) :
    IsWritten (some (comparisonOf greater orEqual)) := by
  cases greater <;> cases orEqual <;> simp [IsWritten, comparisonOf]

/-- A filter on a bare value is as sound as the value. -/
theorem Sound.filterOn {value : Node} (h : Sound ts nested value)
    (hvalue : value.isFilterValue = true) (field : Text) {comparison : Option Comparison}
    (hc : IsWritten comparison) : Sound ts nested (filterOn field comparison value) := by
  obtain ⟨hshaped, hdrawn, hflat⟩ := h
  refine ⟨?_, hdrawn, hflat⟩
  have hadmits : value.admitsComparison (if value.isCompound then none else comparison) = true := by
    cases hcompound : value.isCompound
    · cases comparison <;> simp_all [Node.admitsComparison, IsWritten]
    · simp [Node.admitsComparison]
  simp [Query.filterOn, Node.isWellShaped, hvalue, hadmits, hshaped]

theorem Sound.ofSubquery {nodes : List Node} (hne : nodes ≠ [])
    (h : ∀ n ∈ nodes, Sound ts true n) : Sound ts false (.subquery nodes {}) where
  shaped := by
    simp only [Node.isWellShaped, Node.areWellShaped_eq_all, Bool.and_eq_true, Bool.not_eq_true',
      List.isEmpty_eq_false_iff, List.any_eq_false, List.all_eq_true, Option.isNone_none]
    exact ⟨⟨⟨trivial, hne⟩, fun n hn => by simp [(h n hn).flat rfl]⟩, fun n hn => (h n hn).shaped⟩
  drawn := by
    simp only [Node.intervals, Node.intervalsList_eq_flatMap, List.all_eq_true, List.mem_flatMap]
    rintro i ⟨n, hn, hi⟩
    exact List.all_eq_true.mp (h n hn).drawn i hi
  flat := nofun

/-- The parser for the bodies of subqueries gives sound nodes that hold no subquery; inside a
subquery there is none. -/
def BodySound (ts : List Token) (nested : Bool) (body? : Option BodyParser) : Prop :=
  ∀ body ∈ body?, nested = false ∧ ∀ us ⊆ ts, ∀ n ∈ body us, Sound ts true n

theorem subqueryBody_subset (us : List Token) : subqueryBody us ⊆ us :=
  (List.takeWhile_prefix _).subset

/-- **Whatever a filter start leads to, the nodes are sound.** -/
theorem sound_readFilter {body? : Option BodyParser} (hbody : BodySound ts nested body?)
    (field : Text) (sign : Option Sign) {comparison : Option Comparison}
    (hc : IsWritten comparison) {us : List Token} (hsub : us ⊆ ts) :
    ∀ n ∈ (readFilter body? field sign comparison us).nodes, Sound ts nested n := by
  have htail {t : Token} {us : List Token} (h : t :: us ⊆ ts) : us ⊆ ts :=
    List.Subset.trans (List.subset_cons_self t us) h
  fun_induction readFilter body? field sign comparison us with
  | case1 sign comparison => simp
  | case2 sign comparison t us _ => simp
  | case3 sign comparison t us _ _ ih => exact ih hc (htail hsub)
  -- a comparison is read in full, so it is never an equality
  | case4 sign comparison t us _ equals ih =>
    exact ih (isWritten_comparisonOf _ _)
      (List.Subset.trans (takeEquals_suffix us).subset (htail hsub))
  | case5 sign comparison t us _ equals ih =>
    exact ih (isWritten_comparisonOf _ _)
      (List.Subset.trans (takeEquals_suffix us).subset (htail hsub))
  | case6 sign comparison t us _ ih => exact ih hc (htail hsub)
  -- a subquery: where there are none, where it is empty, and where it is the value
  | case7 => simp
  | case8 sign comparison t us _ body hb _ ih =>
    subst hb
    exact ih hc (List.Subset.trans (afterSubquery_suffix us).subset (htail hsub))
  | case9 sign comparison t us _ body hb hne =>
    obtain ⟨rfl, hnodes⟩ := hbody body hb
    have hchildren := hnodes _ (List.Subset.trans (subqueryBody_subset us) (htail hsub))
    intro n hn
    obtain rfl := List.mem_singleton.mp hn
    exact (Sound.ofSubquery hne hchildren).filterOn rfl field hc
  -- a range: without an end, as the values of its bounds, and as one
  | case10 sign comparison t us b _ _ ih => exact ih hc (htail hsub)
  | case11 sign comparison t us b _ ls rest hrange =>
    exact sound_readRange? (htail hsub) hrange
  | case12 sign comparison t us b _ i rest hrange =>
    intro n hn
    obtain rfl := List.mem_singleton.mp hn
    have hvalue : Sound ts nested (.ofInterval i) :=
      sound_readRange? (htail hsub) hrange _ (List.mem_singleton_self _)
    exact hvalue.filterOn (by cases i <;> rfl) field hc
  -- a leaf: without a value of its kind, and with one
  | case13 sign comparison t us _ _ _ _ _ _ _ _ _ ih => exact ih hc (htail hsub)
  | case14 sign comparison t us l rest =>
    intro n hn
    obtain rfl := List.mem_singleton.mp hn
    exact (Sound.ofLeaf l).filterOn (by cases l <;> rfl) field hc
  | case15 => simp

/-! ## Sequences -/

/-- What one token adds to a sequence is sound. -/
theorem sound_step {body? : Option BodyParser} (hbody : BodySound ts nested body?)
    (sign : Option Sign) {t : Token} {us : List Token} (hsub : us ⊆ ts) :
    ∀ n ∈ (step limits body? sign t us).nodes, Sound ts nested n := by
  unfold step
  split
  · simp
  · simp
  · simp
  · simp
  · split
    · simp
    · rename_i body
      obtain ⟨rfl, hnodes⟩ := hbody body rfl
      have hchildren := hnodes _ (List.Subset.trans (subqueryBody_subset us) hsub)
      refine modifiable_sound.finish ?_ sign _
      generalize body (subqueryBody us) = nodes at hchildren
      cases nodes with
      | nil => simp [subqueryNodes]
      | cons n rest =>
        intro m hm
        obtain rfl := List.mem_singleton.mp hm
        exact .ofSubquery (by simp) hchildren
  · have hc : IsWritten none := by simp [IsWritten]
    exact modifiable_sound.finish (sound_readFilter hbody (t.text?.getD []) sign hc hsub) _ _
  · split
    · simp
    · rename_i hrange
      exact modifiable_sound.finish (sound_readRange? hsub hrange) sign _
  · simp
  · simp
  · split
    · simp
    · rename_i l rest _
      refine modifiable_sound.finish ?_ sign rest
      intro n hn
      obtain rfl := List.mem_singleton.mp hn
      exact .ofLeaf l

/-- A run of steps gives sound nodes: each step leaves a part of the tokens to the next. -/
theorem sound_sequence {body? : Option BodyParser} (hbody : BodySound ts nested body?)
    (sign : Option Sign) {us : List Token} (hsub : us ⊆ ts) :
    ∀ n ∈ sequence limits body? sign us, Sound ts nested n := by
  fun_induction sequence limits body? sign us with
  | case1 sign => simp
  | case2 sign t us p ih =>
    have htail : us ⊆ ts := List.Subset.trans (List.subset_cons_self t us) hsub
    intro n hn
    rcases List.mem_append.mp hn with hn | hn
    · exact sound_step hbody sign htail n hn
    · exact ih (List.Subset.trans (step_suffix limits body? sign t us).subset htail) n hn

theorem bodySound_parseBody (limits : Limits) (ts : List Token) :
    BodySound ts false (some (parseBody limits)) := by
  have hnone : BodySound ts true none := by simp [BodySound]
  intro body hb
  obtain rfl := Option.some.inj hb
  exact ⟨rfl, fun us hsub => sound_sequence hnone none hsub⟩

/-- **Every tree that parsing gives is well shaped**, with ranges whose bounds are the values of
tokens of their type, for all tokens in all orders and whatever values they carry. -/
theorem areWellShaped_parseTokens (limits : Limits) (ts : List Token) :
    Node.areWellShaped (parseTokens limits ts) = true ∧
      (Node.intervalsList (parseTokens limits ts)).all (Interval.isDrawnFrom ts) = true := by
  have hsound : ∀ n ∈ parseTokens limits ts, Sound ts false n :=
    sound_sequence (bodySound_parseBody limits ts) none (List.Subset.refl ts)
  refine ⟨?_, ?_⟩
  · rw [Node.areWellShaped_eq_all, List.all_eq_true]
    exact fun n hn => (hsound n hn).shaped
  · rw [Node.intervalsList_eq_flatMap, List.all_eq_true]
    intro i hi
    obtain ⟨n, hn, hi⟩ := List.mem_flatMap.mp hi
    exact List.all_eq_true.mp (hsound n hn).drawn i hi

end SearchLang.Query
