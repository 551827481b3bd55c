import SearchLang.Node.Shape
import SearchLang.Proofs.Parse.Extent

/-!
# Mirrored queries

A query is parsed alike whichever of the two signs and of the two pairs of
brackets it is written with. Every reader commutes with the exchange of both: of
mirrored tokens it reads the mirror of what it reads of the tokens, and leaves
the mirrors of the tokens that it leaves. So mirrored tokens give the mirrors of
their trees (`parseTokens_mirror`).
-/

namespace SearchLang

/-! ## Kinds and nodes -/

namespace Token

@[simp] theorem kind_mirror (t : Token) : t.mirror.kind = t.kind.mirror := rfl

@[simp] theorem text?_mirror (t : Token) : t.mirror.text? = t.text? := rfl

@[simp] theorem number?_mirror (t : Token) : t.mirror.number? = t.number? := rfl

end Token

namespace Kind

@[simp] theorem isLeaf_mirror (k : Kind) : k.mirror.isLeaf = k.isLeaf := by
  cases k <;> rfl

@[simp] theorem isRangeEnd_mirror (k : Kind) : k.mirror.isRangeEnd = k.isRangeEnd := by
  cases k <;> rfl

/-- Of a kind that is its own mirror, no other kind is the mirror. -/
theorem mirror_eq_iff {j k : Kind} (h : j.mirror = j) : k.mirror = j ↔ k = j := by
  constructor
  · intro hk
    rw [← mirror_mirror k, hk, h]
  · rintro rfl
    exact h

end Kind

namespace Node

theorem modifiers_mirror (n : Node) : n.mirror.modifiers = n.modifiers.mirror := by
  cases n <;> rw [mirror] <;> rfl

@[simp] theorem tag_mirror (n : Node) : n.mirror.tag = n.tag := by
  cases n with
  | range i m => rw [mirror]; cases i <;> rfl
  | _ => rw [mirror]; rfl

@[simp] theorem supportsFuzzy_mirror (n : Node) : n.mirror.supportsFuzzy = n.supportsFuzzy := by
  induction n with
  | filter f c value m ih => rw [mirror, supportsFuzzy, ih, supportsFuzzy]
  | leaf l m | range i m | subquery nodes m => rw [mirror]; rfl

theorem mirror_withModifiers (m : Modifiers) (n : Node) :
    (n.withModifiers m).mirror = n.mirror.withModifiers m.mirror := by
  cases n <;> simp only [withModifiers, mirror]

theorem mirror_withSign (sign : Option Sign) (n : Node) :
    (n.withSign sign).mirror = n.mirror.withSign (sign.map Sign.mirror) := by
  simp only [withSign, mirror_withModifiers, modifiers_mirror, Modifiers.mirror]

theorem mirror_withBoost (boost : Number) (n : Node) :
    (n.withBoost boost).mirror = n.mirror.withBoost boost := by
  simp only [withBoost, mirror_withModifiers, modifiers_mirror, Modifiers.mirror]

theorem mirror_withFuzzy (fuzzy : Number) (n : Node) :
    (n.withFuzzy fuzzy).mirror = n.mirror.withFuzzy fuzzy := by
  simp only [withFuzzy, mirror_withModifiers, modifiers_mirror, Modifiers.mirror]

theorem mirror_ofLeaf (l : Leaf) : (ofLeaf l).mirror = ofLeaf l := by
  rw [ofLeaf, mirror]
  rfl

theorem mirror_ofInterval (i : Interval) : (ofInterval i).mirror = ofInterval i.mirror := by
  rw [ofInterval, mirror]
  rfl

end Node

namespace Query

/-- The mirrors of some tokens. -/
def mirrored (ts : List Token) : List Token :=
  ts.map Token.mirror

@[simp] theorem mirrored_nil : mirrored [] = [] := rfl

@[simp] theorem mirrored_cons (t : Token) (ts : List Token) :
    mirrored (t :: ts) = t.mirror :: mirrored ts := rfl

/-! ## Single marks -/

theorem takeNumber_mirrored (ts : List Token) :
    takeNumber (mirrored ts) = ((takeNumber ts).1, mirrored (takeNumber ts).2) := by
  cases ts with
  | nil => rfl
  | cons t ts =>
    simp only [mirrored_cons, takeNumber, Token.kind_mirror,
      Kind.mirror_eq_iff (j := .number) rfl]
    split <;> rfl

theorem takeEquals_mirrored (ts : List Token) :
    takeEquals (mirrored ts) = ((takeEquals ts).1, mirrored (takeEquals ts).2) := by
  cases ts with
  | nil => rfl
  | cons t ts =>
    simp only [mirrored_cons, takeEquals, Token.kind_mirror,
      Kind.mirror_eq_iff (j := .equals) rfl]
    split <;> rfl

theorem dropFilterEnd_mirrored (ts : List Token) :
    dropFilterEnd (mirrored ts) = mirrored (dropFilterEnd ts) := by
  cases ts with
  | nil => rfl
  | cons t ts =>
    simp only [mirrored_cons, dropFilterEnd, Token.kind_mirror,
      Kind.mirror_eq_iff (j := .filterEnd) rfl]
    split <;> rfl

/-! ## Searches -/

/-- A test that takes a token for its mirror. -/
def MirrorBlind (p : Token → Bool) : Prop :=
  ∀ t, p t.mirror = p t

theorem MirrorBlind.comp {p : Token → Bool} (hp : MirrorBlind p) : p ∘ Token.mirror = p :=
  funext hp

/-- Whether a token has a kind that is its own mirror. -/
theorem mirrorBlind_bne {k : Kind} (hk : k.mirror = k) : MirrorBlind fun t => t.kind != k := by
  intro t
  rw [Bool.eq_iff_iff]
  simp [Kind.mirror_eq_iff hk]

theorem MirrorBlind.takeWhile {p : Token → Bool} (hp : MirrorBlind p) (ts : List Token) :
    (mirrored ts).takeWhile p = mirrored (ts.takeWhile p) := by
  rw [mirrored, List.takeWhile_map, hp.comp]
  rfl

theorem MirrorBlind.dropWhile {p : Token → Bool} (hp : MirrorBlind p) (ts : List Token) :
    (mirrored ts).dropWhile p = mirrored (ts.dropWhile p) := by
  rw [mirrored, List.dropWhile_map, hp.comp]
  rfl

theorem subqueryBody_mirrored (ts : List Token) :
    subqueryBody (mirrored ts) = mirrored (subqueryBody ts) :=
  (mirrorBlind_bne rfl).takeWhile ts

theorem afterSubquery_mirrored (ts : List Token) :
    afterSubquery (mirrored ts) = mirrored (afterSubquery ts) := by
  have hend : MirrorBlind fun t => t.kind != .subqueryEnd := mirrorBlind_bne rfl
  rw [afterSubquery, hend.dropWhile, mirrored, ← List.map_drop]
  rfl

theorem endsSearch_mirror (t : Token) : endsSearch t.mirror = endsSearch t := by
  obtain ⟨kind, literal⟩ := t
  cases kind <;> rfl

theorem hasRangeEnd_mirrored (ts : List Token) : hasRangeEnd (mirrored ts) = hasRangeEnd ts := by
  have hend : MirrorBlind fun t => t.kind.isRangeEnd || endsSearch t := fun t => by
    simp [endsSearch_mirror]
  unfold hasRangeEnd
  rw [mirrored, List.find?_map, hend.comp]
  cases ts.find? fun t => t.kind.isRangeEnd || endsSearch t with
  | none => rfl
  | some t => exact t.kind.isRangeEnd_mirror

theorem skipToUpper_mirrored (ts : List Token) :
    skipToUpper (mirrored ts) = mirrored (skipToUpper ts) := by
  have hupTo : MirrorBlind fun t => t.kind != .upTo && !t.kind.isRangeEnd := fun t => by
    have hkind := mirrorBlind_bne (k := .upTo) rfl t
    simp only [Token.kind_mirror] at hkind
    simp [hkind]
  unfold skipToUpper
  rw [hupTo.dropWhile]
  cases ts.dropWhile fun t => t.kind != .upTo && !t.kind.isRangeEnd with
  | nil => rfl
  | cons t rest =>
    simp only [mirrored_cons, Token.kind_mirror, Kind.mirror_eq_iff (j := .upTo) rfl]
    split <;> rfl

theorem skipRangeEnd_mirrored (ts : List Token) :
    skipRangeEnd (mirrored ts) = mirrored (skipRangeEnd ts) := by
  have hend : MirrorBlind fun t => !t.kind.isRangeEnd := fun t => by simp
  rw [skipRangeEnd, hend.dropWhile, mirrored, ← List.map_drop]
  rfl

/-! ## Leaves and ranges -/

theorem readLeaf?_mirrored (t : Token) (ts : List Token) :
    readLeaf? t.mirror (mirrored ts) =
      (readLeaf? t ts).map fun (l, rest) => (l, mirrored rest) := by
  unfold readLeaf?
  simp only [Token.kind_mirror, Token.text?_mirror, Token.number?_mirror]
  cases t.kind with
  | word =>
    cases t.text? with
    | none => rfl
    | some value =>
      cases ts with
      | nil => rfl
      | cons w ts =>
        have hword : Kind.word.mirror = .word := rfl
        simp only [hword, mirrored_cons, Option.map_some, Token.kind_mirror,
          Kind.mirror_eq_iff (j := .wildcard) rfl]
        split <;> rfl
  | number => cases t.number? <;> rfl
  | text form => cases t.text? <;> rfl
  | _ => rfl

theorem readBound_mirrored (ts : List Token) :
    readBound (mirrored ts) = ((readBound ts).1, mirrored (readBound ts).2) := by
  cases ts with
  | nil => rfl
  | cons t ts =>
    rw [mirrored_cons, readBound, readBound, readLeaf?_mirrored]
    simp only [Token.kind_mirror, Kind.isLeaf_mirror, Kind.mirror_eq_iff (j := .wildcard) rfl]
    split
    · rfl
    · split
      · cases readLeaf? t ts <;> rfl
      · rfl

/-- The reading of a range with the other brackets. -/
def RangeReading.mirror : RangeReading → RangeReading
  | .interval i => .interval i.mirror
  | .leaves ls => .leaves ls

theorem mirror_of? {α : Type} (lower upper : Option α) (exclusive : Bool) :
    (Range.of? lower upper exclusive).map Range.mirror = Range.of? lower upper !exclusive := by
  unfold Range.of?
  split <;> rfl

/-- Whether bounds make a range does not depend on its brackets. -/
theorem mirror_interval? (lower upper : Option Leaf) (exclusive : Bool) :
    (interval? lower upper exclusive).map Interval.mirror = interval? lower upper !exclusive := by
  unfold interval?
  cases sharedClass? lower upper with
  | none => rfl
  | some c =>
    cases c <;> simp only [← mirror_of?, Option.map_map] <;> rfl

theorem mirror_ofBounds (lower upper : Option Leaf) (exclusive : Bool) :
    (RangeReading.ofBounds lower upper exclusive).mirror = .ofBounds lower upper !exclusive := by
  unfold RangeReading.ofBounds
  rw [← mirror_interval?]
  cases interval? lower upper exclusive <;> rfl

theorem readRange?_mirrored (b : Bracket) (ts : List Token) :
    readRange? b.mirror (mirrored ts) =
      (readRange? b ts).map fun (reading, rest) => (reading.mirror, mirrored rest) := by
  have hexclusive : (b.mirror == .exclusive) = !(b == .exclusive) := by cases b <;> rfl
  unfold readRange?
  rw [hasRangeEnd_mirrored]
  split
  · simp only [readBound_mirrored, skipToUpper_mirrored, skipRangeEnd_mirrored, hexclusive,
      ← mirror_ofBounds, Option.map_some]
  · rfl

/-! ## Nodes and their modifiers -/

variable (limits : Limits)

theorem attachModifiers_mirrored (n : Node) (ts : List Token) :
    attachModifiers limits n.mirror (mirrored ts) =
      ((attachModifiers limits n ts).1.mirror, mirrored (attachModifiers limits n ts).2) := by
  fun_induction attachModifiers limits n ts with
  | case1 n => rw [mirrored_nil, attachModifiers]
  | case2 n t ts hk ih =>
    rw [mirrored_cons, attachModifiers]
    simp only [Token.kind_mirror, hk, Kind.mirror, takeNumber_mirrored, ← Node.mirror_withBoost, ih]
  | case3 n t ts hk node ih =>
    rw [mirrored_cons, attachModifiers]
    have hnode : (if n.mirror.supportsFuzzy then
        n.mirror.withFuzzy (limits.fuzzy (takeNumber ts).1) else n.mirror) = node.mirror := by
      simp only [node, Node.supportsFuzzy_mirror, ← Node.mirror_withFuzzy]
      split <;> rfl
    simp only [Token.kind_mirror, hk, Kind.mirror, takeNumber_mirrored, hnode, ih]
  | case4 n t ts hboost hfuzzy =>
    refine attachModifiers_of_ne limits n.mirror (mirrored ts) ?_ ?_
    · rwa [Token.kind_mirror, Ne, Kind.mirror_eq_iff rfl]
    · rwa [Token.kind_mirror, Ne, Kind.mirror_eq_iff rfl]

/-- What handling a mirrored token gives: the mirrors of the nodes, the other sign, and the mirrors
of the tokens that are left. -/
def Progress.mirror (p : Progress) : Progress :=
  ⟨p.nodes.map Node.mirror, p.sign.map Sign.mirror, mirrored p.rest⟩

theorem attachToLast_mirrored (ns : List Node) (ts : List Token) :
    attachToLast limits (ns.map Node.mirror) (mirrored ts) =
      ((attachToLast limits ns ts).1.map Node.mirror, mirrored (attachToLast limits ns ts).2) := by
  fun_induction attachToLast limits ns ts with
  | case1 ts => rfl
  | case2 n ts => simp only [List.map_cons, List.map_nil, attachToLast, attachModifiers_mirrored]
  | case3 ts n ns hne ih =>
    obtain ⟨m, ms, rfl⟩ := List.exists_cons_of_ne_nil fun h => hne h
    rw [List.map_cons] at ih
    simp only [List.map_cons, attachToLast, ih]

theorem signFirst_mirrored (sign : Option Sign) (ns : List Node) :
    signFirst (sign.map Sign.mirror) (ns.map Node.mirror) = (signFirst sign ns).map Node.mirror := by
  cases ns with
  | nil => rfl
  | cons n ns => simp only [List.map_cons, signFirst, Node.mirror_withSign]

theorem finish_mirrored (sign : Option Sign) (ns : List Node) (ts : List Token) :
    finish limits (sign.map Sign.mirror) (ns.map Node.mirror) (mirrored ts) =
      (finish limits sign ns ts).mirror := by
  simp only [finish, signFirst_mirrored, attachToLast_mirrored, Progress.mirror, Option.map_none]

/-! ## Filters -/

theorem mirror_filterOn (field : Text) (comparison : Option Comparison) (value : Node) :
    (filterOn field comparison value).mirror = filterOn field comparison value.mirror := by
  have hcompound : value.mirror.isCompound = value.isCompound := by
    rw [Node.isCompound, Node.tag_mirror, Node.isCompound]
  rw [filterOn, filterOn, Node.mirror, hcompound]
  rfl

theorem mirror_subquery (ns : List Node) :
    (Node.subquery ns {}).mirror = .subquery (ns.map Node.mirror) {} := by
  rw [Node.mirror, Node.mirrorList_eq_map]
  rfl

theorem mirror_map_ofLeaf (ls : List Leaf) :
    (ls.map Node.ofLeaf).map Node.mirror = ls.map Node.ofLeaf := by
  rw [List.map_map]
  exact List.map_congr_left fun l _ => Node.mirror_ofLeaf l

/-- Whether the body of a subquery is parsed alike with the other signs and brackets. -/
def BodyMirrors (body? : Option BodyParser) : Prop :=
  ∀ body ∈ body?, ∀ ts, body (mirrored ts) = (body ts).map Node.mirror

theorem bodyMirrors_none : BodyMirrors none := nofun

variable {body? : Option BodyParser} (hbody : BodyMirrors body?)

include hbody

theorem readFilter_mirrored (field : Text) (sign : Option Sign) (comparison : Option Comparison)
    (ts : List Token) :
    readFilter body? field (sign.map Sign.mirror) comparison (mirrored ts) =
      (readFilter body? field sign comparison ts).mirror := by
  fun_induction readFilter body? field sign comparison ts with
  | case1 sign comparison => rw [mirrored_nil, readFilter]; rfl
  | case2 sign comparison t ts hk =>
    rw [mirrored_cons, readFilter.eq_def]
    simp only [Token.kind_mirror, hk, Kind.mirror]
    rfl
  | case3 sign comparison t ts s hk ih | case6 sign comparison t ts hk ih =>
    rw [mirrored_cons, readFilter.eq_def]
    simp only [Token.kind_mirror, hk, Kind.mirror]
    exact ih
  | case4 sign comparison t ts hk equals ih | case5 sign comparison t ts hk equals ih =>
    rw [mirrored_cons, readFilter.eq_def]
    simp only [Token.kind_mirror, hk, Kind.mirror, takeEquals_mirrored]
    exact ih
  -- a subquery: where there are none, where it is empty, and where it is the value
  | case7 sign comparison t ts hk hnone =>
    rw [mirrored_cons, readFilter.eq_def]
    simp only [Token.kind_mirror, hk, Kind.mirror, hnone]
    rfl
  | case8 sign comparison t ts hk body hb hnil ih =>
    subst hb
    rw [mirrored_cons, readFilter.eq_def]
    simp only [Token.kind_mirror, hk, Kind.mirror, subqueryBody_mirrored, hbody body rfl, hnil,
      List.map_nil, afterSubquery_mirrored]
    exact ih
  | case9 sign comparison t ts hk body hb hne =>
    subst hb
    obtain ⟨n, ns, hnodes⟩ := List.exists_cons_of_ne_nil fun h => hne h
    rw [mirrored_cons, readFilter.eq_def]
    simp only [Token.kind_mirror, hk, Kind.mirror, subqueryBody_mirrored, hbody body rfl, hnodes,
      List.map_cons, afterSubquery_mirrored, dropFilterEnd_mirrored]
    rw [← List.map_cons, ← mirror_subquery, ← mirror_filterOn]
    rfl
  -- a range: without an end, as the values of its bounds, and as one
  | case10 sign comparison t ts b hk hrange ih =>
    rw [mirrored_cons, readFilter.eq_def]
    simp only [Token.kind_mirror, hk, Kind.mirror, readRange?_mirrored, hrange, Option.map_none]
    exact ih
  | case11 sign comparison t ts b hk ls rest hrange =>
    rw [mirrored_cons, readFilter.eq_def]
    simp only [Token.kind_mirror, hk, Kind.mirror, readRange?_mirrored, hrange, Option.map_some,
      RangeReading.mirror, dropFilterEnd_mirrored, Progress.mirror, mirror_map_ofLeaf]
  | case12 sign comparison t ts b hk i rest hrange =>
    rw [mirrored_cons, readFilter.eq_def]
    simp only [Token.kind_mirror, hk, Kind.mirror, readRange?_mirrored, hrange, Option.map_some,
      RangeReading.mirror, dropFilterEnd_mirrored, Progress.mirror, ← Node.mirror_ofInterval,
      ← mirror_filterOn, List.map_cons, List.map_nil]
  -- a leaf: without a value of its kind, and with one
  | case13 sign comparison t ts hread _ _ _ _ _ _ _ hleaf ih =>
    rw [mirrored_cons, readFilter_leaf _ _ _ _ (by simpa using hleaf), readLeaf?_mirrored, hread]
    exact ih
  | case14 sign comparison t ts l rest hread _ _ _ _ _ _ _ hleaf =>
    rw [mirrored_cons, readFilter_leaf _ _ _ _ (by simpa using hleaf), readLeaf?_mirrored, hread]
    simp only [Option.map_some, dropFilterEnd_mirrored, Progress.mirror, List.map_cons,
      List.map_nil, mirror_filterOn, Node.mirror_ofLeaf]
  | case15 sign comparison t ts =>
    rw [mirrored_cons, readFilter.eq_def]
    cases hk : t.kind <;> simp_all [Kind.mirror, Kind.isLeaf, Progress.mirror]

/-! ## Sequences -/

omit hbody in
theorem mirror_subqueryNodes (ns : List Node) :
    subqueryNodes (ns.map Node.mirror) = (subqueryNodes ns).map Node.mirror := by
  cases ns with
  | nil => rfl
  | cons n ns =>
    show [Node.subquery ((n :: ns).map Node.mirror) {}] = [(Node.subquery (n :: ns) {}).mirror]
    rw [mirror_subquery]

omit hbody in
theorem RangeReading.nodes_mirror (reading : RangeReading) :
    reading.mirror.nodes = reading.nodes.map Node.mirror := by
  cases reading with
  | interval i => simp only [mirror, nodes, List.map_cons, List.map_nil, Node.mirror_ofInterval]
  | leaves ls => exact (mirror_map_ofLeaf ls).symm

/-- **Handling a mirrored token gives the mirror of what the token gives.** -/
theorem step_mirrored (sign : Option Sign) (t : Token) (ts : List Token) :
    step limits body? (sign.map Sign.mirror) t.mirror (mirrored ts) =
      (step limits body? sign t ts).mirror := by
  unfold step
  rw [Token.kind_mirror]
  cases hk : t.kind with
  | sign s => rfl
  | and | or | subqueryEnd => rfl
  | subqueryStart =>
    cases hb : body? with
    | none => rfl
    | some body =>
      simp only [Kind.mirror, subqueryBody_mirrored, hbody body hb, mirror_subqueryNodes,
        afterSubquery_mirrored, finish_mirrored]
  | filterStart =>
    simp only [Kind.mirror, Token.text?_mirror, readFilter_mirrored hbody, Progress.mirror,
      finish_mirrored]
  | rangeStart b =>
    simp only [Kind.mirror, readRange?_mirrored]
    cases readRange? b ts with
    | none => rfl
    | some p =>
      simp only [Option.map_some, RangeReading.nodes_mirror, finish_mirrored]
  | boost | fuzzy =>
    simp only [Kind.mirror, takeNumber_mirrored]
    rfl
  | _ =>
    simp only [Kind.mirror, readLeaf?_mirrored]
    cases readLeaf? t ts with
    | none => rfl
    | some p =>
      simp only [Option.map_some]
      rw [← finish_mirrored, List.map_cons, Node.mirror_ofLeaf, List.map_nil]

theorem sequence_mirrored (sign : Option Sign) (ts : List Token) :
    sequence limits body? (sign.map Sign.mirror) (mirrored ts) =
      (sequence limits body? sign ts).map Node.mirror := by
  fun_induction sequence limits body? sign ts with
  | case1 sign => rw [mirrored_nil, sequence]; rfl
  | case2 sign t ts p ih =>
    rw [mirrored_cons, sequence_cons, step_mirrored limits hbody, List.map_append]
    exact congrArg _ ih

omit hbody in
theorem bodyMirrors_parseBody : BodyMirrors (some (parseBody limits)) := by
  rintro body ⟨⟩ ts
  exact sequence_mirrored limits bodyMirrors_none none ts

omit hbody in
/-- **Signs and brackets are treated alike.** With the two signs exchanged, and the two pairs of
brackets, tokens give the same trees with their signs and brackets exchanged. -/
theorem parseTokens_mirror (ts : List Token) :
    parseTokens limits (ts.map Token.mirror) = Node.mirrorList (parseTokens limits ts) := by
  rw [Node.mirrorList_eq_map]
  exact sequence_mirrored limits (bodyMirrors_parseBody limits) none ts

end Query

end SearchLang
