import Mathlib.Data.List.Flatten
import SearchLang.Proofs.Parse.Values

/-!
# The entries of parsed trees

Parsing invents, repeats and moves nothing, whatever the tokens are: the signs
and values of the trees are among those of the tokens, in their order. A sign
that waits for a node is the last one passed, so it stands before all tokens
that are left; this is what every reader keeps.
-/

namespace SearchLang.Query

/-- The entries of some tokens. -/
def tokenEntries (ts : List Token) : List Entry :=
  ts.flatMap Token.entries

/-- The entry of a sign that waits for a node. -/
def signEntries (sign : Option Sign) : List Entry :=
  sign.toList.map .sign

theorem tokenEntries_cons (t : Token) (ts : List Token) :
    tokenEntries (t :: ts) = t.entries ++ tokenEntries ts := rfl

theorem tokenEntries_append (ts us : List Token) :
    tokenEntries (ts ++ us) = tokenEntries ts ++ tokenEntries us :=
  List.flatMap_append

/-- Tokens that are passed over leave a part of the entries. -/
theorem tokenEntries_sublist {ts us : List Token} (h : us <:+ ts) :
    (tokenEntries us).Sublist (tokenEntries ts) :=
  h.sublist.flatMap Token.entries

theorem tokenEntries_sublist_cons (t : Token) (ts : List Token) :
    (tokenEntries ts).Sublist (tokenEntries (t :: ts)) :=
  tokenEntries_sublist (List.suffix_cons t ts)

theorem entriesList_append (ms ns : List Node) :
    Node.entriesList (ms ++ ns) = Node.entriesList ms ++ Node.entriesList ns := by
  simp only [Node.entriesList_eq_flatMap, List.flatMap_append]

theorem entriesList_singleton (n : Node) : Node.entriesList [n] = n.entries := by
  simp [Node.entriesList]

/-! ## Modifiers -/

/-- The entries of a node without its sign. -/
def contentEntries : Node → List Entry
  | .leaf l _ => [.value l.literal]
  | .range i _ => i.literals.map .value
  | .filter _ _ value _ => value.entries
  | .subquery nodes _ => Node.entriesList nodes

theorem entries_eq_signEntries_append (n : Node) :
    n.entries = signEntries n.modifiers.sign ++ contentEntries n := by
  cases n <;> simp only [Node.entries, contentEntries, Modifiers.entries, signEntries, Node.modifiers]

@[simp] theorem contentEntries_withModifiers (m : Modifiers) (n : Node) :
    contentEntries (n.withModifiers m) = contentEntries n := by
  cases n <;> rfl

/-- Amounts are no entries. -/
theorem entries_attachModifiers (limits : Limits) (n : Node) (ts : List Token) :
    (attachModifiers limits n ts).1.entries = n.entries := by
  obtain ⟨m, hsign, hm⟩ := attachModifiers_fst limits n ts
  simp only [entries_eq_signEntries_append, hm, contentEntries_withModifiers,
    Node.modifiers_withModifiers, hsign]

/-- A sign replaces the one of the first node, if there was one. -/
theorem entriesList_signFirst (sign : Option Sign) (nodes : List Node) :
    (Node.entriesList (signFirst sign nodes)).Sublist
      (signEntries sign ++ Node.entriesList nodes) := by
  cases nodes with
  | nil => exact List.nil_sublist _
  | cons n nodes =>
    rw [signFirst, Node.entriesList, Node.entriesList, entries_eq_signEntries_append n,
      entries_eq_signEntries_append, Node.withSign, contentEntries_withModifiers,
      Node.modifiers_withModifiers]
    simp only [List.append_assoc]
    exact (List.sublist_append_right _ _).append_left _

/-- What a reader makes of its tokens: the entries of its nodes, of the sign that it leaves to the
next node and of the tokens that it leaves, in this order. -/
def Progress.entries (p : Progress) : List Entry :=
  Node.entriesList p.nodes ++ signEntries p.sign ++ tokenEntries p.rest

/-- Finishing nodes puts the waiting sign before them, and leaves none. -/
theorem entries_finish (limits : Limits) (sign : Option Sign) (nodes : List Node)
    (ts : List Token) :
    (finish limits sign nodes ts).entries.Sublist
      (signEntries sign ++ Node.entriesList nodes ++ tokenEntries ts) := by
  have hnodes : Node.entriesList (finish limits sign nodes ts).nodes =
      Node.entriesList (signFirst sign nodes) := by
    show Node.entriesList (attachToLast limits (signFirst sign nodes) ts).1 = _
    generalize signFirst sign nodes = signed
    fun_induction attachToLast limits signed ts with
    | case1 ts => rfl
    | case2 n ts => simp only [entriesList_singleton, entries_attachModifiers]
    | case3 ts n nodes _ ih => rw [Node.entriesList, Node.entriesList, ih]
  have hsign : signEntries (finish limits sign nodes ts).sign = [] := rfl
  rw [Progress.entries, hnodes, hsign, List.append_nil]
  exact (entriesList_signFirst sign nodes).append
    (tokenEntries_sublist (finish_suffix limits sign nodes ts))

/-! ## Leaves and ranges -/

/-- A leaf has the value of its token. -/
theorem entries_of_readLeaf? {t : Token} {ts rest : List Token} {l : Leaf}
    (h : readLeaf? t ts = some (l, rest)) : t.entries = [.value l.literal] := by
  obtain ⟨kind, literal⟩ := t
  cases kind <;> simp only [readLeaf?] at h <;>
    simp only [reduceCtorEq, Option.map_eq_some_iff] at h
  all_goals
    obtain ⟨value, hvalue, h⟩ := h
    rcases literal with _ | ⟨n | s⟩ <;>
      simp only [Token.number?, Token.text?, reduceCtorEq, Option.some.injEq] at hvalue
    subst hvalue
  · cases h; rfl
  · have hl : l.literal = .text s := by
      split at h
      · split at h <;> (cases h; rfl)
      · cases h; rfl
    rw [hl]
    rfl
  · cases h; rfl

/-- A leaf that was read takes its value from the tokens. -/
theorem entries_readLeaf? {t : Token} {ts rest : List Token} {l : Leaf}
    (h : readLeaf? t ts = some (l, rest)) :
    (Entry.value l.literal :: tokenEntries rest).Sublist (tokenEntries (t :: ts)) := by
  rw [tokenEntries_cons, entries_of_readLeaf? h]
  exact (tokenEntries_sublist (readLeaf?_suffix h)).cons_cons _

/-- The entries of the bounds of a range. -/
def boundEntries (bounds : List Leaf) : List Entry :=
  bounds.map fun l => .value l.literal

theorem entriesList_map_ofLeaf (ls : List Leaf) :
    Node.entriesList (ls.map .ofLeaf) = boundEntries ls := by
  induction ls with
  | nil => rfl
  | cons l ls ih =>
    rw [List.map_cons, Node.entriesList, ih]
    rfl

theorem entries_readBound (ts : List Token) :
    (boundEntries (readBound ts).1.toList ++ tokenEntries (readBound ts).2).Sublist
      (tokenEntries ts) := by
  cases ts with
  | nil => exact List.nil_sublist _
  | cons t ts =>
    rw [readBound]
    split
    · exact tokenEntries_sublist_cons t ts
    · split
      · split
        · rename_i l rest hread
          exact entries_readLeaf? hread
        · exact tokenEntries_sublist_cons t ts
      · exact List.Sublist.refl _

/-- The bounds of a range are the values of the leaves that have one of its type. -/
theorem literals_of? {α : Type} {value : Leaf → Option α} {literal : α → Literal}
    {lower upper : Option Leaf} {exclusive : Bool} {r : Range α}
    (hvalue : ∀ l ∈ lower.toList ++ upper.toList, ∃ a, value l = some a ∧ l.literal = literal a)
    (h : Range.of? (lower.bind value) (upper.bind value) exclusive = some r) :
    ((r.lower.toList ++ r.upper.toList).map literal).map .value =
      boundEntries (lower.toList ++ upper.toList) := by
  have hbound {bound : Option Leaf}
      (hb : ∀ l ∈ bound.toList, ∃ a, value l = some a ∧ l.literal = literal a) :
      ((bound.bind value).toList.map literal).map Entry.value = boundEntries bound.toList := by
    cases bound with
    | none => rfl
    | some l =>
      obtain ⟨a, ha, hl⟩ := hb l (by simp)
      simp [ha, hl, boundEntries]
  unfold Range.of? at h
  split at h
  · simp at h
  · cases h
    have hlower := hbound fun l hl => hvalue l (List.mem_append_left _ hl)
    have hupper := hbound fun l hl => hvalue l (List.mem_append_right _ hl)
    simp only [List.map_append, hlower, hupper]
    simp [boundEntries]

theorem literals_of_interval? {lower upper : Option Leaf} {exclusive : Bool} {i : Interval}
    (h : interval? lower upper exclusive = some i) :
    i.literals.map .value = boundEntries (lower.toList ++ upper.toList) := by
  -- a bound of a type has a value of the type, and it is the value of the leaf
  have hclass {c : BoundClass} (hc : sharedClass? lower upper = some c) (l : Leaf)
      (hl : l ∈ lower.toList ++ upper.toList) : boundClass? l = some c :=
    boundClass?_of_sharedClass? hc l hl
  have htext {l : Leaf} {c : BoundClass} (hc : boundClass? l = some c) (hne : c ≠ .number) :
      ∃ s, l.text? = some s ∧ l.literal = .text s := by
    cases l with
    | number n => cases hc; exact absurd rfl hne
    | word s wildcard => exact ⟨s, rfl, rfl⟩
    | text form s => exact ⟨s, rfl, rfl⟩
  have hnumber {l : Leaf} (hc : boundClass? l = some .number) :
      ∃ n, l.number? = some n ∧ l.literal = .number n := by
    cases l with
    | number n => exact ⟨n, rfl, rfl⟩
    | word s wildcard => cases hc
    | text form s => cases form <;> cases hc
  unfold interval? at h
  split at h
  · simp at h
  · rename_i hc
    obtain ⟨r, hr, rfl⟩ := Option.map_eq_some_iff.mp h
    exact literals_of? (fun l hl => htext (hclass hc l hl) (by simp)) hr
  · rename_i hc
    obtain ⟨r, hr, rfl⟩ := Option.map_eq_some_iff.mp h
    exact literals_of? (fun l hl => hnumber (hclass hc l hl)) hr
  · rename_i hc
    obtain ⟨r, hr, rfl⟩ := Option.map_eq_some_iff.mp h
    exact literals_of? (fun l hl => htext (hclass hc l hl) (by simp)) hr

/-- As a range and as values of their own, two bounds stand for the same entries. -/
theorem entriesList_ofBounds (lower upper : Option Leaf) (exclusive : Bool) :
    Node.entriesList (RangeReading.ofBounds lower upper exclusive).nodes =
      boundEntries (lower.toList ++ upper.toList) := by
  unfold RangeReading.ofBounds
  split
  · rename_i i hi
    rw [← literals_of_interval? hi]
    simp [RangeReading.nodes, entriesList_singleton, Node.ofInterval, Node.entries,
      Modifiers.entries]
  · exact entriesList_map_ofLeaf _

/-- The bounds of a range stand in the order of their tokens, before what follows it. -/
theorem entries_readRange? {b : Bracket} {ts rest : List Token} {r : RangeReading}
    (h : readRange? b ts = some (r, rest)) :
    (Node.entriesList r.nodes ++ tokenEntries rest).Sublist (tokenEntries ts) := by
  unfold readRange? at h
  split at h
  · simp only [Option.some.injEq, Prod.mk.injEq] at h
    obtain ⟨rfl, rfl⟩ := h
    have hlower := entries_readBound ts
    have hskip := tokenEntries_sublist (skipToUpper_suffix (readBound ts).2)
    have hupper := entries_readBound (skipToUpper (readBound ts).2)
    have hend := tokenEntries_sublist
      (skipRangeEnd_suffix (readBound (skipToUpper (readBound ts).2)).2)
    rw [entriesList_ofBounds, boundEntries, List.map_append, List.append_assoc]
    have hafter := ((hend.append_left _).trans hupper).trans hskip
    exact (hafter.append_left _).trans hlower
  · simp at h

/-! ## Filters -/

/-- The parser for the bodies of subqueries gives entries of the tokens in their order. -/
def BodyOrdered (body? : Option BodyParser) : Prop :=
  ∀ body ∈ body?, ∀ us, (Node.entriesList (body us)).Sublist (tokenEntries us)

/-- The entries of a subquery, and those after it. -/
theorem tokenEntries_subquery (ts : List Token) :
    (tokenEntries (subqueryBody ts) ++ tokenEntries (afterSubquery ts)).Sublist
      (tokenEntries ts) := by
  have hsplit : subqueryBody ts ++ (ts.dropWhile fun t => t.kind != .subqueryEnd) = ts :=
    List.takeWhile_append_dropWhile
  have hafter : (subqueryBody ts ++ afterSubquery ts).Sublist ts := by
    have hdrop := (List.drop_sublist 1 (ts.dropWhile fun t => t.kind != .subqueryEnd)).append_left
      (subqueryBody ts)
    rwa [hsplit] at hdrop
  rw [← tokenEntries_append]
  exact hafter.flatMap Token.entries

theorem entries_filterOn (field : Text) (comparison : Option Comparison) (value : Node) :
    (filterOn field comparison value).entries = value.entries := by
  simp [filterOn, Node.entries, Modifiers.entries]

/-- What a reader of filters takes: the sign of the filter stands before its nodes. -/
def Progress.filterEntries (p : Progress) : List Entry :=
  signEntries p.sign ++ Node.entriesList p.nodes ++ tokenEntries p.rest

/-- A filter end after a value is passed over. -/
theorem filterEntries_value {nodes : List Node} {rest ts : List Token} (sign : Option Sign)
    (h : (Node.entriesList nodes ++ tokenEntries rest).Sublist (tokenEntries ts)) :
    (Progress.filterEntries ⟨nodes, sign, dropFilterEnd rest⟩).Sublist
      (signEntries sign ++ tokenEntries ts) := by
  have hend := tokenEntries_sublist (dropFilterEnd_suffix rest)
  rw [Progress.filterEntries, List.append_assoc]
  exact ((hend.append_left _).trans h).append_left _

/-- **A filter takes signs and values in the order of the tokens.** Of the signs before its value
the last one stays. -/
theorem entries_readFilter {body? : Option BodyParser} (hbody : BodyOrdered body?) (field : Text)
    (sign : Option Sign) (comparison : Option Comparison) (us : List Token) :
    (readFilter body? field sign comparison us).filterEntries.Sublist
      (signEntries sign ++ tokenEntries us) := by
  -- the tokens that are passed over may be left out
  have hpass {sign : Option Sign} {us ts : List Token} (h : us <:+ ts) :
      (signEntries sign ++ tokenEntries us).Sublist (signEntries sign ++ tokenEntries ts) :=
    (tokenEntries_sublist h).append_left _
  fun_induction readFilter body? field sign comparison us with
  | case1 sign comparison => simp [Progress.filterEntries, Node.entriesList]
  | case2 sign comparison t us _ =>
    have htail : (signEntries sign ++ tokenEntries us).Sublist _ := hpass (List.suffix_cons t us)
    simpa [Progress.filterEntries, Node.entriesList] using htail
  | case3 sign comparison t us s hk ih =>
    refine ih.trans ?_
    have ht : t.entries = signEntries (some s) := by simp [Token.entries, hk, signEntries]
    rw [tokenEntries_cons, ht]
    exact List.sublist_append_right _ _
  | case4 sign comparison t us _ equals ih | case5 sign comparison t us _ equals ih =>
    exact ih.trans (hpass ((takeEquals_suffix us).trans (List.suffix_cons t us)))
  | case6 sign comparison t us _ ih => exact ih.trans (hpass (List.suffix_cons t us))
  -- a subquery: where there are none, where it is empty, and where it is the value
  | case7 sign comparison t us => simp [Progress.filterEntries, Node.entriesList]
  | case8 sign comparison t us _ body hb _ ih =>
    subst hb
    exact ih.trans (hpass ((afterSubquery_suffix us).trans (List.suffix_cons t us)))
  | case9 sign comparison t us _ body hb hne =>
    refine filterEntries_value sign ?_
    rw [entriesList_singleton, entries_filterOn]
    exact (((hbody body hb _).append_right _).trans (tokenEntries_subquery us)).trans
      (tokenEntries_sublist_cons t us)
  -- a range: without an end, as the values of its bounds, and as one
  | case10 sign comparison t us b _ _ ih => exact ih.trans (hpass (List.suffix_cons t us))
  | case11 sign comparison t us b _ ls rest hrange =>
    exact filterEntries_value sign
      ((entries_readRange? hrange).trans (tokenEntries_sublist_cons t us))
  | case12 sign comparison t us b _ i rest hrange =>
    refine filterEntries_value sign ?_
    have hread := entries_readRange? hrange
    rw [RangeReading.nodes, entriesList_singleton] at hread
    rw [entriesList_singleton, entries_filterOn]
    exact hread.trans (tokenEntries_sublist_cons t us)
  -- a leaf: without a value of its kind, and with one
  | case13 sign comparison t us _ _ _ _ _ _ _ _ _ ih => exact ih.trans (hpass (List.suffix_cons t us))
  | case14 sign comparison t us l rest hread =>
    refine filterEntries_value sign ?_
    rw [entriesList_singleton, entries_filterOn]
    exact entries_readLeaf? hread
  | case15 sign comparison t us => simp [Progress.filterEntries, Node.entriesList]

/-! ## Sequences -/

/-- **A step takes signs and values in the order of the tokens**, after the sign that waits. -/
theorem entries_step {body? : Option BodyParser} (hbody : BodyOrdered body?) (limits : Limits)
    (sign : Option Sign) (t : Token) (us : List Token) :
    (step limits body? sign t us).entries.Sublist
      (signEntries sign ++ tokenEntries (t :: us)) := by
  -- a token that is passed over leaves the sign waiting
  have hpass {rest : List Token} (h : rest <:+ us) :
      (Progress.entries ⟨[], sign, rest⟩).Sublist (signEntries sign ++ tokenEntries (t :: us)) :=
    (tokenEntries_sublist (h.trans (List.suffix_cons t us))).append_left _
  have hfinish {nodes : List Node} {rest : List Token}
      (h : (Node.entriesList nodes ++ tokenEntries rest).Sublist (tokenEntries (t :: us))) :
      (finish limits sign nodes rest).entries.Sublist
        (signEntries sign ++ tokenEntries (t :: us)) := by
    refine (entries_finish limits sign nodes rest).trans ?_
    rw [List.append_assoc]
    exact h.append_left _
  unfold step
  split
  · rename_i s hk
    have ht : t.entries = signEntries (some s) := by simp [Token.entries, hk, signEntries]
    rw [tokenEntries_cons, ht]
    exact List.sublist_append_right _ _
  · exact hpass (List.suffix_refl us)
  · exact hpass (List.suffix_refl us)
  · exact hpass (List.suffix_refl us)
  · split
    · exact hpass (List.suffix_refl us)
    · rename_i body
      refine hfinish ?_
      have hnodes : Node.entriesList (subqueryNodes (body (subqueryBody us))) =
          Node.entriesList (body (subqueryBody us)) := by
        cases body (subqueryBody us) with
        | nil => rfl
        | cons n nodes =>
          simp [subqueryNodes, entriesList_singleton, Node.entries, Modifiers.entries]
      rw [hnodes]
      exact (((hbody body rfl _).append_right _).trans (tokenEntries_subquery us)).trans
        (tokenEntries_sublist_cons t us)
  · refine (entries_finish limits _ _ _).trans ?_
    exact (entries_readFilter hbody _ sign none us).trans
      ((tokenEntries_sublist_cons t us).append_left _)
  · split
    · exact hpass (List.suffix_refl us)
    · rename_i hrange
      exact hfinish ((entries_readRange? hrange).trans (tokenEntries_sublist_cons t us))
  · exact hpass (takeNumber_suffix us)
  · exact hpass (takeNumber_suffix us)
  · split
    · exact hpass (List.suffix_refl us)
    · rename_i hread
      exact hfinish (entries_readLeaf? hread)

/-- A run of steps takes signs and values in the order of the tokens. -/
theorem entries_sequence {body? : Option BodyParser} (hbody : BodyOrdered body?)
    (limits : Limits) (sign : Option Sign) (us : List Token) :
    (Node.entriesList (sequence limits body? sign us)).Sublist
      (signEntries sign ++ tokenEntries us) := by
  fun_induction sequence limits body? sign us with
  | case1 sign => exact List.nil_sublist _
  | case2 sign t us p ih =>
    rw [entriesList_append]
    refine (ih.append_left _).trans ?_
    rw [← List.append_assoc]
    exact entries_step hbody limits sign t us

theorem bodyOrdered_parseBody (limits : Limits) : BodyOrdered (some (parseBody limits)) := by
  have hnone : BodyOrdered none := by simp [BodyOrdered]
  intro body hb us
  obtain rfl := Option.some.inj hb
  exact entries_sequence hnone limits none us

/-- **Parsing invents, repeats and moves nothing.** The signs and values of the trees, each sign
before what it applies to, are some of the signs and values of the tokens in their order. -/
theorem entriesList_parseTokens (limits : Limits) (ts : List Token) :
    (Node.entriesList (parseTokens limits ts)).Sublist (ts.flatMap Token.entries) :=
  entries_sequence (bodyOrdered_parseBody limits) limits none ts

end SearchLang.Query
