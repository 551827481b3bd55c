import SearchLang.Node.Values
import SearchLang.Proofs.Parse.Shape

/-!
# The values of parsed trees

Outside of ranges a query keeps its values. When no range ends and every token
that stands for a value carries one, the leaves of the trees hold the values of
the tokens in their order, without the numbers that boosts and fuzzies take.
Every reader accounts for the values of the tokens that it passes over.
-/

namespace SearchLang

namespace Token

/-! ## Values of tokens -/

/-- Whether a token that stands for a value carries one of its type. -/
def isTyped (t : Token) : Bool :=
  match t.kind with
  | .number => t.number?.isSome
  | .word | .text _ => t.text?.isSome
  | _ => true

/-- The values of some tokens, without the numbers of boosts and fuzzies. -/
def values (taken : Bool) (ts : List Token) : List Literal :=
  (dropAmounts taken ts).flatMap leafValues

@[simp] theorem values_nil (taken : Bool) : values taken [] = [] := rfl

theorem values_cons (t : Token) (ts : List Token) :
    values false (t :: ts) = t.leafValues ++ values t.takesNumber ts := by
  simp [values, dropAmounts]

/-- A token that takes no number and stands for no value may be left out. -/
theorem values_cons_of_mark {t : Token} (ts : List Token) (hleaf : t.kind.isLeaf = false)
    (hb : t.kind ≠ .boost) (hf : t.kind ≠ .fuzzy) : values false (t :: ts) = values false ts := by
  have htakes : t.takesNumber = false := by simp [takesNumber, hb, hf]
  simp [values_cons, leafValues, hleaf, htakes]

/-- The tokens after a value keep their values: it takes no number. -/
theorem values_cons_of_leaf {t : Token} (ts : List Token) (hleaf : t.kind.isLeaf = true) :
    values false (t :: ts) = t.leafValues ++ values false ts := by
  have htakes : t.takesNumber = false := by
    cases hk : t.kind <;> simp_all [Kind.isLeaf, takesNumber]
  rw [values_cons, htakes]

/-- Only a number at the front can be taken. -/
theorem values_of_ne_number (taken : Bool) {ts : List Token}
    (h : ∀ t ∈ ts.head?, t.kind ≠ .number) : values taken ts = values false ts := by
  cases ts with
  | nil => rfl
  | cons t ts =>
    have ht : t.kind ≠ .number := h t rfl
    simp [values, dropAmounts, ht]

/-- No number passes from one part of a list to the next if that starts with none. -/
theorem values_append (taken : Bool) (ts : List Token) {us : List Token}
    (h : ∀ u ∈ us.head?, u.kind ≠ .number) :
    values taken (ts ++ us) = values taken ts ++ values false us := by
  induction ts generalizing taken with
  | nil => exact values_of_ne_number taken h
  | cons t ts ih =>
    simp only [values, List.cons_append, dropAmounts] at ih ⊢
    split
    · exact ih false
    · simp [ih]

end Token

namespace Query

open Token

/-- A modifier takes the number after it. -/
theorem values_takeNumber (ts : List Token) :
    values true ts = values false (takeNumber ts).2 := by
  cases ts with
  | nil => rfl
  | cons t ts =>
    rw [takeNumber]
    split
    · rename_i hk
      simp [values, dropAmounts, hk]
    · rename_i hk
      exact values_of_ne_number true (by simpa using hk)

theorem values_modifier {t : Token} (ts : List Token) (h : t.kind = .boost ∨ t.kind = .fuzzy) :
    values false (t :: ts) = values false (takeNumber ts).2 := by
  have htakes : t.takesNumber = true := by rcases h with h | h <;> simp [takesNumber, h]
  have hleaf : t.leafValues = [] := by rcases h with h | h <;> simp [leafValues, h, Kind.isLeaf]
  rw [values_cons, htakes, hleaf, List.nil_append, values_takeNumber]

theorem values_takeEquals (ts : List Token) : values false (takeEquals ts).2 = values false ts := by
  cases ts with
  | nil => rfl
  | cons t ts =>
    rw [takeEquals]
    split
    · rename_i hk
      rw [values_cons_of_mark ts] <;> simp [hk, Kind.isLeaf]
    · rfl

theorem values_dropFilterEnd (ts : List Token) :
    values false (dropFilterEnd ts) = values false ts := by
  cases ts with
  | nil => rfl
  | cons t ts =>
    rw [dropFilterEnd]
    split
    · rename_i hk
      rw [values_cons_of_mark ts] <;> simp [hk, Kind.isLeaf]
    · rfl

/-- The values of a subquery and those after it are all. -/
theorem values_subquery (ts : List Token) :
    values false (subqueryBody ts) ++ values false (afterSubquery ts) = values false ts := by
  have hsplit : ts = subqueryBody ts ++ ts.dropWhile fun t => t.kind != .subqueryEnd :=
    List.takeWhile_append_dropWhile.symm
  cases hrest : ts.dropWhile fun t => t.kind != .subqueryEnd with
  | nil =>
    rw [hrest, List.append_nil] at hsplit
    simp [afterSubquery, hrest, ← hsplit]
  | cons t us =>
    have hk : t.kind = .subqueryEnd := by
      have hhead := List.head?_dropWhile_not (fun t : Token => t.kind != .subqueryEnd) ts
      simpa [hrest] using hhead
    have hafter : afterSubquery ts = us := by simp [afterSubquery, hrest]
    have hend : values false (t :: us) = values false us :=
      values_cons_of_mark us (by simp [hk, Kind.isLeaf]) (by simp [hk]) (by simp [hk])
    have hnumber : ∀ u ∈ (t :: us).head?, u.kind ≠ .number := by simp [hk]
    calc values false (subqueryBody ts) ++ values false (afterSubquery ts)
        = values false (subqueryBody ts) ++ values false (t :: us) := by rw [hafter, hend]
      _ = values false (subqueryBody ts ++ t :: us) := (values_append false _ hnumber).symm
      _ = values false ts := by rw [← hrest, ← hsplit]

/-! ## Modifiers -/

/-- Attaching modifiers changes the amounts of a node, not its sign. -/
theorem attachModifiers_fst (limits : Limits) (n : Node) (ts : List Token) :
    ∃ m : Modifiers, m.sign = n.modifiers.sign ∧
      (attachModifiers limits n ts).1 = n.withModifiers m := by
  fun_induction attachModifiers limits n ts with
  | case1 n => exact ⟨n.modifiers, rfl, n.withModifiers_modifiers.symm⟩
  | case2 n t ts _ ih =>
    obtain ⟨m, hsign, hm⟩ := ih
    exact ⟨m, by simpa [Node.withBoost] using hsign, by simpa [Node.withBoost] using hm⟩
  | case3 n t ts _ node ih =>
    obtain ⟨m, hsign, hm⟩ := ih
    by_cases hs : n.supportsFuzzy = true
    · simp only [node, hs] at hsign hm ⊢
      exact ⟨m, by simpa [Node.withFuzzy] using hsign, by simpa [Node.withFuzzy] using hm⟩
    · simp only [node, hs] at hsign hm ⊢
      exact ⟨m, hsign, hm⟩
  | case4 n t ts _ _ => exact ⟨n.modifiers, rfl, n.withModifiers_modifiers.symm⟩

@[simp] theorem leafValues_withModifiers (m : Modifiers) (n : Node) :
    (n.withModifiers m).leafValues = n.leafValues := by
  cases n <;> simp only [Node.withModifiers, Node.leafValues]

/-- The modifiers that are attached take their own numbers. -/
theorem values_attachModifiers (limits : Limits) (n : Node) (ts : List Token) :
    values false (attachModifiers limits n ts).2 = values false ts := by
  fun_induction attachModifiers limits n ts with
  | case1 n => rfl
  | case2 n t ts hk ih => rw [ih, values_modifier ts (.inl hk)]
  | case3 n t ts hk node ih => rw [ih, values_modifier ts (.inr hk)]
  | case4 n t ts _ _ => rfl

/-- Finishing nodes keeps their values and those of the tokens after them. -/
theorem values_finish (limits : Limits) (sign : Option Sign) (nodes : List Node)
    (ts : List Token) :
    Node.leafValuesList (finish limits sign nodes ts).nodes = Node.leafValuesList nodes ∧
      values false (finish limits sign nodes ts).rest = values false ts := by
  have hsigned : Node.leafValuesList (signFirst sign nodes) = Node.leafValuesList nodes := by
    cases nodes with
    | nil => rfl
    | cons n nodes => simp [signFirst, Node.leafValuesList, Node.withSign]
  rw [← hsigned]
  show Node.leafValuesList (attachToLast limits (signFirst sign nodes) ts).1 = _ ∧
    values false (attachToLast limits (signFirst sign nodes) ts).2 = _
  generalize signFirst sign nodes = signed
  fun_induction attachToLast limits signed ts with
  | case1 ts => exact ⟨rfl, rfl⟩
  | case2 n ts =>
    obtain ⟨m, -, hm⟩ := attachModifiers_fst limits n ts
    exact ⟨by simp [Node.leafValuesList, hm], values_attachModifiers limits n ts⟩
  | case3 ts n nodes _ ih => exact ⟨by rw [Node.leafValuesList, Node.leafValuesList, ih.1], ih.2⟩

/-! ## Readers -/

/-- A typed leaf token is read, with its value. -/
theorem values_readLeaf? {t : Token} (htyped : t.isTyped = true) (hleaf : t.kind.isLeaf = true)
    (ts : List Token) :
    ∃ l rest, readLeaf? t ts = some (l, rest) ∧ t.leafValues = [l.literal] ∧
      values false rest = values false ts := by
  obtain ⟨kind, literal⟩ := t
  cases kind <;> simp only [Kind.isLeaf, Bool.false_eq_true] at hleaf
  all_goals
    rcases literal with _ | ⟨n | s⟩ <;>
      simp only [Token.isTyped, Token.number?, Token.text?, Option.isSome, Bool.false_eq_true]
        at htyped
  · exact ⟨.number n, ts, rfl, rfl, rfl⟩
  · -- a wildcard after the word goes with it, and has no value
    cases ts with
    | nil => exact ⟨.word s false, [], rfl, rfl, rfl⟩
    | cons w ts =>
      by_cases hw : w.kind = .wildcard
      · refine ⟨.word s true, ts, by simp [readLeaf?, Token.text?, hw], rfl, ?_⟩
        rw [values_cons_of_mark ts] <;> simp [hw, Kind.isLeaf]
      · exact ⟨.word s false, w :: ts, by simp [readLeaf?, Token.text?, hw], rfl, rfl⟩
  · rename_i form
    exact ⟨.text form s, ts, rfl, rfl, rfl⟩

/-- Tokens of which parsing loses no value: they are typed, and no range ends. -/
structure Lossless (ts : List Token) : Prop where
  typed : ∀ t ∈ ts, t.isTyped = true
  endless : ∀ t ∈ ts, t.kind.isRangeEnd = false

theorem Lossless.subset {ts us : List Token} (h : Lossless ts) (hsub : us ⊆ ts) : Lossless us :=
  ⟨fun t ht => h.typed t (hsub ht), fun t ht => h.endless t (hsub ht)⟩

/-- Without a range end there is no range. -/
theorem Lossless.readRange?_eq_none {ts : List Token} (h : Lossless ts) (b : Bracket) :
    readRange? b ts = none := by
  have hend : hasRangeEnd ts = false := by
    unfold hasRangeEnd
    split
    · rename_i t ht
      exact h.endless t (List.mem_of_find?_eq_some ht)
    · rfl
  simp [readRange?, hend]

/-- The parser for the bodies of subqueries loses no value. -/
def BodyLossless (body? : Option BodyParser) : Prop :=
  ∀ body ∈ body?, ∀ us, Lossless us → Node.leafValuesList (body us) = values false us

theorem leafValues_filterOn (field : Text) (comparison : Option Comparison) (value : Node) :
    (filterOn field comparison value).leafValues = value.leafValues := by
  rw [filterOn, Node.leafValues]

/-- **A filter takes the values it passes over.** What it does not take is left to the sequence. -/
theorem values_readFilter {body? : Option BodyParser} (hbody : BodyLossless body?) (field : Text)
    (sign : Option Sign) (comparison : Option Comparison) {us : List Token} (hus : Lossless us) :
    Node.leafValuesList (readFilter body? field sign comparison us).nodes ++
      values false (readFilter body? field sign comparison us).rest = values false us := by
  have htail {t : Token} {us : List Token} (h : Lossless (t :: us)) : Lossless us :=
    h.subset (List.subset_cons_self t us)
  have hmark {t : Token} {us : List Token} {k : Kind} (hk : t.kind = k) (hleaf : k.isLeaf = false)
      (hb : k ≠ .boost) (hf : k ≠ .fuzzy) : values false (t :: us) = values false us :=
    values_cons_of_mark us (hk ▸ hleaf) (hk ▸ hb) (hk ▸ hf)
  fun_induction readFilter body? field sign comparison us with
  | case1 sign comparison => rfl
  | case2 sign comparison t us hk => rw [hmark hk rfl (by simp) (by simp)]; rfl
  | case3 sign comparison t us s hk ih | case6 sign comparison t us hk ih =>
    rw [ih (htail hus), hmark hk rfl (by simp) (by simp)]
  | case4 sign comparison t us hk equals ih | case5 sign comparison t us hk equals ih =>
    rw [ih ((htail hus).subset (takeEquals_suffix us).subset), values_takeEquals,
      hmark hk rfl (by simp) (by simp)]
  -- a subquery: where there are none, where it is empty, and where it is the value
  | case7 => rfl
  | case8 sign comparison t us hk body hb hnil ih =>
    subst hb
    have hempty := hbody body rfl _ ((htail hus).subset (subqueryBody_subset us))
    rw [ih ((htail hus).subset (afterSubquery_suffix us).subset), hmark hk rfl (by simp) (by simp),
      ← values_subquery us, ← hempty, hnil]
    rfl
  | case9 sign comparison t us hk body hb hne =>
    have hnodes := hbody body hb _ ((htail hus).subset (subqueryBody_subset us))
    rw [hmark hk rfl (by simp) (by simp), ← values_subquery us, ← hnodes, values_dropFilterEnd]
    simp [Node.leafValuesList, leafValues_filterOn, Node.leafValues]
  -- a range: there is no end to one
  | case10 sign comparison t us b hk _ ih =>
    rw [ih (htail hus), hmark hk rfl (by simp) (by simp)]
  | case11 sign comparison t us b hk ls rest hrange
  | case12 sign comparison t us b hk i rest hrange =>
    simp [(htail hus).readRange?_eq_none b] at hrange
  -- a leaf: it is read, as it is typed
  | case13 sign comparison t us hread _ _ _ _ _ _ _ hleaf ih =>
    obtain ⟨l, rest, hsome, -⟩ := values_readLeaf? (hus.typed t (by simp)) hleaf us
    simp [hread] at hsome
  | case14 sign comparison t us l rest =>
    rename_i hread _ _ _ _ _ _ _ hleaf
    obtain ⟨l', rest', hsome, hvalue, hrest⟩ := values_readLeaf? (hus.typed t (by simp)) hleaf us
    obtain ⟨rfl, rfl⟩ : l = l' ∧ rest = rest' := by simpa [hread] using hsome
    rw [values_cons_of_leaf us hleaf, hvalue, values_dropFilterEnd, hrest]
    simp [Node.leafValuesList, leafValues_filterOn, Node.ofLeaf, Node.leafValues]
  | case15 => rfl

/-! ## Sequences -/

/-- **A step takes the values it passes over**, and leaves the others to the next one. -/
theorem values_step {body? : Option BodyParser} (hbody : BodyLossless body?) (limits : Limits)
    (sign : Option Sign) {t : Token} {us : List Token} (h : Lossless (t :: us)) :
    Node.leafValuesList (step limits body? sign t us).nodes ++
      values false (step limits body? sign t us).rest = values false (t :: us) := by
  have hus : Lossless us := h.subset (List.subset_cons_self t us)
  have hmark {k : Kind} (hk : t.kind = k) (hleaf : k.isLeaf = false) (hb : k ≠ .boost)
      (hf : k ≠ .fuzzy) : values false (t :: us) = values false us :=
    values_cons_of_mark us (hk ▸ hleaf) (hk ▸ hb) (hk ▸ hf)
  unfold step
  split
  · rename_i hk; rw [hmark hk rfl (by simp) (by simp)]; rfl
  · rename_i hk; rw [hmark hk rfl (by simp) (by simp)]; rfl
  · rename_i hk; rw [hmark hk rfl (by simp) (by simp)]; rfl
  · rename_i hk; rw [hmark hk rfl (by simp) (by simp)]; rfl
  -- a subquery holds the values of its body
  · rename_i hk
    rw [hmark hk rfl (by simp) (by simp)]
    split
    · rfl
    · rename_i body
      obtain ⟨hnodes, hrest⟩ := values_finish limits sign
        (subqueryNodes (body (subqueryBody us))) (afterSubquery us)
      have hchildren := hbody body rfl _ (hus.subset (subqueryBody_subset us))
      have hsubquery : Node.leafValuesList (subqueryNodes (body (subqueryBody us))) =
          values false (subqueryBody us) := by
        rw [← hchildren]
        cases body (subqueryBody us) with
        | nil => rfl
        | cons n nodes => simp [subqueryNodes, Node.leafValuesList, Node.leafValues]
      rw [hnodes, hrest, hsubquery, values_subquery]
  · rename_i hk
    rw [hmark hk rfl (by simp) (by simp)]
    obtain ⟨hnodes, hrest⟩ := values_finish limits
      (readFilter body? (t.text?.getD []) sign none us).sign
      (readFilter body? (t.text?.getD []) sign none us).nodes
      (readFilter body? (t.text?.getD []) sign none us).rest
    rw [hnodes, hrest, values_readFilter hbody _ sign none hus]
  · rename_i b hk
    rw [hmark hk rfl (by simp) (by simp), hus.readRange?_eq_none b]
    rfl
  · rename_i hk; rw [values_modifier us (.inl hk)]; rfl
  · rename_i hk; rw [values_modifier us (.inr hk)]; rfl
  -- a token of another kind stands for a value or for nothing
  · by_cases hleaf : t.kind.isLeaf = true
    · obtain ⟨l, rest, hread, hvalue, hvalues⟩ := values_readLeaf? (h.typed t (by simp)) hleaf us
      obtain ⟨hnodes, hrest⟩ := values_finish limits sign [.ofLeaf l] rest
      rw [hread]
      simp only [hnodes, hrest, hvalues, values_cons_of_leaf us hleaf, hvalue]
      simp [Node.leafValuesList, Node.ofLeaf, Node.leafValues]
    · have hnone : readLeaf? t us = none := by
        unfold readLeaf?
        cases hk : t.kind <;> simp_all [Kind.isLeaf]
      rw [hnone, values_cons_of_mark us (by simpa using hleaf) (by assumption) (by assumption)]
      rfl

/-- A run of steps loses no value. -/
theorem values_sequence {body? : Option BodyParser} (hbody : BodyLossless body?) (limits : Limits)
    (sign : Option Sign) {us : List Token} (hus : Lossless us) :
    Node.leafValuesList (sequence limits body? sign us) = values false us := by
  fun_induction sequence limits body? sign us with
  | case1 sign => rfl
  | case2 sign t us p ih =>
    have htail : Lossless us := hus.subset (List.subset_cons_self t us)
    have hrest := ih (htail.subset (step_suffix limits body? sign t us).subset)
    rw [Node.leafValuesList_eq_flatMap, List.flatMap_append, ← Node.leafValuesList_eq_flatMap,
      ← Node.leafValuesList_eq_flatMap, hrest, values_step hbody limits sign hus]

theorem bodyLossless_parseBody (limits : Limits) : BodyLossless (some (parseBody limits)) := by
  have hnone : BodyLossless none := by simp [BodyLossless]
  intro body hb us hus
  obtain rfl := Option.some.inj hb
  exact values_sequence hnone limits none hus

/-- **Outside of ranges no value is lost, invented or moved.** When every token that stands for a
value carries one of its type and no range ends, the leaves of the trees hold exactly these values
in their order, but for the numbers that boosts and fuzzies take. -/
theorem leafValuesList_parseTokens (limits : Limits) {ts : List Token}
    (htyped : ∀ t ∈ ts, t.isTyped = true) (hend : ∀ t ∈ ts, t.kind.isRangeEnd = false) :
    Node.leafValuesList (parseTokens limits ts) = (dropAmounts false ts).flatMap leafValues :=
  values_sequence (bodyLossless_parseBody limits) limits none ⟨htyped, hend⟩

/-- Tokens in disorder: a filter over an empty subquery and an unfinished range, a subquery in a
subquery, and amounts that are not numbers. -/
def disorderedTokens : List Token := [
  .ofText .filterStart "f".toList, .mark (.sign .prohibited), .mark .subqueryStart,
  .mark .subqueryEnd, .mark .greater, .mark (.rangeStart .exclusive), .ofNumber .one,
  .mark .filterEnd, .mark .boost, .ofNumber .two, .ofNumber .ten, .mark .fuzzy, .mark .subqueryStart,
  .ofText .word "a".toList, .mark .subqueryStart, .mark .upTo, .ofText (.text .date) "b".toList,
  .ofText .filterStart "g".toList, .mark .subqueryEnd, .ofText .word "c".toList]

/-- Of the disordered tokens only the boost's number is not the value of a leaf. -/
theorem leafValuesList_parseTokens_disordered :
    (∀ t ∈ disorderedTokens, t.isTyped = true) ∧
      (∀ t ∈ disorderedTokens, t.kind.isRangeEnd = false) ∧
      Node.leafValuesList (parseTokens {} disorderedTokens) =
        [.number .one, .number .ten, .text "a".toList, .text "b".toList, .text "c".toList] := by
  have htyped : ∀ t ∈ disorderedTokens, t.isTyped = true := by decide
  have hend : ∀ t ∈ disorderedTokens, t.kind.isRangeEnd = false := by decide
  exact ⟨htyped, hend, (leafValuesList_parseTokens {} htyped hend).trans rfl⟩

end Query

end SearchLang
