import SearchLang.Query.Parse
import SearchLang.Token.Symbol

/-!
# Chains of modifiers

The modifiers of a node are a chain of groups, each a boost or fuzzy sign with the
number that may stand directly after it. Attaching modifiers takes the longest
chain at the front of the tokens, and of each modifier the last group counts
(`attachModifiers_eq_attached`).
-/

namespace SearchLang

/-! ## Amounts -/

namespace Number

/-- The number brought between zero and a maximum. If the maximum lies below zero, it is the
maximum. -/
def confine (n max : Number) : Number :=
  if max.lt n || max.lt .zero then max else if n.lt .zero then .zero else n

theorem lt_trans {a b c : Number} (hab : a.lt b = true) (hbc : b.lt c = true) :
    a.lt c = true := by
  cases a <;> cases b <;> cases c <;> grind [lt]

/-- What lies below a number lies below every other one that does not. -/
theorem lt_of_lt_of_not_lt {a b c : Number} (hb : b.isFinite = true) (hc : c.isFinite = true)
    (hab : a.lt b = true) (hcb : c.lt b = false) : a.lt c = true := by
  cases a <;> cases b <;> cases c <;> grind [lt, isFinite]

/-- Raising a number to zero and then lowering it to a maximum brings it between them. -/
theorem minimum_maximum_zero (max : Number) {n : Number} (hn : n.isFinite = true) :
    (n.maximum .zero).minimum max = n.confine max := by
  have hnan : n ≠ .nan := by
    rintro rfl
    simp [isFinite] at hn
  have hzero : Number.zero ≠ .nan := by simp [zero]
  unfold maximum
  rw [if_neg hnan]
  cases hneg : n.lt .zero with
  | true =>
    have hmax : max.lt n = true → max.lt .zero = true := fun h => lt_trans h hneg
    rw [if_pos rfl, minimum, if_neg hzero, confine, hneg]
    cases hbelow : max.lt .zero <;> simp_all
  | false =>
    have hmax : max.lt .zero = true → max.lt n = true := fun h =>
      lt_of_lt_of_not_lt rfl hn h hneg
    rw [if_neg (by simp), minimum, if_neg hnan, confine, hneg]
    cases habove : max.lt n <;> simp_all

end Number

/-! ## Groups -/

/-- A boost or fuzzy sign, and the number that may stand directly after it. -/
structure ModifierGroup where
  modifier : Modifier
  sign : Token
  number : Option Token
  kind_sign : sign.kind = modifier.kind
  kind_number : ∀ t ∈ number, t.kind = .number

namespace ModifierGroup

/-- The tokens of a group. -/
def tokens (g : ModifierGroup) : List Token :=
  g.sign :: g.number.toList

/-- The tokens of some groups. -/
def chain (groups : List ModifierGroup) : List Token :=
  groups.flatMap tokens

/-- The amount that a group stands for: its number between zero and the maximum if that is finite,
and otherwise the default. -/
def amount (default max : Number) (g : ModifierGroup) : Number :=
  match g.number.bind Token.number? with
  | some n => if n.isFinite then n.confine max else default
  | none => default

/-- The last group of a modifier. -/
def last? (m : Modifier) (groups : List ModifierGroup) : Option ModifierGroup :=
  (groups.filter fun g => g.modifier == m).getLast?

/-- The node with the amounts of some groups: the last boost counts, and the last fuzziness if the
node supports one. -/
def attached (limits : Limits) (node : Node) (groups : List ModifierGroup) : Node :=
  node.withModifiers { node.modifiers with
    boost := ((last? .boost groups).map (amount limits.defaultBoost limits.maxBoost)).or
      node.modifiers.boost
    fuzzy :=
      if node.supportsFuzzy then
        ((last? .fuzzy groups).map (amount limits.defaultFuzzy limits.maxFuzzy)).or
          node.modifiers.fuzzy
      else node.modifiers.fuzzy }

theorem chain_cons (g : ModifierGroup) (groups : List ModifierGroup) :
    chain (g :: groups) = g.tokens ++ chain groups :=
  List.flatMap_cons

theorem last?_cons (m : Modifier) (g : ModifierGroup) (groups : List ModifierGroup) :
    last? m (g :: groups) = (last? m groups).or (if g.modifier = m then some g else none) := by
  unfold last?
  by_cases hm : g.modifier = m
  · simp [hm, List.getLast?_cons, Option.or_some]
  · simp [hm]

/-- The group that starts with a sign: it takes the number directly after the sign. -/
def first (m : Modifier) (t : Token) (h : t.kind = m.kind) (ts : List Token) : ModifierGroup where
  modifier := m
  sign := t
  number := ts.head?.filter fun u => u.kind == .number
  kind_sign := h
  kind_number := by simp

section First

variable {m : Modifier} {t : Token} (h : t.kind = m.kind) (ts : List Token)

theorem tokens_first : (first m t h ts).tokens ++ (Query.takeNumber ts).2 = t :: ts := by
  cases ts with
  | nil => rfl
  | cons u us => by_cases hu : u.kind = .number <;> simp [first, tokens, Query.takeNumber, Option.filter, hu]

theorem number_first : (first m t h ts).number.bind Token.number? = (Query.takeNumber ts).1 := by
  cases ts with
  | nil => rfl
  | cons u us => by_cases hu : u.kind = .number <;> simp [first, Query.takeNumber, Option.filter, hu]

/-- What a group stands for is what the limits make of the number after its sign. -/
theorem amount_first (default max : Number) :
    (first m t h ts).amount default max = Limits.clamp default max (Query.takeNumber ts).1 := by
  rw [amount, number_first, Limits.clamp.eq_def]
  cases (Query.takeNumber ts).1 with
  | none => rfl
  | some n =>
    by_cases hn : n.isFinite = true
    · simp [hn, Number.minimum_maximum_zero]
    · simp [hn]

end First

/-- No chain starts with a token that is no modifier. -/
theorem eq_nil_of_prefix {t : Token} {ts : List Token} (ht : ∀ m : Modifier, t.kind ≠ m.kind)
    {groups : List ModifierGroup} (h : chain groups <+: t :: ts) : groups = [] := by
  cases groups with
  | nil => rfl
  | cons g gs =>
    rw [chain_cons, tokens, List.cons_append, List.cons_prefix_cons] at h
    exact absurd (h.1 ▸ g.kind_sign) (ht g.modifier)

/-- A chain that starts with a sign goes no further than the group of the sign, or goes on after
it. -/
theorem prefix_first {m : Modifier} {t : Token} (ht : t.kind = m.kind) {ts : List Token}
    {groups : List ModifierGroup} (h : chain groups <+: t :: ts) :
    chain groups <+: (first m t ht ts).tokens ∨
      ∃ gs, chain groups = (first m t ht ts).tokens ++ chain gs ∧
        chain gs <+: (Query.takeNumber ts).2 := by
  cases groups with
  | nil => exact .inl (List.nil_prefix)
  | cons g gs =>
    rw [chain_cons, tokens, List.cons_append, List.cons_prefix_cons] at h
    obtain ⟨rfl, h⟩ := h
    rw [chain_cons]
    cases hg : g.number with
    | some u =>
      rw [hg, Option.toList_some, List.cons_append, List.nil_append] at h
      obtain ⟨us, rfl⟩ := h
      have hu : u.kind = .number := g.kind_number u hg
      refine .inr ⟨gs, ?_, ?_⟩
      · simp [tokens, first, Option.filter, hg, hu]
      · simp [Query.takeNumber, hu]
    | none =>
      rw [hg, Option.toList_none, List.nil_append] at h
      cases ts with
      | nil => exact .inr ⟨gs, by simp [tokens, first, hg], h⟩
      | cons u us =>
        by_cases hu : u.kind = .number
        · obtain rfl := eq_nil_of_prefix (fun m => by cases m <;> simp [hu, Modifier.kind]) h
          left
          simp [chain, tokens, first, hg]
        · refine .inr ⟨gs, ?_, ?_⟩
          · simp [tokens, first, Option.filter, hg, hu]
          · simpa [Query.takeNumber, hu] using h

/-- No chain at the front of some tokens is longer than the one of `groups`, which leaves `rest`. -/
structure IsLongest (groups : List ModifierGroup) (rest ts : List Token) : Prop where
  eq : ts = chain groups ++ rest
  longest : ∀ others, chain others <+: ts → chain others <+: chain groups

theorem IsLongest.nil : IsLongest [] [] [] :=
  ⟨rfl, fun _ h => h⟩

/-- A token that is no modifier leaves no chain but the empty one. -/
theorem IsLongest.of_ne {t : Token} (ht : ∀ m : Modifier, t.kind ≠ m.kind) (ts : List Token) :
    IsLongest [] (t :: ts) (t :: ts) :=
  ⟨rfl, fun _ h => eq_nil_of_prefix ht h ▸ List.prefix_rfl⟩

/-- The group of a sign makes the chain after it longer. -/
theorem IsLongest.cons {m : Modifier} {t : Token} (ht : t.kind = m.kind) {ts rest : List Token}
    {groups : List ModifierGroup} (h : IsLongest groups rest (Query.takeNumber ts).2) :
    IsLongest (first m t ht ts :: groups) rest (t :: ts) := by
  refine ⟨?_, fun others hprefix => ?_⟩
  · rw [chain_cons, List.append_assoc, ← h.eq, tokens_first]
  · rw [chain_cons]
    rcases prefix_first ht hprefix with hshort | ⟨gs, hchain, hgs⟩
    · exact hshort.trans (List.prefix_append _ _)
    · rw [hchain]
      exact (List.prefix_append_right_inj _).mpr (h.longest gs hgs)

/-- With no group nothing is attached. -/
theorem attached_nil (limits : Limits) (node : Node) : attached limits node [] = node := by
  have hboost : (last? .boost []) = none := rfl
  have hfuzzy : (last? .fuzzy []) = none := rfl
  simp only [attached, hboost, hfuzzy, Option.map_none, Option.none_or, ite_self]
  exact node.withModifiers_modifiers

theorem attached_boost (limits : Limits) (node : Node) {g : ModifierGroup}
    (hg : g.modifier = .boost) (groups : List ModifierGroup) :
    attached limits node (g :: groups) =
      attached limits (node.withBoost (g.amount limits.defaultBoost limits.maxBoost)) groups := by
  simp [attached, last?_cons, hg, Node.withBoost]

theorem attached_fuzzy (limits : Limits) (node : Node) {g : ModifierGroup}
    (hg : g.modifier = .fuzzy) (groups : List ModifierGroup) :
    attached limits node (g :: groups) =
      attached limits
        (if node.supportsFuzzy then node.withFuzzy (g.amount limits.defaultFuzzy limits.maxFuzzy)
          else node) groups := by
  by_cases hs : node.supportsFuzzy = true
  · simp [attached, last?_cons, hg, hs, Node.withFuzzy]
  · simp [attached, last?_cons, hg, hs]

end ModifierGroup

namespace Query

open ModifierGroup

/-- **Attaching modifiers takes the longest chain of groups**, and gives the node the amounts of the
last boost and, if it supports one, of the last fuzziness. All else about the node stays. -/
theorem attachModifiers_eq_attached (limits : Limits) (node : Node) (ts : List Token) :
    ∃ groups rest, IsLongest groups rest ts ∧
      attachModifiers limits node ts = (attached limits node groups, rest) := by
  fun_induction attachModifiers limits node ts with
  | case1 node => exact ⟨[], [], .nil, by rw [attached_nil]⟩
  | case2 node t ts hk ih =>
    obtain ⟨groups, rest, hlongest, hnode⟩ := ih
    have hsign : t.kind = Modifier.boost.kind := hk
    refine ⟨first .boost t hsign ts :: groups, rest, hlongest.cons hsign, ?_⟩
    rw [hnode, attached_boost limits node rfl, amount_first, Limits.boost]
  | case3 node t ts hk node' ih =>
    obtain ⟨groups, rest, hlongest, hnode⟩ := ih
    have hsign : t.kind = Modifier.fuzzy.kind := hk
    refine ⟨first .fuzzy t hsign ts :: groups, rest, hlongest.cons hsign, ?_⟩
    rw [hnode, attached_fuzzy limits node rfl, amount_first]
    rfl
  | case4 node t ts hboost hfuzzy =>
    refine ⟨[], t :: ts, .of_ne (fun m => ?_) ts, by rw [attached_nil]⟩
    cases m with
    | boost => exact hboost
    | fuzzy => exact hfuzzy

end Query

end SearchLang
