import SearchLang.Proofs.Node.ReadBack
import SearchLang.Proofs.Parse.Amounts
import SearchLang.Proofs.Parse.Entries
import SearchLang.Proofs.Parse.Shape
import SearchLang.Proofs.Parse.TokenForm
import SearchLang.Proofs.Scan.WellFormed
import SearchLang.Query.Basic

/-!
# Parsed queries through JSON

All trees that a query is parsed to can go through JSON. Their numbers are finite:
a value is that of a token, whose number is finite, and an amount lies within
validated limits. They do not nest deep: the value of a filter is no filter, and
a subquery holds no subquery.
-/

namespace SearchLang

/-! ## Finite numbers -/

/-- An entry that is no number, or a finite one. -/
def Entry.isFinite : Entry → Bool
  | value (.number n) => n.isFinite
  | _ => true

theorem Leaf.isFinite_of_entry {l : Leaf} (h : (Entry.value l.literal).isFinite = true) :
    l.isFinite = true := by
  cases l with
  | number n => exact h
  | word value wildcard => rfl
  | text form value => rfl

theorem Interval.isFinite_of_entries {i : Interval}
    (h : ∀ e ∈ i.literals.map Entry.value, e.isFinite = true) : i.isFinite = true := by
  cases i with
  | words r => rfl
  | dates r => rfl
  | numbers r =>
    refine List.all_eq_true.mpr fun n hn => h (.value (.number n)) ?_
    exact List.mem_map_of_mem (List.mem_map_of_mem hn)

section

variable {limits : Limits}

theorem Modifiers.isFinite_of_allows
    (hmax : limits.maxBoost.isFinite = true ∧ limits.maxFuzzy.isFinite = true) {m : Modifiers}
    (h : limits.allows m = true) : m.isFinite = true := by
  simp only [Limits.allows, Bool.and_eq_true] at h
  simp only [isFinite, Bool.and_eq_true, Option.all_eq_true]
  exact ⟨fun n hn => Limits.isFinite_of_allowsAmount hmax.1 (hn ▸ h.1),
    fun n hn => Limits.isFinite_of_allowsAmount hmax.2 (hn ▸ h.2)⟩

/-- The numbers of a tree are its entries and its amounts. -/
theorem Node.isFinite_of_entries
    (hmax : limits.maxBoost.isFinite = true ∧ limits.maxFuzzy.isFinite = true) {n : Node}
    (hwithin : n.isWithin limits = true) (h : ∀ e ∈ n.entries, e.isFinite = true) :
    n.isFinite = true := by
  have hm := Modifiers.isFinite_of_allows hmax (Node.allows_of_isWithin hwithin)
  induction n with
  | leaf l m =>
    have hl := Leaf.isFinite_of_entry (l := l) (h _ (by simp [entries]))
    rw [isFinite, hl]
    exact hm
  | range i m =>
    have hi := Interval.isFinite_of_entries (i := i) fun e he =>
      h e (by rw [entries]; exact List.mem_append_right _ he)
    rw [isFinite, hi]
    exact hm
  | filter f c value m ih =>
    simp only [isWithin, Bool.and_eq_true] at hwithin
    have hvalue := ih hwithin.2 (fun e he => h e (by simp [entries, he]))
      (Modifiers.isFinite_of_allows hmax (Node.allows_of_isWithin hwithin.2))
    rw [isFinite, hvalue]
    exact hm
  | subquery nodes m ih =>
    simp only [isWithin, areWithin_eq_all, Bool.and_eq_true, List.all_eq_true] at hwithin
    have hnodes : Node.areFinite nodes = true := by
      rw [areFinite_eq_all, List.all_eq_true]
      intro n hn
      refine ih n hn (hwithin.2 n hn) (fun e he => h e ?_)
        (Modifiers.isFinite_of_allows hmax (Node.allows_of_isWithin (hwithin.2 n hn)))
      rw [entries, entriesList_eq_flatMap]
      exact List.mem_append_right _ (List.mem_flatMap.mpr ⟨n, hn, he⟩)
    rw [isFinite, hnodes]
    exact hm

end

/-- An entry of a token is a sign or the value that the token carries. -/
theorem Token.of_mem_entries {t : Token} {e : Entry} (h : e ∈ t.entries) :
    (∃ s, e = .sign s) ∨ ∃ l, t.literal = some l ∧ e = .value l := by
  unfold entries at h
  split at h
  · exact .inl ⟨_, List.mem_singleton.mp h⟩
  · obtain ⟨l, hl, rfl⟩ := List.mem_map.mp h
    unfold leafValues at hl
    split at hl
    · exact .inr ⟨l, Option.mem_toList.mp hl, rfl⟩
    · simp at hl

/-- The number that a well-formed token carries is finite. -/
theorem Token.isFinite_of_mem_entries {t : Token} (h : t.isWellFormed = true) {e : Entry}
    (he : e ∈ t.entries) : e.isFinite = true := by
  rcases of_mem_entries he with ⟨s, rfl⟩ | ⟨l, hl, rfl⟩
  · rfl
  · obtain ⟨kind, literal⟩ := t
    obtain rfl : literal = some l := hl
    cases l with
    | text s => rfl
    | number n => cases kind <;> simp_all [isWellFormed, Entry.isFinite]

namespace Query

/-- **All numbers of a parsed query are finite.** -/
theorem areFinite_parse (l : Limits) (q : Text) : Node.areFinite (parse l.validate q) = true := by
  have hentries : ∀ e ∈ Node.entriesList (parse l.validate q), e.isFinite = true := by
    intro e he
    have htokens : e ∈ tokenEntries (scan q) :=
      (entries_sequence (bodyOrdered_parseBody l.validate) l.validate none (scan q)).subset he
    obtain ⟨t, ht, he⟩ := List.mem_flatMap.mp htokens
    exact Token.isFinite_of_mem_entries (Scan.tokenLaw_isWellFormed.of_mem_scan
      (fun _ _ => trivial) ht (isKept_of_mem_scan ht)) he
  rw [Node.areFinite_eq_all, List.all_eq_true]
  intro n hn
  refine Node.isFinite_of_entries (isFinite_validate l)
    ((hereditary_isWithin l).parseTokens (scan q) n hn) fun e he => hentries e ?_
  rw [Node.entriesList_eq_flatMap]
  exact List.mem_flatMap.mpr ⟨n, hn, he⟩

end Query

/-! ## Depth -/

section

open Json

theorem Modifiers.depth_of_mem_fields {m : Modifiers} {f : Text × Json} (h : f ∈ m.fields) :
    f.2.depth = 0 := by
  simp only [fields, List.mem_append, mem_field?, Option.mem_def, Option.map_eq_some_iff] at h
  rcases h with (⟨_, ⟨s, -, rfl⟩, rfl⟩ | ⟨_, ⟨b, -, rfl⟩, rfl⟩) | ⟨_, ⟨z, -, rfl⟩, rfl⟩ <;> rfl

theorem Range.depth_of_mem_fields {α : Type} {bound : α → Json} {r : Range α}
    (hbound : ∀ a, (bound a).depth = 0) {f : Text × Json} (h : f ∈ r.fields bound) :
    f.2.depth = 0 := by
  simp only [fields, List.mem_append, mem_field?, Option.mem_def, Option.map_eq_some_iff,
    List.mem_singleton] at h
  rcases h with (⟨_, ⟨a, -, rfl⟩, rfl⟩ | ⟨_, ⟨b, -, rfl⟩, rfl⟩) | rfl
  · exact hbound a
  · exact hbound b
  · rfl

theorem Interval.depth_of_mem_fields {i : Interval} {f : Text × Json} (h : f ∈ i.fields) :
    f.2.depth = 0 := by
  cases i with
  | words r => exact r.depth_of_mem_fields (fun _ => rfl) h
  | numbers r => exact r.depth_of_mem_fields (fun _ => rfl) h
  | dates r => exact r.depth_of_mem_fields (fun _ => rfl) h

theorem Leaf.depth_of_mem_fields {l : Leaf} {f : Text × Json} (h : f ∈ l.fields) :
    f.2.depth = 0 := by
  cases l with
  | word value wildcard =>
    simp only [fields, List.mem_cons, mem_field?] at h
    rcases h with rfl | ⟨v, hv, rfl⟩
    · rfl
    · obtain ⟨-, rfl⟩ : wildcard = true ∧ .bool true = v := by simpa using hv
      rfl
  | number value =>
    obtain rfl := List.mem_singleton.mp h
    rfl
  | text form value =>
    obtain rfl := List.mem_singleton.mp h
    rfl

/-- A node nests once more than the values of its content. -/
theorem depth_nodeObject_le {tag : Tag} {content : List (Text × Json)} {m : Modifiers} {k : Nat}
    (h : ∀ field ∈ content, field.2.depth ≤ k) : (nodeObject tag content m).depth ≤ k + 1 := by
  rw [nodeObject, depth]
  refine Nat.succ_le_succ (fieldsDepth_le_iff.mpr fun f hf => ?_)
  simp only [List.cons_append, List.mem_cons, List.mem_append] at hf
  rcases hf with rfl | hf | hf
  · simp [field, ofName, depth]
  · exact h f hf
  · rw [Modifiers.depth_of_mem_fields hf]
    exact Nat.zero_le k

namespace Node

variable {n : Node}

theorem depth_toJson_of_isSimple (h : n.isSimple = true) : n.toJson.depth ≤ 1 := by
  cases n with
  | leaf l m =>
    rw [toJson]
    exact depth_nodeObject_le fun f hf => Nat.le_of_eq (Leaf.depth_of_mem_fields hf)
  | range i m =>
    rw [toJson]
    exact depth_nodeObject_le fun f hf => Nat.le_of_eq (Interval.depth_of_mem_fields hf)
  | filter f c value m => simp [isSimple] at h
  | subquery nodes m => simp [isSimple] at h

theorem depth_toJson_filter_le (f : Text) (c : Option Comparison) (value : Node) (m : Modifiers) :
    (filter f c value m).toJson.depth ≤ value.toJson.depth + 1 := by
  rw [toJson]
  refine depth_nodeObject_le fun g hg => ?_
  simp only [List.cons_append, List.mem_cons, List.mem_append, mem_field?, Option.mem_def,
    Option.map_eq_some_iff, List.not_mem_nil, or_false] at hg
  rcases hg with rfl | ⟨_, ⟨c, -, rfl⟩, rfl⟩ | rfl
  · exact Nat.zero_le _
  · exact Nat.zero_le _
  · exact Nat.le_refl _

theorem depth_toJson_subquery_le {nodes : List Node} {m : Modifiers} {k : Nat}
    (h : ∀ n ∈ nodes, n.toJson.depth ≤ k) : (subquery nodes m).toJson.depth ≤ k + 2 := by
  rw [toJson, listToJson_eq_map]
  refine depth_nodeObject_le fun g hg => ?_
  obtain rfl := List.mem_singleton.mp hg
  rw [field, depth]
  refine Nat.succ_le_succ (itemsDepth_le_iff.mpr fun item hitem => ?_)
  obtain ⟨n, hn, rfl⟩ := List.mem_map.mp hitem
  exact h n hn

/-- The value of a filter is no filter. -/
theorem tag_of_isWellShaped_filter {f : Text} {c : Option Comparison} {value : Node}
    {m : Modifiers} (h : (filter f c value m).isWellShaped = true) :
    value.tag ≠ .filter ∧ value.isWellShaped = true := by
  simp only [isWellShaped, isFilterValue, Bool.and_eq_true, bne_iff_ne] at h
  exact ⟨h.1.1.2.1, h.2⟩

/-- Without subqueries only a filter nests, and only once. -/
theorem depth_toJson_of_holdsSubquery (h : n.isWellShaped = true)
    (hflat : n.holdsSubquery = false) : n.toJson.depth ≤ 2 := by
  cases n with
  | leaf l m => exact Nat.le_succ_of_le (depth_toJson_of_isSimple rfl)
  | range i m => exact Nat.le_succ_of_le (depth_toJson_of_isSimple rfl)
  | filter f c value m =>
    have hvalue := (tag_of_isWellShaped_filter h).1
    refine Nat.le_trans (depth_toJson_filter_le f c value m)
      (Nat.succ_le_succ (depth_toJson_of_isSimple ?_))
    cases value <;> simp_all [isSimple, tag, holdsSubquery]
  | subquery nodes m => simp [holdsSubquery] at hflat

theorem depth_toJson_of_tag (h : n.isWellShaped = true) (htag : n.tag ≠ .filter) :
    n.toJson.depth ≤ 4 := by
  cases n with
  | leaf l m => exact Nat.le_trans (depth_toJson_of_isSimple rfl) (by decide)
  | range i m => exact Nat.le_trans (depth_toJson_of_isSimple rfl) (by decide)
  | filter f c value m => exact absurd rfl htag
  | subquery nodes m =>
    simp only [isWellShaped, areWellShaped_eq_all, Bool.and_eq_true, Bool.not_eq_true',
      List.any_eq_false, List.all_eq_true] at h
    exact depth_toJson_subquery_le fun n hn =>
      depth_toJson_of_holdsSubquery (h.2 n hn) (by simpa using h.1.2 n hn)

/-- **A well-shaped node nests five times at most**: a filter on a subquery of filters. -/
theorem depth_toJson_of_isWellShaped (h : n.isWellShaped = true) : n.toJson.depth ≤ 5 := by
  by_cases htag : n.tag = .filter
  · cases n with
    | filter f c value m =>
      obtain ⟨hvalue, hshaped⟩ := tag_of_isWellShaped_filter h
      exact Nat.le_trans (depth_toJson_filter_le f c value m)
        (Nat.succ_le_succ (depth_toJson_of_tag hshaped hvalue))
    | leaf l m => cases l <;> simp [tag, Leaf.tag] at htag
    | range i m => cases i <;> simp [tag, Interval.tag] at htag
    | subquery nodes m => simp [tag] at htag
  · exact Nat.le_succ_of_le (depth_toJson_of_tag h htag)

end Node

end

namespace Query

/-- The trees of a query nest six times at most with the list around them. -/
theorem depth_parse (limits : Limits) (q : Text) :
    (Json.array (Node.listToJson (parse limits q))).depth ≤ 6 := by
  rw [Json.depth, Node.listToJson_eq_map]
  refine Nat.succ_le_succ (Json.itemsDepth_le_iff.mpr fun item hitem => ?_)
  obtain ⟨n, hn, rfl⟩ := List.mem_map.mp hitem
  have hsound := sound_sequence (bodySound_parseBody limits (scan q)) none
    (List.Subset.refl (scan q)) n hn
  exact Node.depth_toJson_of_isWellShaped hsound.shaped

/-- **Reading JSON undoes writing it.** Trees of finite numbers come back from their text in either
style unless they nest too deep for the reader, and all queries are such trees. -/
theorem json_roundTrip :
    (∀ (style : Json.Style) (nodes : List Node), Node.areFinite nodes = true →
      (Json.array (Node.listToJson nodes)).depth ≤ Json.maxDepth →
        Node.read? (Node.print style nodes) = some nodes) ∧
      ∀ (l : Limits) (q : Text), Node.areFinite (parse l.validate q) = true ∧
        (Json.array (Node.listToJson (parse l.validate q))).depth ≤ Json.maxDepth :=
  ⟨fun style _ hfinite hdepth => Node.read?_print hfinite hdepth style,
    fun l q => ⟨areFinite_parse l q, Nat.le_trans (depth_parse l.validate q) (by decide)⟩⟩

/-- Trees of all types, deeper than those of a query, with texts that need escapes, a negative zero
and the least number above zero. -/
def jsonSample : List Node := [
  .leaf (.word "a/b\"\\".toList true) { sign := some .required, boost := some .one },
  .leaf (.word [] false) { fuzzy := some .two },
  .leaf (.number (.finite true .zero)) { sign := some .prohibited },
  .leaf (.number (.finite false ⟨1, by decide +kernel, by decide +kernel⟩)) {},
  .leaf (.text .phrase "tab\t, line\n, bell\x07, é, 😀".toList) { boost := some .zero },
  .leaf (.text .date "2020-01-31".toList) {},
  .leaf (.text .url "http://a.b/?c=d".toList) {},
  .leaf (.text .hashtag "a".toList) {},
  .leaf (.text .mention "b".toList) {},
  .leaf (.text .emoji "🍦".toList) {},
  .leaf (.text .emoticon ":-\\".toList) {},
  .range (.words ⟨some "a".toList, none, false⟩) { sign := some .required },
  .range (.numbers ⟨none, some .ten, true⟩) { boost := some .ten },
  .range (.dates ⟨some "2020".toList, some "2021".toList, true⟩) {},
  .filter "f".toList (some .gte) (.filter "g".toList none
    (.subquery [.subquery [.leaf (.number .two) { fuzzy := some .one }] {}, .subquery [] {}]
      { sign := some .prohibited }) {}) { boost := some .two }]

theorem json_roundTrip_jsonSample :
    Node.areFinite jsonSample = true ∧
      (Json.array (Node.listToJson jsonSample)).depth ≤ Json.maxDepth ∧
      Node.read? (Node.print .compact jsonSample) = some jsonSample ∧
      Node.read? (Node.print .pretty jsonSample) = some jsonSample := by
  have hfinite : Node.areFinite jsonSample = true := by decide +kernel
  have hdepth : (Json.array (Node.listToJson jsonSample)).depth ≤ Json.maxDepth := by
    decide +kernel
  exact ⟨hfinite, hdepth, json_roundTrip.1 .compact jsonSample hfinite hdepth,
    json_roundTrip.1 .pretty jsonSample hfinite hdepth⟩

end Query

end SearchLang
