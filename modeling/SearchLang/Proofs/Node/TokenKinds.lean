import SearchLang.Node.Shape
import SearchLang.Node.Tokens

/-!
# Kinds in token forms

Which kinds of tokens a tree is written with: no spaces and no keywords but
`TO`, and brackets of subqueries only if it holds one.
-/

namespace SearchLang

/-- Whether a kind occurs in the tokens of trees, of those with subqueries or of those without. -/
def Kind.writesTree (subqueries : Bool) : Kind → Bool
  | whitespace | ignored | and | or => false
  | subqueryStart | subqueryEnd => subqueries
  | _ => true

theorem Kind.writesTree_mono {b : Bool} {k : Kind} (h : k.writesTree b = true) :
    k.writesTree true = true := by
  cases k <;> first | rfl | exact h

variable (quoted : Text → Bool)

theorem Modifiers.writesTree_of_mem {m : Modifiers} (b : Bool) :
    ∀ t ∈ m.leadTokens ++ m.trailTokens, t.kind.writesTree b = true := by
  obtain ⟨sign, boost, fuzzy⟩ := m
  cases sign <;> cases boost <;> cases fuzzy <;>
    simp [Modifiers.leadTokens, Modifiers.trailTokens, Kind.writesTree]

theorem Leaf.writesTree_of_mem (l : Leaf) : ∀ t ∈ l.tokens, t.kind.writesTree false = true := by
  cases l with
  | word value wildcard => cases wildcard <;> simp [Leaf.tokens, Kind.writesTree]
  | number value => simp [Leaf.tokens, Kind.writesTree]
  | text form value => simp [Leaf.tokens, Kind.writesTree]

theorem Interval.writesTree_of_mem (i : Interval) :
    ∀ t ∈ i.tokens quoted, t.kind.writesTree false = true := by
  have hside {α : Type} (bound : α → Token) (hb : ∀ a, (bound a).kind.writesTree false = true)
      (side : Option α) :
      ((side.map bound).getD (.mark .wildcard)).kind.writesTree false = true := by
    cases side with
    | none => rfl
    | some a => exact hb a
  have hrange {α : Type} (bound : α → Token) (hb : ∀ a, (bound a).kind.writesTree false = true)
      (r : Range α) : ∀ t ∈ r.tokens bound, t.kind.writesTree false = true := by
    intro t ht
    simp only [Range.tokens, List.mem_cons, List.not_mem_nil, or_false] at ht
    rcases ht with rfl | rfl | rfl | rfl | rfl
    · rfl
    · exact hside bound hb r.lower
    · rfl
    · exact hside bound hb r.upper
    · rfl
  cases i with
  | words r =>
    refine hrange _ (fun s => ?_) r
    unfold Token.ofWordBound
    split <;> rfl
  | numbers r => exact hrange _ (fun _ => rfl) r
  | dates r => exact hrange _ (fun _ => rfl) r

/-- The kinds of the tokens of a tree. -/
theorem Node.writesTree_of_mem (n : Node) :
    ∀ t ∈ n.tokens quoted, t.kind.writesTree n.holdsSubquery = true := by
  have hmodifiers {m : Modifiers} {b : Bool} {t : Token}
      (h : t ∈ m.leadTokens ∨ t ∈ m.trailTokens) : t.kind.writesTree b = true :=
    Modifiers.writesTree_of_mem b t (List.mem_append.mpr h)
  induction n with
  | leaf l m =>
    intro t ht
    simp only [Node.tokens, List.mem_append] at ht
    rcases ht with (ht | ht) | ht
    · exact hmodifiers (.inl ht)
    · exact l.writesTree_of_mem t ht
    · exact hmodifiers (.inr ht)
  | range i m =>
    intro t ht
    simp only [Node.tokens, List.mem_append] at ht
    rcases ht with (ht | ht) | ht
    · exact hmodifiers (.inl ht)
    · exact i.writesTree_of_mem quoted t ht
    · exact hmodifiers (.inr ht)
  | filter field comparison value m ih =>
    have hcomparison : ∀ t ∈ (comparison.map Comparison.tokens).getD [],
        t.kind.writesTree value.holdsSubquery = true := by
      cases comparison with
      | none => simp
      | some c => cases c <;> simp [Comparison.tokens, Kind.writesTree]
    intro t ht
    simp only [Node.tokens, List.mem_append, List.mem_cons] at ht
    rcases ht with ((ht | rfl | ht) | ht) | rfl | ht
    · exact hmodifiers (.inl ht)
    · rfl
    · exact hcomparison t ht
    · exact ih t ht
    · rfl
    · exact hmodifiers (.inr ht)
  | subquery nodes m ih =>
    intro t ht
    simp only [Node.tokens, Node.tokensList_eq_flatMap, List.mem_append, List.mem_cons,
      List.mem_flatMap] at ht
    rcases ht with (ht | rfl | ⟨n, hn, ht⟩) | rfl | ht
    · exact hmodifiers (.inl ht)
    · rfl
    · exact Kind.writesTree_mono (ih n hn t ht)
    · rfl
    · exact hmodifiers (.inr ht)

end SearchLang
