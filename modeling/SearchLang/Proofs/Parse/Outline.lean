import SearchLang.Node.Shape
import SearchLang.Proofs.Parse.Extent

/-!
# The outline of parsed trees

Limits decide how large boosts and fuzzies are, and nothing else: parsed with any
two limits, the same tokens give trees with the same outline. Two parsers with
different limits stay in step. Each reader leaves them the same tokens and the
same waiting sign, although the amounts that they have computed differ.
-/

namespace SearchLang

namespace Node

theorem modifiers_outline (n : Node) : n.outline.modifiers = n.modifiers.outline := by
  cases n <;> rw [Node.outline] <;> rfl

theorem tag_outline (n : Node) : n.outline.tag = n.tag := by
  cases n <;> rw [Node.outline] <;> rfl

theorem outline_withModifiers (m : Modifiers) (n : Node) :
    (n.withModifiers m).outline = n.outline.withModifiers m.outline := by
  cases n <;> simp only [Node.withModifiers, Node.outline]

theorem outline_withSign (sign : Option Sign) (n : Node) :
    (n.withSign sign).outline = n.outline.withSign sign := by
  simp only [withSign, outline_withModifiers, modifiers_outline, Modifiers.outline]

/-- Of a boost the outline keeps that there is one. -/
theorem outline_withBoost (boost : Number) (n : Node) :
    (n.withBoost boost).outline = n.outline.withBoost .zero := by
  simp only [withBoost, outline_withModifiers, modifiers_outline, Modifiers.outline,
    Option.map_some]

/-- Of a fuzziness the outline keeps that there is one. -/
theorem outline_withFuzzy (fuzzy : Number) (n : Node) :
    (n.withFuzzy fuzzy).outline = n.outline.withFuzzy .zero := by
  simp only [withFuzzy, outline_withModifiers, modifiers_outline, Modifiers.outline,
    Option.map_some]

end Node

namespace Query

/-- Two lists of nodes that differ in amounts alone. -/
def SameOutlines (ns ns' : List Node) : Prop :=
  Node.outlineList ns = Node.outlineList ns'

theorem SameOutlines.refl (ns : List Node) : SameOutlines ns ns :=
  rfl

theorem sameOutlines_cons {n n' : Node} {ns ns' : List Node} :
    SameOutlines (n :: ns) (n' :: ns') ↔ n.outline = n'.outline ∧ SameOutlines ns ns' := by
  simp [SameOutlines, Node.outlineList]

theorem sameOutlines_singleton {n n' : Node} :
    SameOutlines [n] [n'] ↔ n.outline = n'.outline := by
  rw [sameOutlines_cons]
  exact and_iff_left (.refl [])

theorem SameOutlines.append {ns ns' ms ms' : List Node} (h : SameOutlines ns ns')
    (h' : SameOutlines ms ms') : SameOutlines (ns ++ ms) (ns' ++ ms') := by
  simp only [SameOutlines, Node.outlineList_eq_map, List.map_append] at h h' ⊢
  rw [h, h']

/-- Where one list ends the other one does. -/
theorem SameOutlines.cases {ns ns' : List Node} (h : SameOutlines ns ns') :
    ns = [] ∧ ns' = [] ∨ ∃ n rest n' rest', ns = n :: rest ∧ ns' = n' :: rest' ∧
      n.outline = n'.outline ∧ SameOutlines rest rest' := by
  cases ns with
  | nil =>
    cases ns' with
    | nil => exact .inl ⟨rfl, rfl⟩
    | cons n' rest' => simp [SameOutlines, Node.outlineList] at h
  | cons n rest =>
    cases ns' with
    | nil => simp [SameOutlines, Node.outlineList] at h
    | cons n' rest' =>
      obtain ⟨hn, hrest⟩ := sameOutlines_cons.mp h
      exact .inr ⟨n, rest, n', rest', rfl, rfl, hn, hrest⟩

/-- What two readers in step make of their tokens. -/
structure InStep (p p' : Progress) : Prop where
  nodes : SameOutlines p.nodes p'.nodes
  sign : p.sign = p'.sign
  rest : p.rest = p'.rest

theorem InStep.refl (p : Progress) : InStep p p :=
  ⟨rfl, rfl, rfl⟩

variable (l l' : Limits)

/-! ## Modifiers -/

/-- Modifiers take the same tokens whatever the limits make of their numbers. Whether a fuzziness
is kept depends on the content of the node alone. -/
theorem attachModifiers_outline {n n' : Node} (h : n.outline = n'.outline) (ts : List Token) :
    (attachModifiers l n ts).1.outline = (attachModifiers l' n' ts).1.outline ∧
      (attachModifiers l n ts).2 = (attachModifiers l' n' ts).2 := by
  have hsupports {n n' : Node} (h : n.outline = n'.outline) :
      n.supportsFuzzy = n'.supportsFuzzy := by
    rw [← Node.supportsFuzzy_outline n, h, Node.supportsFuzzy_outline]
  fun_induction attachModifiers l n ts generalizing n' with
  | case1 n => simpa [attachModifiers] using h
  | case2 n t ts hk ih =>
    rw [attachModifiers.eq_def l' n']
    simp only [hk]
    refine ih ?_
    rw [Node.outline_withBoost, Node.outline_withBoost, h]
  | case3 n t ts hk node =>
    rename_i ih
    rw [attachModifiers.eq_def l' n']
    simp only [hk]
    refine ih ?_
    by_cases hs : n.supportsFuzzy = true
    · have hs' : n'.supportsFuzzy = true := hsupports h ▸ hs
      simp [node, hs, hs', Node.outline_withFuzzy, h]
    · have hs' : ¬ n'.supportsFuzzy = true := hsupports h ▸ hs
      simpa [node, hs, hs'] using h
  | case4 n t ts hboost hfuzzy =>
    rw [attachModifiers_of_ne l' n' ts hboost hfuzzy]
    exact ⟨h, rfl⟩

theorem attachToLast_outline {ns ns' : List Node} (h : SameOutlines ns ns') (ts : List Token) :
    SameOutlines (attachToLast l ns ts).1 (attachToLast l' ns' ts).1 ∧
      (attachToLast l ns ts).2 = (attachToLast l' ns' ts).2 := by
  induction ns generalizing ns' with
  | nil =>
    obtain ⟨-, rfl⟩ | ⟨_, _, _, _, hcons, -⟩ := h.cases
    · exact ⟨.refl _, rfl⟩
    · cases hcons
  | cons n rest ih =>
    obtain ⟨hnil, -⟩ | ⟨_, _, n', rest', ⟨⟩, rfl, hn, hrest⟩ := h.cases
    · cases hnil
    · obtain ⟨rfl, rfl⟩ | ⟨m, ms, m', ms', rfl, rfl, -, -⟩ := hrest.cases
      · -- the last node takes the modifiers
        obtain ⟨hlast, hts⟩ := attachModifiers_outline l l' hn ts
        exact ⟨sameOutlines_singleton.mpr hlast, hts⟩
      · obtain ⟨hnodes, hts⟩ := ih hrest
        exact ⟨sameOutlines_cons.mpr ⟨hn, hnodes⟩, hts⟩

theorem signFirst_outline {ns ns' : List Node} (h : SameOutlines ns ns') (sign : Option Sign) :
    SameOutlines (signFirst sign ns) (signFirst sign ns') := by
  obtain ⟨rfl, rfl⟩ | ⟨n, rest, n', rest', rfl, rfl, hn, hrest⟩ := h.cases
  · exact .refl _
  · refine sameOutlines_cons.mpr ⟨?_, hrest⟩
    rw [Node.outline_withSign, Node.outline_withSign, hn]

theorem finish_outline {ns ns' : List Node} (h : SameOutlines ns ns') (sign : Option Sign)
    (ts : List Token) : InStep (finish l sign ns ts) (finish l' sign ns' ts) := by
  obtain ⟨hnodes, hts⟩ := attachToLast_outline l l' (signFirst_outline h sign) ts
  exact ⟨hnodes, rfl, hts⟩

/-! ## Filters -/

theorem filterOn_outline {value value' : Node} (h : value.outline = value'.outline) (field : Text)
    (comparison : Option Comparison) :
    (filterOn field comparison value).outline = (filterOn field comparison value').outline := by
  have hcompound : value.isCompound = value'.isCompound := by
    rw [Node.isCompound, ← Node.tag_outline, h, Node.tag_outline, Node.isCompound]
  simp only [filterOn, Node.outline, h, hcompound]

theorem subquery_outline {ns ns' : List Node} (h : SameOutlines ns ns') (m : Modifiers) :
    (Node.subquery ns m).outline = (Node.subquery ns' m).outline := by
  have houtline : Node.outlineList ns = Node.outlineList ns' := h
  rw [Node.outline, Node.outline, houtline]

/-- Parsers for the bodies of subqueries that give the same outlines. Either there is one for both
limits or for neither. -/
inductive BodiesInStep : Option BodyParser → Option BodyParser → Prop
  | none : BodiesInStep none none
  | some {body body' : BodyParser} (h : ∀ ts, SameOutlines (body ts) (body' ts)) :
    BodiesInStep (some body) (some body')

/-- Filters are read in step: of what limits decide, a value has only the amounts inside a
subquery. -/
theorem readFilter_outline {body? body?' : Option BodyParser} (hbody : BodiesInStep body? body?')
    (field : Text) (sign : Option Sign) (comparison : Option Comparison) (ts : List Token) :
    InStep (readFilter body? field sign comparison ts)
      (readFilter body?' field sign comparison ts) := by
  cases hbody with
  | none => exact .refl _
  | @some body body' h =>
    fun_induction readFilter (some body) field sign comparison ts with
    | case1 sign comparison => simpa [readFilter] using InStep.refl _
    | case2 sign comparison t ts hk =>
      rw [readFilter.eq_def (some body')]
      simpa only [hk] using InStep.refl _
    | case3 sign comparison t ts s hk ih =>
      rw [readFilter.eq_def (some body') _ _ _ (t :: ts)]
      simpa only [hk] using ih
    | case4 sign comparison t ts hk equals ih | case5 sign comparison t ts hk equals ih
    | case6 sign comparison t ts hk ih =>
      rw [readFilter.eq_def (some body') _ _ _ (t :: ts)]
      simpa only [hk] using ih
    -- a subquery: where it is empty, and where it is the value
    | case7 sign comparison t ts hk hnone => cases hnone
    | case8 sign comparison t ts hk body hb hnil ih =>
      obtain rfl := Option.some.inj hb
      have hnil' : body' (subqueryBody ts) = [] := by
        obtain ⟨-, hnil'⟩ | ⟨_, _, _, _, hcons, -⟩ := (h (subqueryBody ts)).cases
        · exact hnil'
        · simp [hnil] at hcons
      rw [readFilter.eq_def (some body') _ _ _ (t :: ts)]
      simpa only [hk, hnil'] using ih
    | case9 sign comparison t ts hk body hb hne =>
      obtain rfl := Option.some.inj hb
      obtain ⟨hnil, -⟩ | ⟨n, rest, n', rest', hcons, hcons', hn, hrest⟩ := (h (subqueryBody ts)).cases
      · exact absurd hnil hne
      · rw [readFilter.eq_def (some body') _ _ _ (t :: ts)]
        simp only [hk, hcons, hcons']
        have hnodes := subquery_outline (sameOutlines_cons.mpr ⟨hn, hrest⟩) {}
        exact ⟨sameOutlines_singleton.mpr (filterOn_outline hnodes field comparison), rfl, rfl⟩
    -- a range: without an end, as the values of its bounds, and as one
    | case10 sign comparison t ts b hk hrange ih =>
      rw [readFilter.eq_def (some body') _ _ _ (t :: ts)]
      simpa only [hk, hrange] using ih
    | case11 sign comparison t ts b hk ls rest hrange
    | case12 sign comparison t ts b hk i rest hrange =>
      rw [readFilter.eq_def (some body') _ _ _ (t :: ts)]
      simpa only [hk, hrange] using InStep.refl _
    -- a leaf: without a value of its kind, and with one
    | case13 sign comparison t ts hread _ _ _ _ _ _ _ hleaf ih =>
      rw [readFilter_leaf _ _ _ _ hleaf, hread]
      exact ih
    | case14 sign comparison t ts l rest hread _ _ _ _ _ _ _ hleaf =>
      rw [readFilter_leaf _ _ _ _ hleaf, hread]
      exact .refl _
    | case15 sign comparison t ts =>
      rw [readFilter.eq_def (some body') _ _ _ (t :: ts)]
      cases hk : t.kind <;> simp_all [Kind.isLeaf, InStep.refl]

/-! ## Sequences -/

theorem subqueryNodes_outline {ns ns' : List Node} (h : SameOutlines ns ns') :
    SameOutlines (subqueryNodes ns) (subqueryNodes ns') := by
  obtain ⟨rfl, rfl⟩ | ⟨n, rest, n', rest', rfl, rfl, -, -⟩ := h.cases
  · exact .refl _
  · exact sameOutlines_singleton.mpr (subquery_outline h {})

/-- **Two parsers with different limits stay in step** at every token. -/
theorem step_outline {body? body?' : Option BodyParser} (hbody : BodiesInStep body? body?')
    (sign : Option Sign) (t : Token) (ts : List Token) :
    InStep (step l body? sign t ts) (step l' body?' sign t ts) := by
  unfold step
  split
  · exact .refl _
  · exact .refl _
  · exact .refl _
  · exact .refl _
  · cases hbody with
    | none => exact .refl _
    | some h => exact finish_outline l l' (subqueryNodes_outline (h _)) sign _
  · -- the filter has left both parsers the same sign and the same tokens
    obtain ⟨hnodes, hsign, hrest⟩ := readFilter_outline hbody (t.text?.getD []) sign none ts
    simp only [hsign, hrest]
    exact finish_outline l l' hnodes _ _
  · split
    · exact .refl _
    · exact finish_outline l l' (.refl _) sign _
  · exact .refl _
  · exact .refl _
  · split
    · exact .refl _
    · exact finish_outline l l' (.refl _) sign _

/-- Parsers that stay in step at every token give the same outlines. -/
theorem sequence_outline {body? body?' : Option BodyParser} (hbody : BodiesInStep body? body?')
    (sign : Option Sign) (ts : List Token) :
    SameOutlines (sequence l body? sign ts) (sequence l' body?' sign ts) := by
  fun_induction sequence l body? sign ts with
  | case1 sign =>
    rw [sequence]
    exact .refl _
  | case2 sign t ts p ih =>
    obtain ⟨hnodes, hsign, hrest⟩ := step_outline l l' hbody sign t ts
    rw [sequence_cons, ← hsign, ← hrest]
    exact hnodes.append ih

theorem bodiesInStep_parseBody (l l' : Limits) :
    BodiesInStep (some (parseBody l)) (some (parseBody l')) :=
  .some fun ts => sequence_outline l l' .none none ts

/-- **Limits change no structure.** Parsed with any two limits, the same tokens give the same trees
once all amounts are made zero. -/
theorem outlineList_parseTokens (l l' : Limits) (ts : List Token) :
    Node.outlineList (parseTokens l ts) = Node.outlineList (parseTokens l' ts) :=
  sequence_outline l l' (bodiesInStep_parseBody l l') none ts

end Query

end SearchLang
