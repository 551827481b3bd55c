import SearchLang.Limits
import SearchLang.Query.Span

/-!
# Parsing

Parsing turns tokens into nodes. It never fails: a token that does not fit where
it stands is passed over. `step` handles the token at the front, together with
what belongs to it, and always leaves fewer tokens than there were.
-/

namespace SearchLang.Query

/-! ## Modifiers -/

/-- Attaches the boosts and fuzzies that directly follow a node; each takes a number directly
after it. The last boost counts, and the last fuzziness if the node supports one. -/
def attachModifiers (limits : Limits) (node : Node) : List Token → Node × List Token
  | [] => (node, [])
  | t :: ts =>
    match t.kind with
    | .boost =>
      attachModifiers limits (node.withBoost (limits.boost (takeNumber ts).1)) (takeNumber ts).2
    | .fuzzy =>
      let node := if node.supportsFuzzy then node.withFuzzy (limits.fuzzy (takeNumber ts).1) else node
      attachModifiers limits node (takeNumber ts).2
    | _ => (node, t :: ts)
termination_by ts => ts.length
decreasing_by
  all_goals
    have := (takeNumber_suffix ts).length_le
    simp only [List.length_cons]
    omega

theorem attachModifiers_suffix (limits : Limits) (node : Node) (ts : List Token) :
    (attachModifiers limits node ts).2 <:+ ts := by
  fun_induction attachModifiers limits node ts with
  | case1 => exact List.suffix_refl _
  | case2 node t ts _ ih => exact ih.trans ((takeNumber_suffix ts).trans (List.suffix_cons _ _))
  | case3 node t ts _ node' ih => exact ih.trans ((takeNumber_suffix ts).trans (List.suffix_cons _ _))
  | case4 => exact List.suffix_refl _

/-- Any other token ends the modifiers. -/
theorem attachModifiers_of_ne (limits : Limits) (n : Node) {t : Token} (ts : List Token)
    (hb : t.kind ≠ .boost) (hf : t.kind ≠ .fuzzy) :
    attachModifiers limits n (t :: ts) = (n, t :: ts) := by
  rw [attachModifiers]
  split <;> simp_all

/-- What handling a token gives: nodes, the sign that waits for the next node, and the tokens
that are left. -/
structure Progress where
  nodes : List Node
  sign : Option Sign
  rest : List Token

/-- Adds modifiers to the last of some nodes, if there is one. -/
def attachToLast (limits : Limits) : List Node → List Token → List Node × List Token
  | [], ts => ([], ts)
  | [n], ts => ([(attachModifiers limits n ts).1], (attachModifiers limits n ts).2)
  | n :: ns, ts => (n :: (attachToLast limits ns ts).1, (attachToLast limits ns ts).2)

/-- Gives the first of some nodes a sign. -/
def signFirst (sign : Option Sign) : List Node → List Node
  | [] => []
  | n :: ns => n.withSign sign :: ns

/-- Finishes new nodes: the first takes the waiting sign, the last the modifiers that follow. The
sign is spent even if there are no nodes. -/
def finish (limits : Limits) (sign : Option Sign) (nodes : List Node) (ts : List Token) :
    Progress :=
  let attached := attachToLast limits (signFirst sign nodes) ts
  ⟨attached.1, none, attached.2⟩

theorem attachToLast_suffix (limits : Limits) (nodes : List Node) (ts : List Token) :
    (attachToLast limits nodes ts).2 <:+ ts := by
  fun_induction attachToLast limits nodes ts with
  | case1 => exact List.suffix_refl _
  | case2 n ts => exact attachModifiers_suffix limits n ts
  | case3 ts n ns _ ih => exact ih

theorem finish_suffix (limits : Limits) (sign : Option Sign) (nodes : List Node)
    (ts : List Token) : (finish limits sign nodes ts).rest <:+ ts :=
  attachToLast_suffix limits _ ts

/-! ## Filters -/

/-- How the nodes of a subquery are read; there are no subqueries inside subqueries. -/
abbrev BodyParser := List Token → List Node

/-- The filter on a value. A compound value has no comparison. -/
def filterOn (field : Text) (comparison : Option Comparison) (value : Node) : Node :=
  .filter field (if value.isCompound then none else comparison) value {}

/-- The comparison of a greater or less sign, which an equals sign may follow. -/
def comparisonOf (greater orEqual : Bool) : Comparison :=
  match greater, orEqual with
  | true, false => .gt
  | true, true => .gte
  | false, false => .lt
  | false, true => .lte

/-- Reads the value of a filter after its start. Signs before the value apply to the filter, of
several comparisons the last counts, and a token that cannot belong to the filter ends it. -/
def readFilter (body? : Option BodyParser) (field : Text) (sign : Option Sign)
    (comparison : Option Comparison) : List Token → Progress
  | [] => ⟨[], sign, []⟩
  | t :: ts =>
    match t.kind with
    | .filterEnd => ⟨[], sign, ts⟩
    | .sign s => readFilter body? field (some s) comparison ts
    | .greater =>
      let equals := takeEquals ts
      readFilter body? field sign (some (comparisonOf true equals.1)) equals.2
    | .less =>
      let equals := takeEquals ts
      readFilter body? field sign (some (comparisonOf false equals.1)) equals.2
    | .equals => readFilter body? field sign comparison ts
    | .subqueryStart =>
      match body? with
      | none => ⟨[], sign, t :: ts⟩
      | some body =>
        match body (subqueryBody ts) with
        | [] => readFilter body? field sign comparison (afterSubquery ts)
        | nodes =>
          ⟨[filterOn field comparison (.subquery nodes {})], sign,
            dropFilterEnd (afterSubquery ts)⟩
    | .rangeStart b =>
      match readRange? b ts with
      | none => readFilter body? field sign comparison ts
      | some (.leaves ls, rest) => ⟨ls.map .ofLeaf, sign, dropFilterEnd rest⟩
      | some (.interval i, rest) =>
        ⟨[filterOn field comparison (.ofInterval i)], sign, dropFilterEnd rest⟩
    | k =>
      if k.isLeaf then
        match readLeaf? t ts with
        | none => readFilter body? field sign comparison ts
        | some (l, rest) => ⟨[filterOn field comparison (.ofLeaf l)], sign, dropFilterEnd rest⟩
      else ⟨[], sign, t :: ts⟩
termination_by ts => ts.length
decreasing_by
  all_goals
    have he := (takeEquals_suffix ts).length_le
    have ha := (afterSubquery_suffix ts).length_le
    simp only [List.length_cons]
    omega

theorem readFilter_suffix (body? : Option BodyParser) (field : Text) (sign : Option Sign)
    (comparison : Option Comparison) (ts : List Token) :
    (readFilter body? field sign comparison ts).rest <:+ ts := by
  fun_induction readFilter body? field sign comparison ts with
  | case1 => exact List.suffix_refl _
  | case2 => exact List.suffix_cons _ _
  | case3 => rename_i ih; exact ih.trans (List.suffix_cons _ _)
  | case4 => rename_i ih; exact ih.trans ((takeEquals_suffix _).trans (List.suffix_cons _ _))
  | case5 => rename_i ih; exact ih.trans ((takeEquals_suffix _).trans (List.suffix_cons _ _))
  | case6 => rename_i ih; exact ih.trans (List.suffix_cons _ _)
  | case7 => exact List.suffix_refl _
  | case8 =>
    rename_i hb _ ih
    subst hb
    exact ih.trans ((afterSubquery_suffix _).trans (List.suffix_cons _ _))
  | case9 =>
    exact (dropFilterEnd_suffix _).trans ((afterSubquery_suffix _).trans (List.suffix_cons _ _))
  | case10 => rename_i ih; exact ih.trans (List.suffix_cons _ _)
  | case11 =>
    rename_i h
    exact (dropFilterEnd_suffix _).trans ((readRange?_suffix h).trans (List.suffix_cons _ _))
  | case12 =>
    rename_i h
    exact (dropFilterEnd_suffix _).trans ((readRange?_suffix h).trans (List.suffix_cons _ _))
  | case13 => rename_i ih; exact ih.trans (List.suffix_cons _ _)
  | case14 =>
    exact (dropFilterEnd_suffix _).trans
      ((readLeaf?_suffix (by assumption)).trans (List.suffix_cons _ _))
  | case15 => exact List.suffix_refl _

/-! ## Sequences -/

/-- The nodes that a reading of a range gives. -/
def RangeReading.nodes : RangeReading → List Node
  | .interval i => [.ofInterval i]
  | .leaves ls => ls.map .ofLeaf

/-- The node of a subquery; an empty one is dropped. -/
def subqueryNodes : List Node → List Node
  | [] => []
  | nodes => [.subquery nodes {}]

/-- Handles the token `t` with the tokens `ts` after it. -/
def step (limits : Limits) (body? : Option BodyParser) (sign : Option Sign) (t : Token)
    (ts : List Token) : Progress :=
  match t.kind with
  | .sign s => ⟨[], some s, ts⟩
  | .and | .or | .subqueryEnd => ⟨[], sign, ts⟩
  | .subqueryStart =>
    match body? with
    | none => ⟨[], sign, ts⟩
    | some body => finish limits sign (subqueryNodes (body (subqueryBody ts))) (afterSubquery ts)
  | .filterStart =>
    let filter := readFilter body? (t.text?.getD []) sign none ts
    finish limits filter.sign filter.nodes filter.rest
  | .rangeStart b =>
    match readRange? b ts with
    | none => ⟨[], sign, ts⟩
    | some (reading, rest) => finish limits sign reading.nodes rest
  | .boost | .fuzzy => ⟨[], sign, (takeNumber ts).2⟩
  | _ =>
    match readLeaf? t ts with
    | none => ⟨[], sign, ts⟩
    | some (l, rest) => finish limits sign [.ofLeaf l] rest

theorem step_suffix (limits : Limits) (body? : Option BodyParser) (sign : Option Sign)
    (t : Token) (ts : List Token) : (step limits body? sign t ts).rest <:+ ts := by
  unfold step
  split
  · exact List.suffix_refl _
  · exact List.suffix_refl _
  · exact List.suffix_refl _
  · exact List.suffix_refl _
  · split
    · exact List.suffix_refl _
    · exact (finish_suffix _ _ _ _).trans (afterSubquery_suffix ts)
  · exact (finish_suffix _ _ _ _).trans (readFilter_suffix _ _ _ _ ts)
  · split
    · exact List.suffix_refl _
    · rename_i h
      exact (finish_suffix _ _ _ _).trans (readRange?_suffix h)
  · exact takeNumber_suffix ts
  · exact takeNumber_suffix ts
  · split
    · exact List.suffix_refl _
    · rename_i h
      exact (finish_suffix _ _ _ _).trans (readLeaf?_suffix h)

/-- The nodes of some tokens, with a sign waiting for the first. -/
def sequence (limits : Limits) (body? : Option BodyParser) (sign : Option Sign) :
    List Token → List Node
  | [] => []
  | t :: ts =>
    let p := step limits body? sign t ts
    p.nodes ++ sequence limits body? p.sign p.rest
termination_by ts => ts.length
decreasing_by
  have := (step_suffix limits body? sign t ts).length_le
  simp only [List.length_cons]
  omega

theorem sequence_cons (limits : Limits) (body? : Option BodyParser) (sign : Option Sign) (t : Token)
    (ts : List Token) :
    sequence limits body? sign (t :: ts) =
      (step limits body? sign t ts).nodes ++
        sequence limits body? (step limits body? sign t ts).sign
          (step limits body? sign t ts).rest := by
  rw [sequence]

/-- The nodes of the tokens inside a subquery. -/
def parseBody (limits : Limits) : BodyParser :=
  sequence limits none none

/-- The nodes of the tokens of a query. -/
def parseTokens (limits : Limits) (ts : List Token) : List Node :=
  sequence limits (some (parseBody limits)) none ts

end SearchLang.Query
