import SearchLang.Query.Parse

/-!
# Traces

The parser as it moves along its tokens, with a record of what it does at the
brackets of subqueries. A subquery is not cut out of the tokens before it is read:
its nodes are taken off the front of all tokens that are left, until an end comes
up where a node may start. `Proofs.Query.Subqueries` shows that this parser gives
the nodes of `parseTokens`.
-/

namespace SearchLang.Query

/-- What a parser does at a bracket of a subquery. -/
inductive BracketEvent where
  /-- A subquery is read: the tokens after its start, and those that its reading leaves. -/
  | read (after left : List Token)
  /-- A start inside a subquery is passed over. -/
  | passStart (after : List Token)
  /-- An end outside of subqueries is passed over. -/
  | passEnd (after : List Token)
  deriving DecidableEq, Repr

/-- What a reader makes of its tokens, and what it does at the brackets on the way. -/
structure Traced extends Progress where
  events : List BracketEvent

/-- Reads the body of a subquery off the front of some tokens. -/
def traceBody (limits : Limits) (sign : Option Sign) : List Token → Traced
  | [] => ⟨⟨[], sign, []⟩, []⟩
  | t :: ts =>
    if t.kind = .subqueryEnd then ⟨⟨[], sign, ts⟩, []⟩
    else
      let p := step limits none sign t ts
      let r := traceBody limits p.sign p.rest
      ⟨⟨p.nodes ++ r.nodes, r.sign, r.rest⟩,
        (if t.kind = .subqueryStart then [.passStart ts] else []) ++ r.events⟩
termination_by ts => ts.length
decreasing_by
  have := (step_suffix limits none sign t ts).length_le
  simp only [List.length_cons]
  omega

theorem traceBody_suffix (limits : Limits) (sign : Option Sign) (ts : List Token) :
    (traceBody limits sign ts).rest <:+ ts := by
  fun_induction traceBody limits sign ts with
  | case1 => exact List.suffix_refl _
  | case2 => exact List.suffix_cons _ _
  | case3 sign t ts _ p r ih =>
    exact ih.trans ((step_suffix limits none sign t ts).trans (List.suffix_cons t ts))

/-- Reads the value of a filter after its start. -/
def traceFilter (limits : Limits) (field : Text) (sign : Option Sign)
    (comparison : Option Comparison) : List Token → Traced
  | [] => ⟨⟨[], sign, []⟩, []⟩
  | t :: ts =>
    match t.kind with
    | .filterEnd => ⟨⟨[], sign, ts⟩, []⟩
    | .sign s => traceFilter limits field (some s) comparison ts
    | .greater =>
      let equals := takeEquals ts
      traceFilter limits field sign (some (comparisonOf true equals.1)) equals.2
    | .less =>
      let equals := takeEquals ts
      traceFilter limits field sign (some (comparisonOf false equals.1)) equals.2
    | .equals => traceFilter limits field sign comparison ts
    | .subqueryStart =>
      let body := traceBody limits none ts
      let events := .read ts body.rest :: body.events
      match body.nodes with
      | [] =>
        let r := traceFilter limits field sign comparison body.rest
        { r with events := events ++ r.events }
      | nodes =>
        ⟨⟨[filterOn field comparison (.subquery nodes {})], sign, dropFilterEnd body.rest⟩, events⟩
    | .rangeStart b =>
      match readRange? b ts with
      | none => traceFilter limits field sign comparison ts
      | some (.leaves ls, rest) => ⟨⟨ls.map .ofLeaf, sign, dropFilterEnd rest⟩, []⟩
      | some (.interval i, rest) =>
        ⟨⟨[filterOn field comparison (.ofInterval i)], sign, dropFilterEnd rest⟩, []⟩
    | k =>
      if k.isLeaf then
        match readLeaf? t ts with
        | none => traceFilter limits field sign comparison ts
        | some (l, rest) =>
          ⟨⟨[filterOn field comparison (.ofLeaf l)], sign, dropFilterEnd rest⟩, []⟩
      else ⟨⟨[], sign, t :: ts⟩, []⟩
termination_by ts => ts.length
decreasing_by
  all_goals
    have he := (takeEquals_suffix ts).length_le
    simp only [List.length_cons]
  -- only after an empty subquery the rest is what a body leaves
  rotate_left 4
  · have hb := (traceBody_suffix limits none ts).length_le
    omega
  all_goals omega

/-- Handles the token `t` outside of subqueries. -/
def traceStep (limits : Limits) (sign : Option Sign) (t : Token) (ts : List Token) : Traced :=
  match t.kind with
  | .subqueryEnd => ⟨⟨[], sign, ts⟩, [.passEnd ts]⟩
  | .subqueryStart =>
    let body := traceBody limits none ts
    ⟨finish limits sign (subqueryNodes body.nodes) body.rest, .read ts body.rest :: body.events⟩
  | .filterStart =>
    let filter := traceFilter limits (t.text?.getD []) sign none ts
    ⟨finish limits filter.sign filter.nodes filter.rest, filter.events⟩
  | _ => ⟨step limits none sign t ts, []⟩

theorem traceFilter_suffix (limits : Limits) (field : Text) (sign : Option Sign)
    (comparison : Option Comparison) (ts : List Token) :
    (traceFilter limits field sign comparison ts).rest <:+ ts := by
  fun_induction traceFilter limits field sign comparison ts with
  | case1 => exact List.suffix_refl _
  | case2 => exact List.suffix_cons _ _
  | case3 | case6 => rename_i ih; exact ih.trans (List.suffix_cons _ _)
  | case4 | case5 => rename_i ih; exact ih.trans ((takeEquals_suffix _).trans (List.suffix_cons _ _))
  | case7 =>
    rename_i ih
    exact ih.trans ((traceBody_suffix limits none _).trans (List.suffix_cons _ _))
  | case8 =>
    exact (dropFilterEnd_suffix _).trans
      ((traceBody_suffix limits none _).trans (List.suffix_cons _ _))
  | case9 | case12 => rename_i ih; exact ih.trans (List.suffix_cons _ _)
  | case10 | case11 =>
    rename_i h
    exact (dropFilterEnd_suffix _).trans ((readRange?_suffix h).trans (List.suffix_cons _ _))
  | case13 =>
    exact (dropFilterEnd_suffix _).trans
      ((readLeaf?_suffix (by assumption)).trans (List.suffix_cons _ _))
  | case14 => exact List.suffix_refl _

theorem traceStep_suffix (limits : Limits) (sign : Option Sign) (t : Token) (ts : List Token) :
    (traceStep limits sign t ts).rest <:+ ts := by
  unfold traceStep
  split
  · exact List.suffix_refl _
  · exact (finish_suffix _ _ _ _).trans (traceBody_suffix limits none ts)
  · exact (finish_suffix _ _ _ _).trans (traceFilter_suffix limits _ _ _ ts)
  · exact step_suffix limits none sign t ts

/-- Reads some tokens outside of subqueries, to their end. -/
def trace (limits : Limits) (sign : Option Sign) : List Token → List Node × List BracketEvent
  | [] => ([], [])
  | t :: ts =>
    let p := traceStep limits sign t ts
    let r := trace limits p.sign p.rest
    (p.nodes ++ r.1, p.events ++ r.2)
termination_by ts => ts.length
decreasing_by
  have := (traceStep_suffix limits sign t ts).length_le
  simp only [List.length_cons]
  omega

/-- Tokens that no query is scanned as: a subquery in a subquery, which ends too early. -/
example :
    (trace {} none ([.subqueryStart, .subqueryStart, .subqueryEnd, .subqueryEnd].map .mark)).2 =
      [.read ([.subqueryStart, .subqueryEnd, .subqueryEnd].map .mark) [.mark .subqueryEnd],
        .passStart ([.subqueryEnd, .subqueryEnd].map .mark), .passEnd []] := by
  decide +kernel

/-! ## Which end belongs to which start -/

/-- The tokens after the end of the subquery that has started last, where `depth` more subqueries
inside of it are open; none if it does not end. -/
def afterOwnEnd? : Nat → List Token → Option (List Token)
  | _, [] => none
  | depth, t :: ts =>
    match t.kind, depth with
    | .subqueryStart, depth => afterOwnEnd? (depth + 1) ts
    | .subqueryEnd, 0 => some ts
    | .subqueryEnd, depth + 1 => afterOwnEnd? depth ts
    | _, depth => afterOwnEnd? depth ts

/-- For each start of a subquery, from left to right, a reading of the subquery that stops at its
own end; none if it does not end. -/
def ownReadings : List Token → List (Option BracketEvent)
  | [] => []
  | t :: ts =>
    if t.kind = .subqueryStart then (afterOwnEnd? 0 ts).map (.read ts) :: ownReadings ts
    else ownReadings ts

end SearchLang.Query
