import SearchLang.Proofs.Parse.Extent
import SearchLang.Proofs.Scan.Join
import SearchLang.Proofs.Scan.Signs
import SearchLang.Query.Basic

/-!
# Parts of a query

A word after a query and a space is a part of its own: it is scanned as a token
of its own, and parsed as a node of its own unless a filter is still open. The
brackets of a scan tell that all subqueries before it have ended.
-/

namespace SearchLang

namespace Brackets

/-- What is open after some kinds. -/
def after (o : Brackets) (ks : List Kind) : Brackets :=
  ks.foldl next o

/-- The automaton goes on from where the kinds before leave it. -/
theorem accepts_append {o : Brackets} {before : Option Kind} {ks ls : List Kind}
    (h : o.accepts before (ks ++ ls) = true) :
    ∃ before', (o.after ks).accepts before' ls = true := by
  induction ks generalizing o before with
  | nil => exact ⟨before, h⟩
  | cons k ks ih =>
    rw [List.cons_append, accepts_cons, Bool.and_eq_true] at h
    exact ih h.2

/-- Only its end closes a subquery. -/
theorem subqueryEnd_mem_of_after {o : Brackets} {ks : List Kind} (ho : o.subquery = true)
    (h : (o.after ks).subquery = false) : .subqueryEnd ∈ ks := by
  induction ks generalizing o with
  | nil => simp [after, ho] at h
  | cons k ks ih =>
    by_cases hk : k = .subqueryEnd
    · simp [hk]
    · have hnext : (o.next k).subquery = true := by cases k <;> simp_all [next]
      exact .tail _ (ih hnext h)

end Brackets

namespace Query

/-- Tokens without signs are self-contained if no subquery is open after them. -/
theorem selfContained_of_after {ts : List Token} (hunsigned : ∀ t ∈ ts, ∀ sign, t.kind ≠ .sign sign)
    (h : (Brackets.after {} (ts.map Token.kind)).subquery = false) : SelfContained ts := by
  refine ⟨hunsigned, fun t us hsuffix hk => ?_⟩
  obtain ⟨before, rfl⟩ := hsuffix
  have hopen : (Brackets.next (Brackets.after {} (before.map Token.kind)) .subqueryStart).subquery =
      true := rfl
  have hend : .subqueryEnd ∈ us.map Token.kind := by
    refine Brackets.subqueryEnd_mem_of_after hopen ?_
    simpa [Brackets.after, hk] using h
  obtain ⟨u, hu, huk⟩ := List.mem_map.mp hend
  exact ⟨u, hu, huk⟩

/-- The tokens of a query without signs are self-contained, and so are those before each of its
filters. -/
theorem selfContained_scan {q : Text} (hq : Scan.UnsignedText q) :
    SelfContained (scan q) ∧
      ∀ before t after, scan q = before ++ t :: after → t.kind = .filterStart →
        SelfContained before := by
  have haccepts : Brackets.accepts {} none ((scan q).map Token.kind) = true :=
    (Scan.run_invariant Scan.bracketed_invariant .init _).accepts_close
  have hunsigned : ∀ t ∈ scan q, ∀ sign, t.kind ≠ .sign sign := fun t ht =>
    kind_ne_sign_of_mem_scan hq ht
  constructor
  · refine selfContained_of_after hunsigned ?_
    rw [← List.append_nil ((scan q).map Token.kind)] at haccepts
    obtain ⟨before, hend⟩ := Brackets.accepts_append haccepts
    rw [Brackets.accepts_nil, Bool.and_eq_true, Bool.not_eq_true', Bool.not_eq_true'] at hend
    exact hend.2
  · intro before t after hscan hk
    refine selfContained_of_after (fun u hu => hunsigned u (by simp [hscan, hu])) ?_
    rw [hscan, List.map_append, List.map_cons, hk] at haccepts
    obtain ⟨k, hstart⟩ := Brackets.accepts_append haccepts
    rw [Brackets.accepts_cons, Brackets.admits, Bool.and_eq_true, Bool.and_eq_true,
      Bool.not_eq_true', Bool.not_eq_true'] at hstart
    exact hstart.1.2

/-- **A word after a query is a node of its own exactly when no filter is left open.** A filter is
left open when it has no value and its end stands in a subquery without nodes. -/
theorem parse_append_word_iff (limits : Limits) {q w : Text} (hquote : '"' ∉ q)
    (hsigns : '+' ∉ q ∧ '-' ∉ q) (hlink : ¬ "://".toList <:+: q)
    (hsubquery : (Scan.ofQuery q).inSubquery = false) (hrange : (Scan.ofQuery q).range = none)
    (hw : Text.isPlainWord w = true) :
    parse limits (q ++ ' ' :: w) = parse limits q ++ [.ofLeaf (.word w false)] ↔
      leavesFilterOpen limits (scan q) = false := by
  obtain ⟨hscan, hparts⟩ := selfContained_scan hsigns
  have hword : scan (q ++ ' ' :: w) = scan q ++ [.ofText .word w] :=
    Scan.scan_append_word hquote hlink hsubquery hrange hw
  rw [parse, parse, hword]
  refine ⟨fun h => ?_, fun h => parseTokens_append_word hscan h w⟩
  cases hopen : leavesFilterOpen limits (scan q) with
  | false => rfl
  | true =>
    obtain ⟨field, c, hfilter⟩ := parseTokens_append_word_of_open hscan hparts hopen w
    rw [hfilter] at h
    simp [filterOn, Node.ofLeaf] at h

/-- Ranges and subqueries with and without values, and an empty filter at the end. -/
def partsSample : Text :=
  "f:({a TO b}) h:[* TO *] (x~2) i:()j k:".toList

theorem parse_append_word_partsSample :
    leavesFilterOpen {} (scan partsSample) = false ∧
      parse {} (partsSample ++ ' ' :: "Word".toList) =
        parse {} partsSample ++ [.ofLeaf (.word "Word".toList false)] := by
  have hclosed : leavesFilterOpen {} (scan partsSample) = false := by decide +kernel
  have hlink : ¬ "://".toList <:+: partsSample := by decide +kernel
  exact ⟨hclosed, (parse_append_word_iff {} (by decide) (by decide) hlink (by decide +kernel)
    (by decide +kernel) (by decide)).mpr hclosed⟩

/-- A filter on a subquery with an unbounded range in it takes the word after it, although the
filter has ended with the range. -/
theorem parse_append_word_captured :
    ¬ ∀ (q w : Text), '"' ∉ q → ('+' ∉ q ∧ '-' ∉ q) → ¬ "://".toList <:+: q →
      (Scan.ofQuery q).inSubquery = false → (Scan.ofQuery q).range = none →
      Text.isPlainWord w = true →
      parse {} (q ++ ' ' :: w) = parse {} q ++ [.ofLeaf (.word w false)] := by
  intro h
  have hword := h "f:([* TO *])".toList "w".toList (by decide) (by decide) (by decide +kernel)
    (by decide +kernel) (by decide +kernel) (by decide)
  have hlong : parse {} ("f:([* TO *])".toList ++ ' ' :: "w".toList) =
      [.filter "f".toList none (.leaf (.word "w".toList false) {}) {}] := by decide +kernel
  have hshort : parse {} "f:([* TO *])".toList = [] := by decide +kernel
  rw [hlong, hshort] at hword
  simp [Node.ofLeaf] at hword

end Query

end SearchLang
