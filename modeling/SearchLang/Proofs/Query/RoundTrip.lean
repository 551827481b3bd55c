import SearchLang.Proofs.Parse.TokenForm
import SearchLang.Proofs.Scan.Spacing
import SearchLang.Query.Basic

/-!
# Rendering and parsing

The text of a plain tree is scanned to the token form of the tree, which parses
back to the tree.
-/

namespace SearchLang

open Scan

section

variable {limits : Limits}
  (hlimits : limits.maxBoost.isFinite = true ∧ limits.maxFuzzy.isFinite = true) {ns : List Node}

include hlimits

theorem scan_renderList_of_scans (hns : ∀ n ∈ ns, n.isCanonical limits = true ∧ NodeScans n) :
    scan (Node.renderList ns) = Node.tokensList isQuotedBound ns := by
  rw [Node.renderList_eq_join, Node.tokensList_eq_flatMap]
  exact scan_join fun n hn => textScans_node hlimits (hns n hn).1 (hns n hn).2

theorem scan_renderList (hns : ns.all (Node.isPlain limits) = true) :
    scan (Node.renderList ns) = Node.tokensList isQuotedBound ns := by
  refine scan_renderList_of_scans hlimits fun n hn => ?_
  have hplain := List.all_eq_true.mp hns n hn
  refine ⟨?_, nodeScans_of_isPlain hplain⟩
  simp only [Node.isPlain, Bool.and_eq_true] at hplain
  exact hplain.1

end

namespace Query

/-- **Rendered queries parse back.** The text of a plain tree, written with the amounts of a
validated configuration, is a query that stands for the tree. -/
theorem parse_render (l : Limits) {ns : List Node} (h : ns.all (Node.isPlain l.validate) = true) :
    parse l.validate (render ns) = ns := by
  have hcanon : ns.all (Node.isCanonical l.validate) = true := by
    rw [List.all_eq_true] at h ⊢
    intro n hn
    have hplain := h n hn
    simp only [Node.isPlain, Bool.and_eq_true] at hplain
    exact hplain.1
  rw [parse, render, scan_renderList (isFinite_validate l) h, parseTokens_tokensList l _ hcanon]

/-- Signs, amounts, ranges and a subquery next to each other. -/
def plainNodes : List Node := [
  .filter "date".toList none
    (.range (.dates ⟨some "2020-01-31".toList, none, true⟩) {}) { boost := some .two },
  .filter "by.name".toList none (.subquery [
    .leaf (.word "a".toList true) { sign := some .prohibited, fuzzy := some .one },
    .leaf (.text .phrase "to be".toList) {}] {}) { sign := some .required },
  .subquery [.leaf (.number .ten) { boost := some .two }] { sign := some .prohibited },
  .filter "n".toList (some .lte) (.leaf (.number .ten) {}) { sign := some .required },
  .filter "w".toList none (.range (.words ⟨some "x".toList, some "y z".toList, false⟩) {}) {}]

theorem parse_render_plainNodes :
    plainNodes.all (Node.isPlain ({} : Limits).validate) = true ∧
      parse ({} : Limits).validate (render plainNodes) = plainNodes := by
  have hplain : plainNodes.all (Node.isPlain ({} : Limits).validate) = true := by
    decide +kernel
  exact ⟨hplain, parse_render {} hplain⟩

end Query

end SearchLang
