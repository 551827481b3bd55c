import SearchLang.Proofs.Scan.Blanks

/-!
# Subqueries without an end

The end of a query closes what is open: the subquery first, and then the filter
that it may be the value of. A closing parenthesis does the same to an open
subquery, so that one that is missing at the end may be added
(`scan_append_subqueryEnd`).
-/

namespace SearchLang.Scan

open Chunk

/-! ## What is open at the end -/

/-- At the end of a query nothing is open but a range that has no end. -/
theorem not_open_close (s : Scan) : s.close.inFilter = false ∧ s.close.inSubquery = false := by
  have hclosed {s : Scan} (hsubquery : s.inSubquery = false) :
      s.close.inFilter = false ∧ s.close.inSubquery = false := by
    rw [close_of_not_inSubquery hsubquery]
    cases hfilter : s.inFilter with
    | false => exact ⟨hfilter, hsubquery⟩
    | true => exact ⟨inFilter_closeFilter s, hsubquery ▸ inSubquery_closeFilter s⟩
  cases hsubquery : s.inSubquery with
  | false => exact hclosed hsubquery
  | true =>
    rw [close_of_inSubquery hsubquery]
    exact hclosed rfl

theorem close_close (s : Scan) : s.close.close = s.close :=
  close_of_not_open (not_open_close s).1 (not_open_close s).2

/-- What closes a subquery is not a space. -/
theorem lastKind_close_ne {s : Scan} (hsubquery : s.inSubquery = true) :
    s.close.lastKind ≠ .whitespace := by
  rw [close_of_inSubquery hsubquery, close_of_not_inSubquery rfl]
  split
  · simp [lastKind_closeFilter]
  · simp [Token.mark]

/-- **A closing parenthesis closes what the end of a query would close.** -/
theorem closeSubquery_eq_close {s : Scan} (hsubquery : s.inSubquery = true)
    (hrange : s.range = none) : s.closeSubquery = s.close := by
  rw [closeSubquery, if_neg (by simp [hsubquery, hrange]), close_of_inSubquery hsubquery,
    close_of_not_inSubquery rfl]

/-- Where no subquery may end, a closing parenthesis is out of place. -/
theorem closeSubquery_eq_self {s : Scan} (h : ¬ (s.inSubquery = true ∧ s.range = none)) :
    s.closeSubquery = s := by
  refine if_pos ?_
  cases hsubquery : s.inSubquery <;> cases hrange : s.range <;> simp_all

theorem step_subqueryEnd (s : Scan) : s.step [')'] = s.closeSubquery.settle :=
  s.step_mark .subqueryEnd rfl rfl

/-- Neither way does a closing parenthesis change the tokens of a settled scan. -/
theorem result_step_subqueryEnd {s : Scan} (hs : s.settle = s) :
    (s.step [')']).result = s.result := by
  rw [step_subqueryEnd]
  by_cases hopen : s.inSubquery = true ∧ s.range = none
  · rw [closeSubquery_eq_close hopen.1 hopen.2, settle_of_ne (lastKind_close_ne hopen.1), result,
      close_close, result]
  · rw [closeSubquery_eq_self hopen, hs]

/-! ## A parenthesis at the end -/

/-- A closing parenthesis is cut off as a piece of its own. -/
theorem ofQuery_subqueryEnd : Chunk.ofQuery [')'] = [[' '], [')']] := by
  have hlen : lengthAt true ([')'] ++ []) = 1 := lengthAt_stop rfl (.inr rfl) []
  exact ofQuery_piece (.cons rfl Text.isCollapsed_nil) hlen

/-- **A closing parenthesis at the end changes no tokens**, whatever the query holds before it,
quotes without another one too. Where a subquery is open and no range, the parenthesis closes what
the end of the query closes without it; anywhere else it is out of place. -/
theorem scan_append_subqueryEnd {q : Text} (hlink : ¬ "://".toList <:+: q) :
    scan (q ++ " )".toList) = scan q ∧
      ((ofQuery q).inSubquery = true → (ofQuery q).range = none →
        (ofQuery (q ++ " )".toList)).inSubquery = false ∧
          (ofQuery (q ++ " )".toList)).inFilter = false) := by
  obtain ⟨chunks, hchunks, hjoin⟩ := ofQuery_append_space hlink
  have hbracketed : (({} : Scan).run chunks).Bracketed :=
    run_invariant bracketed_invariant .init chunks
  have hend : ofQuery (q ++ " )".toList) = ((({} : Scan).run chunks).step [' ']).step [')'] := by
    show ofQuery (q ++ ' ' :: [')']) = _
    rw [ofQuery, hjoin [')'] (.inr (by simp)), ofQuery_subqueryEnd, run_append]
    rfl
  -- the query leaves the state before the space, or the one after it
  have hq : ofQuery q = ({} : Scan).run chunks ∨ ofQuery q = (({} : Scan).run chunks).step [' '] := by
    refine hchunks.imp (fun h => by rw [ofQuery, h]) fun h => ?_
    rw [ofQuery, h, run_append]
    rfl
  generalize ({} : Scan).run chunks = s at hbracketed hend hq
  have hsettled : (s.step [' ']).settle = s.step [' '] := by rw [step_space, settle_settle]
  refine ⟨?_, fun hsubquery hrange => ?_⟩
  · have hspace : (s.step [' ']).result = s.result := result_step_space hbracketed.ne_filterEnd
    rw [scan, hend, result_step_subqueryEnd hsettled]
    rcases hq with h | h <;> rw [scan, h]
    exact hspace
  · have hopen : (s.step [' ']).inSubquery = true ∧ (s.step [' ']).range = none := by
      rcases hq with h | h <;> rw [h] at hsubquery hrange
      · exact ⟨(inSubquery_step_space s).trans hsubquery, (range_step_space s).trans hrange⟩
      · exact ⟨hsubquery, hrange⟩
    rw [hend, step_subqueryEnd, closeSubquery_eq_close hopen.1 hopen.2,
      settle_of_ne (lastKind_close_ne hopen.1)]
    exact (not_open_close _).symm

/-- A filter on a subquery, with a quote and an emoticon in it and the start of another emoticon at
the end. -/
def unclosedSample : Text :=
  "-f:(a :-) \"b c^2 ] d:".toList

theorem scan_append_subqueryEnd_unclosedSample :
    (¬ "://".toList <:+: unclosedSample ∧ (ofQuery unclosedSample).inSubquery = true ∧
      (ofQuery unclosedSample).range = none) ∧
    scan (unclosedSample ++ " )".toList) = scan unclosedSample ∧
    (ofQuery (unclosedSample ++ " )".toList)).inSubquery = false ∧
    (ofQuery (unclosedSample ++ " )".toList)).inFilter = false := by
  have hlink : ¬ "://".toList <:+: unclosedSample := by decide +kernel
  have hopen : (ofQuery unclosedSample).inSubquery = true ∧
      (ofQuery unclosedSample).range = none := by decide +kernel
  obtain ⟨hscan, hclosed⟩ := scan_append_subqueryEnd hlink
  exact ⟨⟨hlink, hopen⟩, hscan, hclosed hopen.1 hopen.2⟩

end SearchLang.Scan
