import SearchLang.Proofs.Cursor.Parse
import SearchLang.Token.Counter

/-!
# Cursors and counters

However a cursor has been moved, it is the one that its counter describes
(`run_cursor`). Every call keeps to the counter (`after_cursor`), and what a
cursor shows, where it may point and where `skipUntil` stops are read off the
cursor of a counter.
-/

namespace SearchLang

namespace Cursor

/-! ## Skipping -/

theorem skipCount_of_none (p : Token → Bool) {c : Cursor} (h : c.lookahead = none) :
    c.skipCount p = 0 := by
  rw [skipCount]
  split
  · rename_i t ht
    rw [h] at ht
    cases ht
  · rfl

theorem skipCount_of_some (p : Token → Bool) {c : Cursor} {t : Token} (h : c.lookahead = some t) :
    c.skipCount p = if p t then c.moveNext.skipCount p + 1 else 0 := by
  rw [skipCount]
  split
  · rename_i t' ht
    rw [h] at ht
    cases ht
    rfl
  · rename_i hnone
    rw [h] at hnone
    cases hnone

/-- Skipping is moving on, as often as `skipCount` says. -/
theorem skipWhile_eq_iterate (p : Token → Bool) (c : Cursor) :
    c.skipWhile p = moveNext^[c.skipCount p] c := by
  fun_induction skipWhile p c with
  | case1 c t h hp ih => rw [skipCount_of_some p h, if_pos hp, Function.iterate_succ_apply, ih]
  | case2 c t h hp => rw [skipCount_of_some p h, if_neg hp, Function.iterate_zero_apply]
  | case3 c h => rw [skipCount_of_none p h, Function.iterate_zero_apply]

/-- Skipping passes as many tokens as satisfy the condition. -/
theorem Before.skipCount_eq (p : Token → Bool) {c : Cursor} {ts : List Token} (h : c.Before ts) :
    c.skipCount p = (ts.takeWhile p).length := by
  induction ts generalizing c with
  | nil => rw [skipCount_of_none p h.lookahead, List.takeWhile_nil, List.length_nil]
  | cons t ts ih =>
    rw [skipCount_of_some p h.lookahead]
    cases hp : p t with
    | true => simpa [hp] using ih h.moveNext
    | false => simp [hp]

theorem head?_dropWhile_kind (k : Kind) (ts : List Token) :
    (ts.dropWhile fun t => t.kind != k).head? = ts.find? fun t => t.kind == k := by
  induction ts with
  | nil => rfl
  | cons t ts ih => by_cases hk : t.kind = k <;> simp [hk, ih]

end Cursor

namespace Counter

open Cursor

variable (tokens : List Token) (n : Counter)

/-! ## The cursor of a counter -/

theorem cursor_zero : ({} : Counter).cursor tokens = ofTokens tokens := by
  simp [cursor, place, ofTokens]

/-- What stands at a place of the counter, which is nothing before the first token and after the
last one. -/
theorem bind_place (back : Nat) :
    ((n.place tokens back).bind fun i => tokens[i]?) =
      if back ≤ n.advances then tokens[n.advances - back]? else none := by
  unfold place
  by_cases hback : back ≤ n.advances
  · by_cases hin : n.advances - back < tokens.length
    · simp [hback, hin]
    · simp only [hback, hin, true_and, if_true, if_false, Option.bind_none]
      exact (List.getElem?_eq_none (Nat.le_of_not_lt hin)).symm
  · simp [hback]

theorem lt_of_mem_place {back i : Nat} (h : i ∈ n.place tokens back) : i < tokens.length := by
  unfold place at h
  by_cases hin : back ≤ n.advances ∧ n.advances - back < tokens.length
  · rw [if_pos hin] at h
    cases h
    exact hin.2
  · rw [if_neg hin] at h
    cases h

theorem shows_cursor : n.Shows tokens (n.cursor tokens) where
  current := bind_place tokens n 2
  lookahead := bind_place tokens n 1
  peek := fst_peek _
  glimpse := rfl

theorem inBounds_cursor : (n.cursor tokens).InBounds where
  position := Nat.min_le_right _ _
  current := fun _ => lt_of_mem_place tokens n
  lookahead := fun _ => lt_of_mem_place tokens n

/-! ## Calls -/

/-- The places of a cursor fall behind by one when it moves on. -/
theorem place_advance (back : Nat) : n.advance.place tokens (back + 1) = n.place tokens back := by
  simp [place, advance]

theorem moveNext_cursor : (n.cursor tokens).moveNext = n.advance.cursor tokens := by
  have hcurrent : n.advance.place tokens 2 = n.place tokens 1 := place_advance tokens n 1
  have hlookahead : n.advance.place tokens 1 = n.place tokens 0 := place_advance tokens n 0
  rw [cursor, cursor, hcurrent, hlookahead, moveNext]
  by_cases hin : n.advances < tokens.length
  · have hposition : min n.advances tokens.length = n.advances := by omega
    have hadvanced : min (n.advances + 1) tokens.length = n.advances + 1 := by omega
    have hplace : n.place tokens 0 = some n.advances := by simp [place, hin]
    simp only [hposition, hin, if_true, hplace, advance, hadvanced]
  · have hposition : min n.advances tokens.length = tokens.length := by omega
    have hadvanced : min (n.advances + 1) tokens.length = tokens.length := by omega
    have hplace : n.place tokens 0 = none := by simp [place, hin]
    simp only [hposition, Nat.lt_irrefl, if_false, hplace, advance, hadvanced]

theorem iterate_moveNext_cursor (d : Nat) :
    moveNext^[d] (n.cursor tokens) = (advance^[d] n).cursor tokens := by
  induction d generalizing n with
  | zero => rfl
  | succ d ih => rw [Function.iterate_succ_apply, Function.iterate_succ_apply, moveNext_cursor, ih]

/-- **Every call keeps to the counter.** -/
theorem after_cursor (call : Call) :
    (n.cursor tokens).after call = (n.count (n.cursor tokens) call).cursor tokens := by
  cases call with
  | moveNext => exact moveNext_cursor tokens n
  | reset => exact (cursor_zero tokens).symm
  | peek =>
    cases hpeek : tokens[min n.advances tokens.length + n.peeks]? with
    | none =>
      have hnone : (n.cursor tokens).peek = (none, n.cursor tokens) := by
        simp [Cursor.peek, cursor, hpeek]
      simp [after, count, hnone]
    | some t =>
      have hsome : (n.cursor tokens).peek =
          (some t, { n with peeks := n.peeks + 1 }.cursor tokens) := by
        simp only [Cursor.peek, cursor, hpeek]
        rfl
      simp [after, count, hsome]
  | glimpse => rfl
  | resetPeek => rfl
  | skipUntil k =>
    show (n.cursor tokens).skipWhile _ = _
    rw [skipWhile_eq_iterate, iterate_moveNext_cursor]
    rfl

/-- **Whatever calls are made on a cursor, it is the one that the counter describes.** -/
theorem run_cursor (calls : List Call) :
    (n.cursor tokens).run calls = (n.countAll (n.cursor tokens) calls).cursor tokens := by
  induction calls generalizing n with
  | nil => rfl
  | cons call calls ih =>
    show ((n.cursor tokens).after call).run calls = _
    rw [after_cursor, ih, countAll, after_cursor]

/-! ## Skipping ahead -/

theorem before_cursor (hadvanced : 1 ≤ n.advances) :
    (n.cursor tokens).Before (n.ahead tokens) := by
  have hahead : n.ahead tokens = tokens.drop (n.advances - 1) := if_pos hadvanced
  have hnext : n.advances - 1 + 1 = n.advances := by omega
  refine ⟨?_, ?_⟩
  · rw [(shows_cursor tokens n).lookahead, if_pos hadvanced, hahead, List.head?_drop]
  · show tokens.drop (min n.advances tokens.length) = _
    rw [hahead, List.tail_drop, hnext, ← List.drop_eq_drop_min]

theorem skips_cursor (k : Kind) : n.Skips tokens (n.cursor tokens) k := by
  by_cases hadvanced : 1 ≤ n.advances
  · have hbefore := before_cursor tokens n hadvanced
    refine ⟨skipWhile_eq_iterate _ _, hbefore.skipCount_eq _, ?_, ?_⟩
    · exact (hbefore.skipWhile _).lookahead.trans (head?_dropWhile_kind k _)
    · cases hnext : (n.cursor tokens).lookahead with
      | none => exact .inr (skipWhile_of_none _ hnext)
      | some t => exact .inl rfl
  · -- a cursor that has not moved has no lookahead
    have hnone : (n.cursor tokens).lookahead = none := by
      rw [(shows_cursor tokens n).lookahead, if_neg hadvanced]
    have hahead : n.ahead tokens = [] := if_neg hadvanced
    have hstays : (n.cursor tokens).skipUntil k = n.cursor tokens := skipWhile_of_none _ hnone
    refine ⟨skipWhile_eq_iterate _ _, ?_, ?_, .inr hstays⟩
    · rw [skipCount_of_none _ hnone, hahead]
      rfl
    · rw [hstays, hnone, hahead]
      rfl

end Counter

namespace Cursor

/-- **A cursor refines a counter.** After any calls on a new cursor, the moves and the peeks that
were counted say what the current token, the lookahead and the next peek are; every place that
the cursor holds is one in its tokens; looking ahead moves nothing; `skipUntil` stops at the first
token of its kind; and the tokens are parsed as if there had been no calls. -/
theorem run_refines_counter (limits : Limits) (tokens : List Token) (calls : List Call) :
    let c := (ofTokens tokens).run calls
    let n := ({} : Counter).countAll (ofTokens tokens) calls
    n.Shows tokens c ∧ c.InBounds ∧
      (c.InPlace c.peek.2 ∧ c.InPlace c.glimpse.2 ∧ c.InPlace c.resetPeek) ∧
      (∀ k, n.Skips tokens c k) ∧
      c.parse limits = (ofTokens tokens).parse limits ∧
      c.parse limits = Query.parseTokens limits tokens := by
  intro c n
  have hc : c = n.cursor tokens := by
    have hrun := Counter.run_cursor tokens {} calls
    rwa [Counter.cursor_zero] at hrun
  have hparse : c.parse limits = Query.parseTokens limits tokens := by
    rw [parse_eq, hc]
    rfl
  refine ⟨hc ▸ n.shows_cursor tokens, hc ▸ n.inBounds_cursor tokens, ?_, ?_, ?_, hparse⟩
  · exact ⟨⟨current_peek c, lookahead_peek c⟩, ⟨rfl, rfl⟩, ⟨rfl, rfl⟩⟩
  · exact fun k => hc ▸ n.skips_cursor tokens k
  · rw [hparse, parse_eq, tokens_ofTokens]

end Cursor

end SearchLang
