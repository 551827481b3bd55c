import SearchLang.Proofs.Chunk.Join
import SearchLang.Proofs.Scan.Bracketing
import SearchLang.Proofs.Scan.Spacing

/-!
# Scanning across a space

Where no subquery and no range is open, the space after a query settles its
scan: the tokens are those of the query, and nothing of what was read before it
changes the reading of what comes after it.
-/

namespace SearchLang.Scan

open Chunk

theorem step_space (s : Scan) : s.step [' '] = (s.addOnce .whitespace).settle := by
  have htrim : Text.trim Text.isPadding [' '] = [] := rfl
  rw [step, htrim, chunk, if_pos rfl]

theorem inSubquery_step_space (s : Scan) : (s.step [' ']).inSubquery = s.inSubquery := by
  rw [step_space, settle]
  split <;> simp

theorem range_step_space (s : Scan) : (s.step [' ']).range = s.range := by
  rw [step_space, settle]
  split <;> simp

/-- The end of a settled scan adds nothing. -/
theorem Settled.kept_close {s : Scan} {ts : List Token} (hs : s.Settled ts) : s.close.kept = ts := by
  rw [close_of_not_open hs.filter hs.subquery, hs.kept]

/-- **A scan goes on after a space as a settled one**: from a state in which nothing is open, and
whose tokens are those of the query before the space. -/
theorem exists_settled_append_space {q : Text} (hquote : '"' ∉ q) (hlink : ¬ linkMark <:+: q)
    (hsubquery : (ofQuery q).inSubquery = false) (hrange : (ofQuery q).range = none) :
    ∃ s : Scan, s.Settled (scan q) ∧
      ∀ rest pieces, Chunk.ofQuery rest = [' '] :: pieces →
        ofQuery (q ++ ' ' :: rest) = s.run pieces := by
  obtain ⟨chunks, hchunks, hjoin⟩ := ofQuery_append_space hlink
  have hbracketed : (({} : Scan).run chunks).Bracketed :=
    run_invariant bracketed_invariant .init chunks
  refine ⟨(({} : Scan).run chunks).step [' '], ?_, fun rest pieces h => ?_⟩
  · generalize hs : ({} : Scan).run chunks = s at hbracketed
    rcases hchunks with h | h
    · have hq : ofQuery q = s := by rw [ofQuery, h, hs]
      have hscan : scan q = s.close.kept := by rw [scan, hq]; rfl
      rw [hq] at hsubquery hrange
      rw [step_space, hscan]
      exact settled_space hsubquery hrange hbracketed.ne_filterEnd
    · -- the query ends in a space, which has settled the scan
      have hq : ofQuery q = s.step [' '] := by rw [ofQuery, h, run_append, hs]; rfl
      rw [hq, inSubquery_step_space] at hsubquery
      rw [hq, range_step_space] at hrange
      have hsettled := settled_space hsubquery hrange hbracketed.ne_filterEnd
      rw [← step_space] at hsettled
      have hscan : scan q = s.close.kept := by
        rw [scan, hq]
        exact hsettled.kept_close
      rwa [hscan]
  · rw [ofQuery, hjoin rest (.inl hquote), run_append, h]
    rfl

/-! ## A word after a query -/

theorem isTame_of_isPlainWord {w : Text} (hw : Text.isPlainWord w = true) :
    w ≠ [] ∧ ∀ c ∈ w, isTame c = true := by
  obtain ⟨hne, halpha, -⟩ := of_isPlainWord hw
  refine ⟨hne, fun c hc => isTame_of_isNameRest ?_⟩
  simp [Pattern.isNameRest, isNameChar_of_isAlpha (halpha c hc)]

/-- A piece on its own is cut off behind the space that every query starts with. -/
theorem ofQuery_piece {piece : Text} (hpiece : Text.IsCompact piece)
    (h : lengthAt true (piece ++ []) = piece.length) : Chunk.ofQuery piece = [[' '], piece] := by
  have hsplit : split true (piece ++ []) = piece :: split (endsInSpace piece) [] :=
    split_append hpiece.ne_nil h
  rw [List.append_nil, split_nil] at hsplit
  rw [Chunk.ofQuery, hpiece.space.collapseBlanks_eq, split_space, hsplit]

/-- A plain word is cut off as a piece of its own. -/
theorem ofQuery_word {w : Text} (hw : Text.isPlainWord w = true) :
    Chunk.ofQuery w = [[' '], w] := by
  obtain ⟨hne, htame⟩ := isTame_of_isPlainWord hw
  exact ofQuery_piece (.of_forall hne fun c hc => isBlank_of_isTame (htame c hc))
    (lengthAt_tame hne htame stops_nil)

/-- **A word after a query is scanned as a token of its own.** -/
theorem scan_append_word {q w : Text} (hquote : '"' ∉ q) (hlink : ¬ linkMark <:+: q)
    (hsubquery : (ofQuery q).inSubquery = false) (hrange : (ofQuery q).range = none)
    (hw : Text.isPlainWord w = true) : scan (q ++ ' ' :: w) = scan q ++ [.ofText .word w] := by
  obtain ⟨s, hs, hjoin⟩ := exists_settled_append_space hquote hlink hsubquery hrange
  obtain ⟨hne, htame⟩ := isTame_of_isPlainWord hw
  have hchunk : s.chunk w = s.push [.ofText .word w] := chunk_word hs.ready.1 {} hw false
  have hstep : s.step w = s.push [.ofText .word w] := by
    rw [step_eq_chunk (isTrim_of_isTame hne htame) (by simp [hchunk]), hchunk]
  have hq : ofQuery (q ++ ' ' :: w) = s.push [.ofText .word w] := by
    rw [hjoin w [w] (ofQuery_word hw), ← hstep]
    rfl
  show (ofQuery (q ++ ' ' :: w)).close.kept = _
  rw [hq, kept_close_push hs.filter hs.subquery, hs.kept]
  rfl

end SearchLang.Scan
