import SearchLang.Proofs.Scan.Join

/-!
# Blanks between the parts of a query

Blanks separate, and that is all they do: what kind they are, how many stand
together, and whether there are some before and after the query makes no
difference to its tokens (`scan_respaced`). A space at the end settles a scan; the
end of a query closes the same things in the same order (`result_step_space`).
-/

namespace SearchLang

namespace Text

/-! ## Respaced texts -/

/-- **Respaced texts collapse to the same text.** -/
theorem Respaced.collapseBlanks_eq {s s' : Text} (h : Respaced s s') :
    collapseBlanks s = collapseBlanks s' := by
  induction h with
  | nil => rfl
  | char hc h ih => rw [collapseBlanks_cons, collapseBlanks_cons, ih]
  | run hrun hrun' hend h ih =>
    rw [collapseBlanks_run hrun, collapseBlanks_run hrun', collapseBlanks_cons, collapseBlanks_cons,
      ih]

theorem collapseBlanks_run_of_head {run s : Text} (hrun : IsBlankRun run)
    (hend : ∀ c ∈ s.head?, isBlank c = false) :
    collapseBlanks (run ++ s) = ' ' :: collapseBlanks s := by
  have hhead : (collapseBlanks s).head? ≠ some ' ' := by
    intro h
    obtain ⟨c, hc, hblank⟩ := (head?_collapseBlanks s).mp h
    simp [hend c hc] at hblank
  have hspace : isBlank ' ' = true := rfl
  rw [collapseBlanks_run hrun, collapseBlanks_cons, if_pos hspace, if_neg hhead]

/-- A text that starts with a blank starts with a run that is as long as it can be. -/
theorem exists_isBlankRun_append {s : Text} (h : ∃ c ∈ s.head?, isBlank c = true) :
    ∃ run rest, s = run ++ rest ∧ IsBlankRun run ∧ ∀ c ∈ rest.head?, isBlank c = false := by
  obtain ⟨c, hc, hblank⟩ := h
  obtain ⟨cs, rfl⟩ : ∃ cs, s = c :: cs := by
    cases s with
    | nil => simp at hc
    | cons d cs => exact ⟨cs, by simpa using hc⟩
  refine ⟨(c :: cs).takeWhile isBlank, (c :: cs).dropWhile isBlank,
    List.takeWhile_append_dropWhile.symm, ⟨by simp [hblank], fun d hd => ?_⟩, fun d hd => ?_⟩
  · exact List.mem_takeWhile_imp hd
  · have hhead := List.head?_dropWhile_not isBlank (c :: cs)
    rw [Option.mem_def.mp hd] at hhead
    simpa using hhead

/-- Texts that collapse to the same text are respaced. -/
theorem respaced_of_collapseBlanks_eq {s s' : Text} (h : collapseBlanks s = collapseBlanks s') :
    Respaced s s' := by
  -- a run goes as a whole, so what is left of the text is shorter by more than one character
  induction hlen : s.length using Nat.strongRecOn generalizing s s' with
  | ind n ih =>
    subst hlen
    by_cases hblank : ∃ c ∈ s.head?, isBlank c = true
    · have hblank' : ∃ c ∈ s'.head?, isBlank c = true := by
        rw [← head?_collapseBlanks, ← h]
        exact (head?_collapseBlanks s).mpr hblank
      obtain ⟨run, rest, rfl, hrun, hrest⟩ := exists_isBlankRun_append hblank
      obtain ⟨run', rest', rfl, hrun', hrest'⟩ := exists_isBlankRun_append hblank'
      rw [collapseBlanks_run_of_head hrun hrest, collapseBlanks_run_of_head hrun' hrest'] at h
      have hshort : rest.length < (run ++ rest).length := by
        have hpos := List.length_pos_iff.mpr hrun.1
        rw [List.length_append]
        omega
      exact .run hrun hrun' hrest (ih _ hshort (List.cons.inj h).2 rfl)
    · cases s with
      | nil =>
        obtain rfl : s' = [] := collapseBlanks_eq_nil.mp h.symm
        exact .nil
      | cons c cs =>
        have hc : isBlank c = false := by simpa using hblank
        cases s' with
        | nil => exact absurd (collapseBlanks_eq_nil.mp h) (List.cons_ne_nil c cs)
        | cons c' cs' =>
          have hc' : isBlank c' = false := by
            have hhead := mt (head?_collapseBlanks (c :: cs)).mp hblank
            rw [h, head?_collapseBlanks] at hhead
            simpa using hhead
          rw [collapseBlanks_cons, collapseBlanks_cons, hc, hc'] at h
          obtain ⟨rfl, htail⟩ := List.cons.inj h
          exact .char hc (ih _ (Nat.lt_succ_self cs.length) htail rfl)

theorem respaced_iff {s s' : Text} : Respaced s s' ↔ collapseBlanks s = collapseBlanks s' :=
  ⟨Respaced.collapseBlanks_eq, respaced_of_collapseBlanks_eq⟩

instance (s s' : Text) : Decidable (Respaced s s') :=
  decidable_of_iff _ respaced_iff.symm

/-- Blanks at the end are at most one space more. -/
theorem collapseBlanks_append_blanks (s : Text) {blanks : Text}
    (hblanks : ∀ c ∈ blanks, isBlank c = true) :
    collapseBlanks (s ++ blanks) = collapseBlanks s ∨
      collapseBlanks (s ++ blanks) = collapseBlanks s ++ [' '] := by
  induction s with
  | nil =>
    have hnil : collapseBlanks ([] : Text) = [] := rfl
    rw [List.nil_append, hnil, List.nil_append]
    exact collapseBlanks_of_blanks hblanks
  | cons c cs ih =>
    rw [List.cons_append, collapseBlanks_cons, collapseBlanks_cons c cs]
    rcases ih with h | h
    · exact .inl (by rw [h])
    · rw [h]
      cases collapseBlanks cs with
      | nil => cases isBlank c <;> simp
      | cons d ds => cases isBlank c <;> by_cases hd : d = ' ' <;> simp [hd]

end Text

namespace Scan

open Chunk

/-! ## The end of a query -/

/-- What the end of a query adds to the tokens. -/
def endMarks (s : Scan) : List Token :=
  (if s.inSubquery then [.mark .subqueryEnd] else []) ++
    if s.inFilter then [.mark .filterEnd] else []

theorem kept_close_of_not_inSubquery {s : Scan} (hsubquery : s.inSubquery = false)
    (hs : s.inFilter = true → s.lastKind ≠ .filterEnd) :
    s.close.kept = s.kept ++ if s.inFilter then [.mark .filterEnd] else [] := by
  rw [close_of_not_inSubquery hsubquery]
  cases hfilter : s.inFilter with
  | false => simp
  | true =>
    simp only [if_true]
    rw [closeFilter_eq_push (hs hfilter), kept_push]
    rfl

/-- The tokens of a finished scan are those so far and then the marks that close what is open. -/
theorem result_eq_kept_append {s : Scan} (hs : s.inFilter = true → s.lastKind ≠ .filterEnd) :
    s.result = s.kept ++ s.endMarks := by
  show s.close.kept = s.kept ++ s.endMarks
  cases hsubquery : s.inSubquery with
  | false =>
    rw [kept_close_of_not_inSubquery hsubquery hs]
    simp [endMarks, hsubquery]
  | true =>
    -- the end of the subquery is the newest token when the filter ends
    have hmark : ({ s with inSubquery := false }.add (.mark .subqueryEnd)).kept =
        s.kept ++ [.mark .subqueryEnd] := kept_push s [.mark .subqueryEnd]
    rw [close_of_inSubquery hsubquery, kept_close_of_not_inSubquery rfl (by simp [Token.mark]),
      hmark, endMarks, if_pos hsubquery, List.append_assoc]
    rfl

/-- **The end of a query closes what a space before it would close.** -/
theorem result_step_space {s : Scan} (hs : s.inFilter = true → s.lastKind ≠ .filterEnd) :
    (s.step [' ']).result = s.result := by
  rw [step_space]
  by_cases hopen : s.inSubquery = false ∧ s.range = none
  · exact (settled_space hopen.1 hopen.2 hs).kept_close
  · -- a space inside a subquery or a range ends nothing
    have hsettle : (s.addOnce .whitespace).settle = s.addOnce .whitespace := by
      refine if_neg fun h => hopen ?_
      simpa [and_comm] using h.2.2
    have hspace : (s.addOnce .whitespace).lastKind ≠ .filterEnd := by simp [lastKind_addOnce]
    rw [hsettle, result_eq_kept_append fun _ => hspace, result_eq_kept_append hs,
      kept_addOnce_whitespace]
    simp [endMarks]

/-! ## Respaced queries -/

/-- **Blanks carry no meaning but that they separate.** -/
theorem scan_respaced {q q' front back : Text} (hlink : ¬ "://".toList <:+: q)
    (h : Text.Respaced q q') (hfront : ∀ c ∈ front, Text.isBlank c = true)
    (hback : ∀ c ∈ back, Text.isBlank c = true) : scan (front ++ q' ++ back) = scan q := by
  have hstart : Text.IsBlankRun (' ' :: front) := by
    refine ⟨by simp, ?_⟩
    simpa using ⟨rfl, hfront⟩
  have hcollapse : Text.collapseBlanks (' ' :: front ++ q') = Text.collapseBlanks (' ' :: q) := by
    rw [Text.collapseBlanks_run hstart, Text.collapseBlanks_cons, Text.collapseBlanks_cons,
      h.collapseBlanks_eq]
  have hmark : ¬ linkMark <:+: Text.collapseBlanks (' ' :: q) :=
    not_linkMark_collapseBlanks hlink (List.infix_refl _)
  have hbracketed : (ofQuery q).Bracketed := run_invariant bracketed_invariant .init _
  show (ofQuery (front ++ q' ++ back)).result = (ofQuery q).result
  have hquery : Chunk.ofQuery (front ++ q' ++ back) = Chunk.ofQuery q ∨
      Chunk.ofQuery (front ++ q' ++ back) = Chunk.ofQuery q ++ [[' ']] := by
    rw [Chunk.ofQuery, Chunk.ofQuery, ← hcollapse, ← List.cons_append, ← List.cons_append]
    rcases Text.collapseBlanks_append_blanks (' ' :: front ++ q') hback with hend | hend
    · exact .inl (by rw [hend])
    · refine .inr ?_
      rw [hend, hcollapse, split_append_space true (.inr (by simp)) hmark, split_nil]
  rcases hquery with hquery | hquery
  · rw [ofQuery, hquery, ← ofQuery]
  · rw [ofQuery, hquery, run_append, ← ofQuery]
    exact result_step_space hbracketed.ne_filterEnd

/-- An emoticon, a filter on a subquery without an end, and a quote without another one. -/
def tightSample : Text :=
  "a :-) -f:(b +\"c d^2 \"e".toList

def looseSample : Text :=
  "a\t\n:-)\x0B-f:(b\r+\"c  d^2\x0C\"e".toList

theorem scan_respaced_samples :
    (¬ "://".toList <:+: tightSample ∧ Text.Respaced tightSample looseSample) ∧
      scan ("\n ".toList ++ looseSample ++ " \t".toList) = scan tightSample := by
  have hlink : ¬ "://".toList <:+: tightSample := by decide +kernel
  have hspaced : Text.Respaced tightSample looseSample := by decide +kernel
  have hfront : "\n ".toList.all Text.isBlank = true := by decide
  have hback : " \t".toList.all Text.isBlank = true := by decide
  exact ⟨⟨hlink, hspaced⟩,
    scan_respaced hlink hspaced (List.all_eq_true.mp hfront) (List.all_eq_true.mp hback)⟩

end Scan

end SearchLang
