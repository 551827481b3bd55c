import SearchLang.Proofs.Scan.Restart

/-!
# How many tokens a query has

Some marks bring two tokens: a bracket or a modifier may end a filter as well. The
end of the filter has been paid for by its name, which is longer than its one token:
counting an open filter as a token ahead of its end (`weight`), no chunk brings more
than it has characters (`weight_chunk_le`). Only the end of a subquery that a query
leaves open is a token for nothing.
-/

namespace SearchLang

/-! ## Lengths -/

theorem Text.length_collapseBlanks_le (s : Text) : (collapseBlanks s).length ≤ s.length := by
  fun_induction collapseBlanks s with
  | case1 | case2 => exact Nat.le_refl _
  | case3 c _ d ds _ ih => exact Nat.le_succ_of_le ih
  | case4 c _ d ds _ ih => exact Nat.succ_le_succ ih
  | case5 c cs _ ih => exact Nat.succ_le_succ ih

theorem Text.length_le_byteLength (s : Text) : s.length ≤ byteLength s := by
  induction s with
  | nil => exact Nat.le_refl 0
  | cons c cs ih =>
    have hsize := c.utf8Size_pos
    simp only [byteLength, List.length_cons]
    omega

/-- Trimming shortens a text that ends in the class. -/
theorem Text.length_trim_lt {p : Char → Bool} {s : Text} {c : Char} (hlast : s.getLast? = some c)
    (hc : p c = true) : (trim p s).length < s.length := by
  have hinfix := infix_trim p s
  refine Nat.lt_of_le_of_ne hinfix.length_le fun hlength => ?_
  have heq : trim p s = s := hinfix.eq_of_length hlength
  have hkept := getLast?_trimRight p (trimLeft p s) c
  rw [← trim, heq] at hkept
  simp [hkept hlast] at hc

/-- A field has a name and a colon. -/
theorem Pattern.two_le_of_isField {s : Text} (h : isField s = true) : 2 ≤ s.length := by
  rw [isField, beq_iff_eq] at h
  unfold fieldLength? at h
  grind

namespace Scan

/-- The kept tokens so far, and one more for the end that an open filter will get. -/
def weight (s : Scan) : Nat :=
  s.tokens.countP isKept + s.inFilter.toNat

variable (s : Scan)

/-! ## Single operations -/

theorem weight_add_le (t : Token) : (s.add t).weight ≤ s.weight + 1 := by
  simp only [weight, add, List.countP_cons]
  split <;> omega

theorem weight_add_of_not_isKept {t : Token} (h : isKept t = false) :
    (s.add t).weight = s.weight := by
  simp [weight, add, h]

theorem weight_addOnce_le (k : Kind) : (s.addOnce k).weight ≤ s.weight + 1 := by
  unfold addOnce
  split
  · omega
  · exact weight_add_le s _

theorem weight_addOnce_whitespace : (s.addOnce .whitespace).weight = s.weight := by
  unfold addOnce
  split
  · rfl
  · exact weight_add_of_not_isKept s rfl

/-- The end of an open filter has been counted before. -/
theorem weight_closeFilter_le (h : s.inFilter = true) : s.closeFilter.weight ≤ s.weight := by
  have hadd := weight_addOnce_le { s with inFilter := false } .filterEnd
  have hopen : s.weight = ({ s with inFilter := false } : Scan).weight + 1 := by simp [weight, h]
  rw [hopen]
  exact hadd

theorem weight_addWord_le (value : Text) : (s.addWord value).weight ≤ s.weight + 1 := by
  rcases s.addWord_cases with h | ⟨before, rest, htokens, -, h⟩
  · rw [h]
    exact weight_add_le s _
  · -- a glued word takes the place of the word before it
    have hkept (w : Text) : isKept (.ofText .word w) = true := rfl
    have hsame : (s.addWord value).weight = s.weight := by
      simp only [h, weight, htokens, List.countP_cons, hkept]
    omega

theorem weight_addModifier_le (m : Modifier) : (s.addModifier m).weight ≤ s.weight + 1 := by
  unfold addModifier
  split
  · omega
  · split
    · rename_i hopen
      exact (weight_addOnce_le _ _).trans (Nat.add_le_add_right (weight_closeFilter_le s hopen.1) 1)
    · exact weight_addOnce_le s _

theorem weight_closeSubquery_le : s.closeSubquery.weight ≤ s.weight + 1 := by
  unfold closeSubquery
  split
  · omega
  · have hend : ({ s with inSubquery := false }.add (.mark .subqueryEnd)).weight ≤ s.weight + 1 :=
      weight_add_le { s with inSubquery := false } _
    simp only
    split
    · rename_i hopen
      exact (weight_closeFilter_le _ hopen).trans hend
    · exact hend

/-- The two ends of a range and its filter: a range is open in filters only. -/
theorem weight_closeRange_le (h : s.range.isSome = true → s.inFilter = true) :
    s.closeRange.weight ≤ s.weight + 1 := by
  unfold closeRange
  split
  · omega
  · rename_i b hrange
    have hopen : ({ s.addOnce (.rangeEnd b) with range := none } : Scan).inFilter = true := by
      simp [h, hrange]
    exact (weight_closeFilter_le _ hopen).trans (weight_addOnce_le s _)

theorem weight_symbol_le (h : s.range.isSome = true → s.inFilter = true) (symbol : Symbol) :
    (s.symbol symbol).weight ≤ s.weight + 1 := by
  cases symbol with
  | sign | wildcard | or | and => exact weight_addOnce_le s _
  | greater | less | equals | upTo =>
    simp only [Scan.symbol]
    split
    · exact weight_addOnce_le s _
    · omega
  | modifier m => exact weight_addModifier_le s m
  | rangeStart b =>
    simp only [Scan.symbol, openRange]
    split
    · exact weight_addOnce_le { s with range := some b } _
    · omega
  | rangeEnd => exact weight_closeRange_le s h
  | subqueryStart =>
    simp only [Scan.symbol, openSubquery]
    split
    · omega
    · exact weight_add_le { s with inSubquery := true } _
  | subqueryEnd => exact weight_closeSubquery_le s
  | letter c => exact weight_addWord_le s _
  | stray c => exact weight_add_le s _

/-! ## Chunks -/

/-- A filter is counted with its name and its end. -/
theorem weight_openFilter_le (t : Token) :
    ({ s with inFilter := true }.add t).weight ≤ s.weight + 2 := by
  have hadd := weight_add_le { s with inFilter := true } t
  have hopen : ({ s with inFilter := true } : Scan).weight ≤ s.weight + 1 := by
    simp only [weight, Bool.toNat_true]
    omega
  omega

/-- A sign brings a token for its character. -/
theorem weight_takeSign_le (value : Text) :
    (s.takeSign value).1.weight + (s.takeSign value).2.length ≤ s.weight + value.length := by
  unfold takeSign
  split
  · have hsign := weight_addOnce_le s (.sign .required)
    simp only [List.length_cons]
    omega
  · have hsign := weight_addOnce_le s (.sign .prohibited)
    simp only [List.length_cons]
    omega
  · exact Nat.le_refl _

/-- A word is shorter than its chunk by the mark of its wildcard. -/
theorem weight_addPlain_le (value : Text) :
    (s.addPlain value).weight ≤ s.weight + value.length := by
  unfold addPlain
  simp only
  split
  · rw [weight_add_of_not_isKept s rfl]
    omega
  · rename_i hword
    have hpos := List.length_pos_iff.mpr (not_or.mp hword).1
    have hadd := weight_addWord_le s (Text.trim Pattern.isWordTrimmed value)
    split
    · rename_i hwildcard
      have hlt := Text.length_trim_lt (p := Pattern.isWordTrimmed) hwildcard (by decide)
      have honce := weight_addOnce_le (s.addWord (Text.trim Pattern.isWordTrimmed value)) .wildcard
      omega
    · have hle := (Text.infix_trim Pattern.isWordTrimmed value).length_le
      omega

/-- A token for what is left of a chunk behind its sign, which is not empty. -/
theorem weight_takeSign_add_le (value : Text) (t : Token) (hne : (s.takeSign value).2 ≠ []) :
    ((s.takeSign value).1.add t).weight ≤ s.weight + value.length := by
  have hsign := weight_takeSign_le s value
  have hadd := weight_add_le (s.takeSign value).1 t
  have hpos := List.length_pos_iff.mpr hne
  omega

/-- **No chunk brings more than it has characters**, an open filter being counted as a token. -/
theorem weight_chunk_le {s : Scan} (hs : s.Bracketed) (value : Text) :
    (s.chunk value).weight ≤ s.weight + value.length := by
  fun_induction chunk s value with
  | case1 s => exact Nat.le_of_eq (weight_addOnce_whitespace s)
  | case2 s value hne n _ =>
    have hpos := List.length_pos_iff.mpr hne
    exact (weight_add_le s _).trans (by omega)
  | case3 s value hne _ symbol _ =>
    have hpos := List.length_pos_iff.mpr hne
    exact (weight_symbol_le s hs.filter_of_range symbol).trans (by omega)
  | case4 s value _ _ _ unsigned form hform =>
    refine weight_takeSign_add_le s value _ fun hnil => ?_
    rw [show unsigned.2 = [] from hnil] at hform
    cases hform
  | case5 s value _ _ _ unsigned _ hfield =>
    -- the name of the field pays for its own token and for the end of the filter
    have hsign := weight_takeSign_le s value
    have hopen := weight_openFilter_le (s.takeSign value).1
      (.ofText .filterStart (Text.trimRight (· == ':') unsigned.2))
    have htwo := Pattern.two_le_of_isField (Bool.and_eq_true_iff.mp hfield).2
    exact hopen.trans ((Nat.add_le_add_left htwo _).trans hsign)
  | case6 s value _ _ _ unsigned _ _ hphrase =>
    refine weight_takeSign_add_le s value _ fun hnil => ?_
    rw [show unsigned.2 = [] from hnil] at hphrase
    cases hphrase
  | case7 s value _ _ _ unsigned _ _ _ lower upper hdots _ ihLower ihUpper =>
    -- the dots pay for the keyword between the two halves
    have hsigned : unsigned.1.Bracketed := takeSign_invariant bracketed_invariant hs value
    have hmiddle : (unsigned.1.chunk lower).Bracketed :=
      chunk_invariant bracketed_invariant hsigned _
    have hlower : (unsigned.1.chunk lower).weight ≤ unsigned.1.weight + lower.length :=
      ihLower hsigned
    have hupTo := weight_symbol_le _ hmiddle.filter_of_range .upTo
    have hupper := ihUpper (hmiddle.symbol .upTo)
    have hsign : unsigned.1.weight + unsigned.2.length ≤ s.weight + value.length :=
      weight_takeSign_le s value
    have hlength := congrArg List.length (Text.append_of_splitAtDots hdots)
    simp only [List.length_append, List.length_cons] at hlength
    omega
  | case8 s value _ _ _ unsigned _ _ _ _ form hform =>
    refine weight_takeSign_add_le s value _ fun hnil => ?_
    rw [show unsigned.2 = [] from hnil] at hform
    cases hform
  | case9 s value _ _ _ unsigned _ _ _ _ _ =>
    exact (weight_addPlain_le unsigned.1 unsigned.2).trans (weight_takeSign_le s value)

/-! ## Runs -/

theorem weight_settle_le : s.settle.weight ≤ s.weight := by
  unfold settle
  split
  · rename_i hopen
    exact weight_closeFilter_le s hopen.2.1
  · exact Nat.le_refl _

theorem weight_run_le {s : Scan} (hs : s.Bracketed) (pieces : List Text) :
    (s.run pieces).weight ≤ s.weight + pieces.flatten.length := by
  induction pieces generalizing s with
  | nil => exact Nat.le_refl _
  | cons piece rest ih =>
    have hchunk := weight_chunk_le hs (Text.trim Text.isPadding piece)
    have htrim := (Text.infix_trim Text.isPadding piece).length_le
    have hsettle := weight_settle_le (s.chunk (Text.trim Text.isPadding piece))
    have hrest := ih (step_invariant bracketed_invariant hs piece)
    rw [step] at hrest
    show ((s.step piece).run rest).weight ≤ _
    rw [step, List.flatten_cons, List.length_append]
    omega

/-- The space at the front of a query is no token. -/
theorem weight_ofQuery_le (q : Text) : (ofQuery q).weight ≤ q.length := by
  obtain ⟨pieces, hpieces⟩ := exists_ofQuery_cons q
  have hlength : pieces.flatten.length ≤ q.length := by
    have hflat : (Chunk.ofQuery q).flatten = Text.collapseBlanks (' ' :: q) :=
      Chunk.flatten_split true _
    have hle := Text.length_collapseBlanks_le (' ' :: q)
    rw [← hflat, hpieces] at hle
    simpa using hle
  have hfirst : ({} : Scan).step [' '] = {} := by
    rw [step_space]
    rfl
  have hrun := weight_run_le .init pieces
  rw [ofQuery, hpieces]
  show ((({} : Scan).step [' ']).run pieces).weight ≤ _
  rw [hfirst]
  simp only [weight, List.countP_nil, Bool.toNat_false] at hrun ⊢
  omega

theorem weight_close_le : s.close.weight ≤ s.weight + s.inSubquery.toNat := by
  have hfilter (s : Scan) : (if s.inFilter then s.closeFilter else s).weight ≤ s.weight := by
    split
    · rename_i hopen
      exact weight_closeFilter_le s hopen
    · exact Nat.le_refl _
  cases hsubquery : s.inSubquery with
  | false =>
    rw [close_of_not_inSubquery hsubquery]
    exact hfilter s
  | true =>
    rw [close_of_inSubquery hsubquery, close_of_not_inSubquery rfl]
    exact (hfilter _).trans (weight_add_le { s with inSubquery := false } _)

/-- What the end of a query closes has been counted, but for a subquery. -/
theorem length_result_le : s.result.length ≤ s.weight + s.inSubquery.toNat := by
  have hresult : s.result.length = s.close.tokens.countP isKept := by
    rw [result, ← List.countP_eq_length_filter, List.countP_reverse]
  rw [hresult]
  exact (Nat.le_add_right _ _).trans (weight_close_le s)

end Scan

/-- Scanning gives at most as many tokens as there are characters, and one more for a subquery that
is left open. -/
theorem length_scan_le (q : Text) :
    (scan q).length ≤ q.length + (Scan.ofQuery q).inSubquery.toNat :=
  (Scan.length_result_le _).trans (Nat.add_le_add_right (Scan.weight_ofQuery_le q) _)

/-- **A scan does not blow its text up**: it has at most one token more than the text has
bytes. -/
theorem length_scan_le_byteLength (q : Text) : (scan q).length ≤ Text.byteLength q + 1 := by
  have hscan := length_scan_le q
  have hbytes := Text.length_le_byteLength q
  have hsubquery : (Scan.ofQuery q).inSubquery.toNat ≤ 1 := Bool.toNat_le _
  omega

/-- The bound is met by a filter and a subquery that are both left open. -/
example : (scan "f:(".toList).length = Text.byteLength "f:(".toList + 1 := by
  decide +kernel

end SearchLang
