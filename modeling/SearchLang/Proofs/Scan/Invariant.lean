import SearchLang.Token.Scan

/-!
# Invariants of a scan

A scan takes few kinds of steps: it notes a space, adds a value, obeys a symbol,
opens a filter, or adds what is left as a word. What each of these keeps, a chunk
keeps (`chunk_invariant`), although a chunk with two dots in it is scanned in two
halves; and what a chunk keeps, a whole query keeps (`run_invariant`).
-/

namespace SearchLang.Scan

/-! ## The parts of a chunk -/

/-- The sign of a chunk has the effect of the symbol, or none. -/
theorem takeSign_fst (s : Scan) (value : Text) :
    (s.takeSign value).1 = s ∨ ∃ sign, (s.takeSign value).1 = s.symbol (.sign sign) := by
  unfold takeSign
  split
  · exact .inr ⟨.required, rfl⟩
  · exact .inr ⟨.prohibited, rfl⟩
  · exact .inl rfl

/-- A property of scans that every way to go on with a scan keeps. -/
structure Invariant (P : Scan → Prop) : Prop where
  space : ∀ {s}, P s → P (s.addOnce .whitespace)
  value : ∀ {s} (t : Token), t.kind.isLeaf = true → P s → P (s.add t)
  word : ∀ {s} (w : Text), P s → P (s.addWord w)
  ignored : ∀ {s} (w : Text), P s → P (s.add (.ofText .ignored w))
  symbol : ∀ {s} (symbol : Symbol), P s → P (s.symbol symbol)
  openFilter : ∀ {s} (field : Text), s.atClauseStart = true → P s →
    P ({ s with inFilter := true }.add (.ofText .filterStart field))
  closeFilter : ∀ {s}, s.lastKind = .whitespace → s.inFilter = true → s.range = none →
    s.inSubquery = false → P s → P s.closeFilter

variable {P : Scan → Prop}

theorem takeSign_invariant (hP : Invariant P) {s : Scan} (hs : P s) (value : Text) :
    P (s.takeSign value).1 := by
  rcases takeSign_fst s value with h | ⟨sign, h⟩
  · rw [h]; exact hs
  · rw [h]; exact hP.symbol _ hs

theorem addPlain_invariant (hP : Invariant P) {s : Scan} (hs : P s) (value : Text) :
    P (s.addPlain value) := by
  unfold addPlain
  simp only
  split
  · exact hP.ignored _ hs
  · split
    · exact hP.symbol .wildcard (hP.word _ hs)
    · exact hP.word _ hs

/-- A chunk keeps what its parts keep. The two halves of a chunk with dots are chunks. -/
theorem chunk_invariant (hP : Invariant P) {s : Scan} (hs : P s) (value : Text) :
    P (s.chunk value) := by
  fun_induction chunk s value with
  | case1 s => exact hP.space hs
  | case2 s value _ n _ => exact hP.value _ rfl hs
  | case3 s value _ _ symbol _ => exact hP.symbol symbol hs
  | case4 s value _ _ _ unsigned form _ => exact hP.value _ rfl (takeSign_invariant hP hs value)
  -- a chunk is a field only where a clause starts
  | case5 s value _ _ _ unsigned _ hfield =>
    simp only [Bool.and_eq_true] at hfield
    exact hP.openFilter _ hfield.1 (takeSign_invariant hP hs value)
  | case6 s value _ _ _ unsigned _ _ _ => exact hP.value _ rfl (takeSign_invariant hP hs value)
  -- the half before the dots, the keyword between, the half after them
  | case7 s value _ _ _ unsigned _ _ _ lower upper _ _ ihLower ihUpper =>
    exact ihUpper (hP.symbol .upTo (ihLower (takeSign_invariant hP hs value)))
  | case8 s value _ _ _ unsigned _ _ _ _ form _ =>
    exact hP.value _ rfl (takeSign_invariant hP hs value)
  | case9 s value _ _ _ unsigned _ _ _ _ _ =>
    exact addPlain_invariant hP (takeSign_invariant hP hs value) _

/-! ## Runs -/

theorem settle_invariant (hP : Invariant P) {s : Scan} (hs : P s) : P s.settle := by
  unfold settle
  split
  · rename_i h
    obtain ⟨hl, hf, hr, hq⟩ := h
    exact hP.closeFilter hl hf hr (by simpa using hq) hs
  · exact hs

theorem step_invariant (hP : Invariant P) {s : Scan} (hs : P s) (piece : Text) :
    P (s.step piece) :=
  settle_invariant hP (chunk_invariant hP hs _)

theorem run_invariant (hP : Invariant P) {s : Scan} (hs : P s) (pieces : List Text) :
    P (s.run pieces) := by
  induction pieces generalizing s with
  | nil => exact hs
  | cons piece rest ih => exact ih (step_invariant hP hs piece)

end SearchLang.Scan
