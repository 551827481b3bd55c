import SearchLang.Proofs.Scan.Invariant
import SearchLang.Token.Bracketing

/-!
# The brackets of a scan

The flags of a scan (an open filter, an open subquery, the open range) are the
state of the automaton of `Token.Bracketing`: whatever comes after the tokens so
far, the automaton reads them and then stands where the flags say (`Tracked`).
Some operations drop a token that repeats the newest one, so the flags alone are
not an invariant; `Bracketed` adds what is known of the newest token.
-/

namespace SearchLang.Scan

/-- What is open in a scan. -/
def brackets (s : Scan) : Brackets :=
  ⟨s.inFilter, s.inSubquery, s.range⟩

/-- The kinds of the tokens so far that a result keeps, in the order of the query. -/
def kinds (s : Scan) : List Kind :=
  (s.tokens.reverse.filter isKept).map Token.kind

/-- The automaton accepts the tokens so far and stands where the flags say. -/
def Tracked (s : Scan) : Prop :=
  ∀ rest, Brackets.accepts {} none (s.kinds ++ rest) = s.brackets.accepts s.kinds.getLast? rest

/-- The invariant of a scan. A range is open only inside a filter, and three kinds of tokens
cannot be the newest one, so that none of them is dropped as a repetition when its flag changes. -/
structure Bracketed (s : Scan) : Prop where
  tracked : s.Tracked
  filter_of_range : s.range.isSome = true → s.inFilter = true
  ne_filterEnd : s.inFilter = true → s.lastKind ≠ .filterEnd
  ne_rangeStart : s.range = none → ∀ b, s.lastKind ≠ .rangeStart b
  ne_rangeEnd : ∀ b, s.lastKind ≠ .rangeEnd b

/-! ## The tokens so far -/

/-- A kept token adds its kind. -/
theorem kinds_of_tokens_cons {s s' : Scan} {t : Token} (ht : s'.tokens = t :: s.tokens)
    (hk : isKept t = true) : s'.kinds = s.kinds ++ [t.kind] := by
  simp [kinds, ht, hk]

/-- A dropped token adds nothing. -/
theorem kinds_add_of_not_isKept (s : Scan) {t : Token} (hk : isKept t = false) :
    (s.add t).kinds = s.kinds := by
  simp [kinds, add, hk]

/-- The newest token is the newest kept one, unless it is a space or an ignored one. -/
theorem getLast?_kinds {s : Scan} {k : Kind} (h : s.lastKind = k) (hw : k ≠ .whitespace)
    (hi : k ≠ .ignored) : s.kinds.getLast? = some k := by
  unfold lastKind at h
  split at h
  · rename_i t rest ht
    have hk : isKept t = true := by simp [isKept, h, hw, hi]
    simp [kinds, ht, hk, h]
  · exact absurd h.symm hw

/-! ## Tracking -/

/-- A kept token that the automaton admits takes it on by one state. -/
theorem Tracked.cons {s s' : Scan} {t : Token} (h : s.Tracked) (ht : s'.tokens = t :: s.tokens)
    (hk : isKept t = true) (ho : s'.brackets = s.brackets.next t.kind)
    (ha : ∀ rest, s.brackets.admits s.kinds.getLast? rest t.kind = true) : s'.Tracked := by
  intro rest
  have hkinds : s'.kinds = s.kinds ++ [t.kind] := kinds_of_tokens_cons ht hk
  calc Brackets.accepts {} none (s'.kinds ++ rest)
      = Brackets.accepts {} none (s.kinds ++ (t.kind :: rest)) := by simp [hkinds]
    _ = s.brackets.accepts s.kinds.getLast? (t.kind :: rest) := h _
    _ = s'.brackets.accepts s'.kinds.getLast? rest := by
      simp [Brackets.accepts_cons, ha, ho, hkinds]

/-- Two kept tokens at once, the second of which the first depends on. -/
theorem Tracked.cons_cons {s s' : Scan} {t u : Token} (h : s.Tracked)
    (ht : s'.tokens = u :: t :: s.tokens) (hkt : isKept t = true) (hku : isKept u = true)
    (ho : s'.brackets = (s.brackets.next t.kind).next u.kind)
    (ha : ∀ rest, s.brackets.admits s.kinds.getLast? (u.kind :: rest) t.kind = true)
    (hb : ∀ rest, (s.brackets.next t.kind).admits (some t.kind) rest u.kind = true) :
    s'.Tracked := by
  intro rest
  have hkinds : s'.kinds = s.kinds ++ [t.kind, u.kind] := by simp [kinds, ht, hkt, hku]
  calc Brackets.accepts {} none (s'.kinds ++ rest)
      = Brackets.accepts {} none (s.kinds ++ (t.kind :: u.kind :: rest)) := by simp [hkinds]
    _ = s.brackets.accepts s.kinds.getLast? (t.kind :: u.kind :: rest) := h _
    _ = s'.brackets.accepts s'.kinds.getLast? rest := by
      simp [Brackets.accepts_cons, ha, hb, ho, hkinds]

/-- The same kept tokens and the same flags are tracked alike. -/
theorem Tracked.congr {s s' : Scan} (h : s.Tracked) (hk : s'.kinds = s.kinds)
    (ho : s'.brackets = s.brackets) : s'.Tracked := by
  intro rest
  rw [hk, ho]
  exact h rest

/-! ## Single operations -/

/-- A kind that may stand anywhere and opens and closes nothing. -/
def isNeutral (k : Kind) : Bool :=
  k.isLeaf || match k with
    | .sign _ | .wildcard | .and | .or => true
    | _ => false

theorem admits_of_isNeutral (o : Brackets) (before : Option Kind) (after : List Kind) {k : Kind}
    (h : isNeutral k = true) : o.admits before after k = true := by
  cases k <;> simp_all [isNeutral, Kind.isLeaf, Brackets.admits]

theorem next_of_isNeutral (o : Brackets) {k : Kind} (h : isNeutral k = true) : o.next k = o := by
  cases k <;> simp_all [isNeutral, Kind.isLeaf, Brackets.next]

/-- The flags and the newest token decide all of the invariant but the tracking: a newest token
of any other kind than the three is harmless. -/
theorem Bracketed.of_lastKind {s : Scan} (h : s.Tracked)
    (hr : s.range.isSome = true → s.inFilter = true)
    (hk : ∀ b, s.lastKind ≠ .filterEnd ∧ s.lastKind ≠ .rangeStart b ∧ s.lastKind ≠ .rangeEnd b) :
    s.Bracketed where
  tracked := h
  filter_of_range := hr
  ne_filterEnd := fun _ => (hk .inclusive).1
  ne_rangeStart := fun _ b => (hk b).2.1
  ne_rangeEnd := fun b => (hk b).2.2

theorem Bracketed.init : ({} : Scan).Bracketed :=
  .of_lastKind (fun _ => rfl) (by simp) (by simp [lastKind])

/-- A token that opens and closes nothing may be added anywhere. -/
theorem Bracketed.add_neutral {s : Scan} (h : s.Bracketed) {t : Token}
    (hk : isNeutral t.kind = true) : (s.add t).Bracketed := by
  have hkept : isKept t = true := by
    cases ht : t.kind <;> simp_all [isNeutral, Kind.isLeaf, isKept]
  refine .of_lastKind (h.tracked.cons rfl hkept ?_ fun _ => admits_of_isNeutral _ _ _ hk)
    h.filter_of_range ?_
  · rw [next_of_isNeutral _ hk]; rfl
  · intro b
    rw [kind_add]
    cases ht : t.kind <;> simp_all [isNeutral, Kind.isLeaf]

/-- A token that is not part of the result may be added anywhere. -/
theorem Bracketed.add_dropped {s : Scan} (h : s.Bracketed) {t : Token}
    (hk : t.kind = .whitespace ∨ t.kind = .ignored) : (s.add t).Bracketed := by
  have hkept : isKept t = false := by rcases hk with hk | hk <;> simp [isKept, hk]
  refine .of_lastKind (h.tracked.congr (kinds_add_of_not_isKept s hkept) rfl)
    h.filter_of_range ?_
  intro b
  rw [kind_add]
  rcases hk with hk | hk <;> simp [hk]

/-- A mark that opens and closes nothing may be added anywhere, or be dropped as a repetition. -/
theorem Bracketed.addOnce_neutral {s : Scan} (h : s.Bracketed) {k : Kind}
    (hk : isNeutral k = true) : (s.addOnce k).Bracketed := by
  unfold addOnce
  split
  · exact h
  · exact h.add_neutral hk

/-- A mark that opens and closes nothing may be added where the automaton admits it. -/
theorem Bracketed.addOnce_admitted {s : Scan} (h : s.Bracketed) {k : Kind}
    (hkept : k ≠ .whitespace ∧ k ≠ .ignored)
    (hk : ∀ b, k ≠ .filterEnd ∧ k ≠ .rangeStart b ∧ k ≠ .rangeEnd b)
    (ho : s.brackets.next k = s.brackets)
    (ha : ∀ rest, s.brackets.admits s.kinds.getLast? rest k = true) :
    (s.addOnce k).Bracketed := by
  unfold addOnce
  split
  · exact h
  · exact .of_lastKind (h.tracked.cons rfl (by simp [isKept, hkept]) ho.symm ha)
      h.filter_of_range hk

theorem Bracketed.addWord {s : Scan} (h : s.Bracketed) (w : Text) : (s.addWord w).Bracketed := by
  rcases s.addWord_cases with hw | ⟨before, rest, ht, -, hw⟩
  · rw [hw]
    exact h.add_neutral rfl
  · -- the word it is glued onto is replaced by a word, so no bracket is lost
    rw [hw]
    refine .of_lastKind (h.tracked.congr ?_ rfl) h.filter_of_range (by simp [lastKind])
    have hkept (v : Text) : isKept (.ofText .word v) = true := rfl
    simp [kinds, ht, hkept]

/-- Outside subqueries an open filter may be closed. -/
theorem Tracked.closeFilter {s : Scan} (h : s.Tracked) (hf : s.inFilter = true)
    (hq : s.inSubquery = false) (hl : s.lastKind ≠ .filterEnd) : s.closeFilter.Tracked := by
  have hclose : s.closeFilter = { s with inFilter := false }.add (.mark .filterEnd) :=
    addOnce_of_ne hl
  rw [hclose]
  exact h.cons rfl rfl rfl fun _ => by simp [brackets, Brackets.admits, hf, hq]

theorem Bracketed.closeFilter {s : Scan} (h : s.Bracketed) (hf : s.inFilter = true)
    (hr : s.range = none) (hq : s.inSubquery = false) : s.closeFilter.Bracketed where
  tracked := h.tracked.closeFilter hf hq (h.ne_filterEnd hf)
  filter_of_range := by simp [hr]
  ne_filterEnd := by simp
  ne_rangeStart := by simp [lastKind_closeFilter]
  ne_rangeEnd := by simp [lastKind_closeFilter]

/-! ## Symbols -/

theorem Bracketed.addModifier {s : Scan} (h : s.Bracketed) (m : Modifier) :
    (s.addModifier m).Bracketed := by
  unfold Scan.addModifier
  split
  · exact h
  · rename_i hout
    obtain ⟨_, hr⟩ := not_or.mp hout
    have hnone : s.range = none := by simpa using hr
    split
    · rename_i hf
      have hclosed := h.closeFilter hf.1 hnone (by simpa using hf.2)
      refine hclosed.addOnce_admitted ?_ ?_ ?_ ?_ <;>
        cases m <;> simp [Modifier.kind, Brackets.next, Brackets.admits, brackets, hnone]
    · rename_i hf
      have hfree : s.inFilter = false ∨ s.inSubquery = true := by
        cases hi : s.inFilter <;> simp_all
      refine h.addOnce_admitted ?_ ?_ ?_ ?_ <;>
        cases m <;> simp [Modifier.kind, Brackets.next, Brackets.admits, brackets, hnone, hfree]

theorem Bracketed.openRange {s : Scan} (h : s.Bracketed) (b : Bracket) :
    (s.openRange b).Bracketed := by
  unfold Scan.openRange
  split
  · rename_i hopen
    obtain ⟨hf, hr⟩ := hopen
    -- the start is a new token, as a newest start would mean that a range is open
    have hstart : ({ s with range := some b } : Scan).addOnce (.rangeStart b) =
        { s with range := some b }.add (.mark (.rangeStart b)) :=
      addOnce_of_ne (h.ne_rangeStart hr b)
    rw [hstart]
    refine ⟨h.tracked.cons rfl rfl rfl ?_, fun _ => hf, ?_, ?_, ?_⟩
    · intro rest
      simp [brackets, Brackets.admits, hf, hr]
    · simp
    · simp [Scan.add]
    · simp
  · exact h

theorem Bracketed.closeRange {s : Scan} (h : s.Bracketed) : s.closeRange.Bracketed := by
  unfold Scan.closeRange
  split
  · exact h
  · rename_i b hb
    have hf : s.inFilter = true := h.filter_of_range (by simp [hb])
    rw [addOnce_of_ne (h.ne_rangeEnd b)]
    -- the two ends come together, so that the filter end directly follows the range end
    have hclose : ({ s.add (.mark (.rangeEnd b)) with range := none } : Scan).closeFilter =
        { s with
          tokens := .mark .filterEnd :: .mark (.rangeEnd b) :: s.tokens
          inFilter := false, range := none } :=
      addOnce_of_ne (by simp [lastKind, Scan.add])
    rw [hclose]
    refine ⟨h.tracked.cons_cons rfl rfl rfl rfl ?_ ?_, by simp, by simp, ?_, ?_⟩
    · intro rest
      simp [brackets, Brackets.admits, hb]
    · intro rest
      simp [brackets, Brackets.admits, Brackets.next, hf, Kind.isRangeEnd]
    · simp [lastKind]
    · simp [lastKind]

theorem Bracketed.openSubquery {s : Scan} (h : s.Bracketed) : s.openSubquery.Bracketed := by
  unfold Scan.openSubquery
  split
  · exact h
  · rename_i hopen
    obtain ⟨hq, hr⟩ := not_or.mp hopen
    refine .of_lastKind (h.tracked.cons rfl rfl rfl ?_) h.filter_of_range (by simp)
    intro rest
    simp_all [brackets, Brackets.admits]

theorem Bracketed.closeSubquery {s : Scan} (h : s.Bracketed) : s.closeSubquery.Bracketed := by
  unfold Scan.closeSubquery
  split
  · exact h
  · rename_i hopen
    obtain ⟨hq, hr⟩ := not_or.mp hopen
    have hnone : s.range = none := by simpa using hr
    have hend : ({ s with inSubquery := false }.add (.mark .subqueryEnd) : Scan).Bracketed := by
      refine .of_lastKind (h.tracked.cons rfl rfl rfl ?_) h.filter_of_range (by simp)
      intro rest
      simp_all [brackets, Brackets.admits]
    simp only
    split
    · rename_i hf
      exact hend.closeFilter hf hnone rfl
    · exact hend

theorem Bracketed.symbol {s : Scan} (h : s.Bracketed) (symbol : Symbol) :
    (s.symbol symbol).Bracketed := by
  cases symbol with
  | sign sign => exact h.addOnce_neutral rfl
  | greater | less =>
    simp only [Scan.symbol]
    split
    · rename_i hf
      exact h.addOnce_admitted (by simp) (by simp) rfl fun _ => hf
    · exact h
  | equals =>
    simp only [Scan.symbol]
    split
    · rename_i hl
      refine h.addOnce_admitted (by simp) (by simp) rfl fun rest => ?_
      rcases hl with hl | hl <;>
        simp [Brackets.admits, getLast?_kinds hl (by simp) (by simp)]
    · exact h
  | modifier m => exact h.addModifier m
  | rangeStart b => exact h.openRange b
  | rangeEnd => exact h.closeRange
  | subqueryStart => exact h.openSubquery
  | subqueryEnd => exact h.closeSubquery
  | wildcard | or | and => exact h.addOnce_neutral rfl
  | upTo =>
    simp only [Scan.symbol]
    split
    · rename_i hr
      exact h.addOnce_admitted (by simp) (by simp) rfl fun _ => hr
    · exact h
  | letter c => exact h.addWord [c]
  | stray c => exact h.add_dropped (.inr rfl)

/-! ## Whole scans -/

theorem bracketed_invariant : Invariant Bracketed where
  space := by
    intro s h
    unfold addOnce
    split
    · exact h
    · exact h.add_dropped (.inl rfl)
  value := fun t ht h => h.add_neutral (by simp [isNeutral, ht])
  word := fun w h => h.addWord w
  ignored := fun w h => h.add_dropped (.inr rfl)
  symbol := fun symbol h => h.symbol symbol
  openFilter := by
    intro s field hs h
    simp only [atClauseStart, Bool.and_eq_true, Bool.not_eq_true'] at hs
    refine .of_lastKind (h.tracked.cons rfl rfl rfl ?_) (fun _ => rfl) (by simp)
    intro rest
    simp [brackets, Brackets.admits, hs]
  closeFilter := fun _ hf hr hq h => h.closeFilter hf hr hq

/-- A tracked scan with nothing open but a range is accepted. -/
theorem Tracked.accepts_kinds {s : Scan} (h : s.Tracked) (hf : s.inFilter = false)
    (hq : s.inSubquery = false) : Brackets.accepts {} none s.kinds = true := by
  have hend := h []
  rw [List.append_nil] at hend
  simp [hend, brackets, hf, hq]

theorem close_of_not_inSubquery {s : Scan} (hq : s.inSubquery = false) :
    s.close = if s.inFilter then s.closeFilter else s := by
  simp [close, hq]

theorem close_of_inSubquery {s : Scan} (hq : s.inSubquery = true) :
    s.close = ({ s with inSubquery := false }.add (.mark .subqueryEnd)).close := by
  simp [close, hq, Scan.add]

/-- Closing what is open leaves tokens that the automaton accepts as a whole. -/
theorem Bracketed.accepts_close {s : Scan} (h : s.Bracketed) :
    Brackets.accepts {} none s.close.kinds = true := by
  cases hq : s.inSubquery <;> cases hf : s.inFilter
  · rw [close_of_not_inSubquery hq, hf]
    exact h.tracked.accepts_kinds hf hq
  · rw [close_of_not_inSubquery hq, hf]
    have hclosed := h.tracked.closeFilter hf hq (h.ne_filterEnd hf)
    exact hclosed.accepts_kinds (by simp) (by simp [hq])
  · -- without a filter no range is open
    have hr : s.range = none := by
      cases hr : s.range with
      | none => rfl
      | some b => exact absurd (h.filter_of_range (by simp [hr])) (by simp [hf])
    rw [close_of_inSubquery hq, close_of_not_inSubquery rfl]
    simp only [Scan.add, hf, Bool.false_eq_true, if_false]
    refine Tracked.accepts_kinds (h.tracked.cons rfl rfl (by simp [brackets, Brackets.next, hf]) ?_)
      rfl rfl
    intro rest
    simp [brackets, Brackets.admits, hq, hr]
  · -- a range that the query leaves open stays open, and the filter end is the last token
    have hkinds : s.close.kinds = s.kinds ++ [.subqueryEnd, .filterEnd] := by
      rw [close_of_inSubquery hq, close_of_not_inSubquery rfl]
      simp only [Scan.add, hf, if_true]
      rw [Scan.closeFilter, addOnce_of_ne (by simp [lastKind])]
      have hkept (k : Kind) (hk : k = .subqueryEnd ∨ k = .filterEnd) :
          isKept (.mark k) = true := by
        rcases hk with rfl | rfl <;> rfl
      simp [kinds, Scan.add, hkept]
    rw [hkinds, h.tracked]
    simp [brackets, Brackets.accepts_cons, Brackets.admits, Brackets.next, hq, hf]

end SearchLang.Scan

namespace SearchLang

/-- **Every scan is bracketed**: filters, subqueries and ranges open and close in turn, and each
token that depends on them stands where it may. -/
theorem accepts_scan (q : Text) :
    Brackets.accepts {} none ((scan q).map Token.kind) = true :=
  (Scan.run_invariant Scan.bracketed_invariant Scan.Bracketed.init _).accepts_close

end SearchLang
