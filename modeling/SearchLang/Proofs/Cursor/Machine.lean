import SearchLang.Proofs.Cursor.Range
import SearchLang.Query.Machine

/-!
# The loops of parsing end

Every turn of a loop that does not leave the loop moves the cursor past a token. The
loops that call nothing are those of the readers, turn by turn. For the two that call
each other, what a turn does is said once (`Machine.Allows`): it goes on, leaves a
filter, starts a subquery or ends one. From it follow what a run keeps, the nodes that
are still to come (`Machine.answer`) among it, and what it lowers
(`Machine.potential`).
-/

namespace SearchLang

open Query

/-! ## Loops -/

namespace Loop

variable {σ α : Type} {turn : σ → Turn σ α}

/-- A loop ends with the answer of its first state, if each turn keeps the answer and lowers a
potential. -/
theorem exists_ends (keeps : σ → Prop) (potential : σ → Nat) (answer : σ → α)
    (hturn : ∀ s, keeps s → (turn s = .leave (answer s) ∧ 0 < potential s) ∨
      ∃ s', turn s = .again s' ∧ keeps s' ∧ answer s' = answer s ∧ potential s' < potential s)
    (s : σ) (hs : keeps s) : ∃ n ≤ potential s, Ends turn s n (answer s) := by
  induction hk : potential s using Nat.strong_induction_on generalizing s with
  | _ k ih =>
    subst hk
    obtain ⟨hleave, hpos⟩ | ⟨s', hagain, hs', hanswer, hlt⟩ := hturn s hs
    · exact ⟨1, hpos, .leave hleave⟩
    · obtain ⟨n, hn, hends⟩ := ih _ hlt s' hs' rfl
      rw [hanswer] at hends
      exact ⟨n + 1, by omega, .again hagain hends⟩

end Loop

namespace Cursor

open Loop

variable {c c' : Cursor} {ts us : List Token} {t : Token}

/-! ## Passing tokens -/

/-- One cursor comes out of another by moving past one token or more. -/
def Takes (c c' : Cursor) : Prop :=
  ∃ t ts, c.Passes (t :: ts) c'

theorem Walk.exists_passes (h : Walk c c') : ∃ ts, c.Passes ts c' := by
  induction h with
  | stay c => exact ⟨[], .nil c⟩
  | step hnext _ ih =>
    obtain ⟨ts, hts⟩ := ih
    exact ⟨_, .cons hnext hts⟩

theorem Walk.takes (h : Walk c.bump.2 c') (hnext : c.lookahead = some t) : Takes c c' := by
  rw [bump_of_some hnext] at h
  obtain ⟨ts, hts⟩ := h.exists_passes
  exact ⟨t, ts, .cons hnext hts⟩

theorem Fresh.of_bump (h : Fresh c ts) (hnext : c.lookahead = some t) :
    Fresh c.bump.2 ts.tail := by
  rw [bump_of_some hnext]
  exact h.moveNext

theorem Walk.of_next (h : Walk c.bump.2 c') (hnext : c.lookahead = some t) : Walk c c' := by
  rw [bump_of_some hnext] at h
  exact .step hnext h

theorem Walk.remaining_le (h : Walk c c') : c'.remaining ≤ c.remaining := by
  induction h with
  | stay c => exact Nat.le_refl _
  | @step c c' t hnext _ ih => exact Nat.le_trans ih (remaining_moveNext_le c)

theorem Walk.exists_fresh (h : Walk c c') (hc : Fresh c ts) : ∃ rest, Fresh c' rest := by
  induction h generalizing ts with
  | stay c => exact ⟨ts, hc⟩
  | step _ _ ih => exact ih hc.moveNext

theorem Passes.walk (h : c.Passes ts c') : Walk c c' := by
  induction h with
  | nil c => exact .stay c
  | cons hnext _ ih => exact .step hnext ih

theorem Takes.remaining_lt (h : Takes c c') : c'.remaining < c.remaining := by
  obtain ⟨t, ts, hpasses⟩ := h
  cases hpasses with
  | cons hnext hrest =>
    exact Nat.lt_of_le_of_lt hrest.walk.remaining_le (remaining_moveNext_lt hnext)

/-- The tokens that a cursor moves past are the next ones, so that it has moved past all of them
when none is next. -/
theorem Passes.eq_of_lookahead (h : c.Passes us c') (hc : c.Before ts)
    (hend : c'.lookahead = none) : us = ts := by
  induction h generalizing ts with
  | nil c =>
    rw [hc.lookahead, List.head?_eq_none_iff] at hend
    exact hend.symm
  | @cons c c' t us hnext _ ih =>
    obtain ⟨ts, rfl⟩ := List.head?_eq_some_iff.mp (hc.lookahead.symm.trans hnext)
    rw [ih hc.moveNext hend, List.tail_cons]

/-! ## Loops that call nothing -/

/-- A loop ends with what a reader gives, and each turn in it moves past a token. -/
structure Consumes {σ α : Type} (turn : σ → Turn σ α) (cursor : σ → Cursor) (reader : σ → α) :
    Prop where
  ends : ∀ s, ∃ n, Ends turn s n (reader s)
  takes : ∀ s s', turn s = .again s' → Takes (cursor s) (cursor s')

theorem consumes_skipTurn (p : Token → Bool) : Consumes (skipTurn p) id (skipWhile p) where
  ends c := by
    fun_induction skipWhile p c with
    | case1 c t hnext hp ih =>
      obtain ⟨n, hn⟩ := ih
      exact ⟨n + 1, .again (by simp [skipTurn, hnext, hp, bump_of_some hnext]) hn⟩
    | case2 c t hnext hp => exact ⟨1, .leave (by simp [skipTurn, hnext, hp])⟩
    | case3 c hnext => exact ⟨1, .leave (by simp [skipTurn, hnext])⟩
  takes c c' h := by
    unfold skipTurn at h
    split at h
    · rename_i t hnext
      split at h
      · cases h
        exact (Walk.stay _).takes hnext
      · cases h
    · cases h

theorem walk_takeNumber (c : Cursor) : Walk c c.takeNumber.2 := by
  unfold Cursor.takeNumber
  split
  · exact walk_bump c
  · exact .stay c

theorem consumes_modifierTurn (limits : Limits) :
    Consumes (modifierTurn limits) Prod.snd fun s => attachModifiers limits s.1 s.2 where
  ends s := by
    obtain ⟨node, c⟩ := s
    dsimp only
    fun_induction attachModifiers limits node c with
    | case1 node c hnext => exact ⟨1, .leave (by simp [modifierTurn, hnext])⟩
    | case2 node c t hnext hk number ih | case3 node c t hnext hk number _ ih =>
      obtain ⟨n, hn⟩ := ih
      exact ⟨n + 1, .again (by simp only [modifierTurn, hnext, hk]; rfl) hn⟩
    | case4 node c t hnext hboost hfuzzy =>
      refine ⟨1, .leave ?_⟩
      cases hk : t.kind <;> simp_all [modifierTurn]
  takes s s' h := by
    unfold modifierTurn at h
    split at h
    · cases h
    · rename_i t hnext
      have htakes : Takes s.2 s.2.bump.2.takeNumber.2 := (walk_takeNumber _).takes hnext
      dsimp only at h
      split at h <;> cases h <;> exact htakes

theorem exists_ends_searchTurn (next : Option Token) (c : Cursor) :
    ∃ n, Ends searchTurn (next, c) n (findRangeEnd next c) := by
  fun_induction findRangeEnd next c with
  | case1 c => exact ⟨1, .leave rfl⟩
  | case2 c t hend => exact ⟨1, .leave (by simp [searchTurn, hend])⟩
  | case3 c t hend hstop => exact ⟨1, .leave (by simp [searchTurn, hend, hstop])⟩
  | case4 c t hend hstop ih =>
    obtain ⟨n, hn⟩ := ih
    exact ⟨n + 1, .again (by simp [searchTurn, hend, hstop]) hn⟩

/-! ## Walks of readers -/

theorem walk_attachModifiers (limits : Limits) (node : Node) (c : Cursor) :
    Walk c (attachModifiers limits node c).2 := by
  fun_induction attachModifiers limits node c with
  | case1 node c | case4 node c => exact .stay c
  | case2 node c t hnext _ number ih | case3 node c t hnext _ number _ ih =>
    exact ((walk_takeNumber _).trans ih).of_next hnext

theorem walk_finish (limits : Limits) (sign : Option Sign) (nodes : List Node) (c : Cursor) :
    Walk c (finish limits sign nodes c).cursor := by
  show Walk c (attachToLast limits (signFirst sign nodes) c).2
  fun_induction attachToLast limits (signFirst sign nodes) c with
  | case1 c => exact .stay c
  | case2 n c => exact walk_attachModifiers limits n c
  | case3 c n ns _ ih => exact ih

/-- A token that calls for no subquery and no filter is handled by a walk. -/
theorem Fresh.walk_step (h : Fresh c ts) (limits : Limits) (sign : Option Sign)
    (hk : t.kind ≠ .filterStart) : Walk c (Cursor.step limits none sign t c).cursor := by
  unfold Cursor.step
  split
  · exact .stay c
  · exact .stay c
  · exact .stay c
  · exact .stay c
  · exact .stay c
  · contradiction
  · dsimp only
    split
    · exact h.walk_readRange? _
    · exact (h.walk_readRange? _).trans (walk_finish ..)
  · exact walk_skipNext c .number
  · exact walk_skipNext c .number
  · dsimp only
    split
    · exact walk_readLeaf? t c
    · exact (walk_readLeaf? t c).trans (walk_finish ..)

/-! ## What is still to come -/

/-- The reader of subqueries, which there is not inside of one. -/
def bodyReader? (limits : Limits) (inSubquery : Bool) : Option BodyReader :=
  if inSubquery then none else some (subqueryReader limits)

/-- What a sequence comes to next: the nodes of the filter that it reads, if it is one. -/
def Level.progress (limits : Limits) (body? : Option BodyReader) (l : Level) (c : Cursor) :
    Progress :=
  match l.filter with
  | none => ⟨[], l.sign, c⟩
  | some f =>
    let p := readFilter body? f.field l.sign f.comparison f.value c
    finish limits p.sign p.nodes p.cursor

/-- The nodes of a sequence, those still to come among them, and the cursor after it. -/
def Level.answer (limits : Limits) (body? : Option BodyReader) (l : Level) (c : Cursor) :
    List Node × Cursor :=
  let p := l.progress limits body? c
  let rest := sequence limits body? p.sign p.cursor
  (l.nodes ++ (p.nodes ++ rest.1), rest.2)

namespace Machine

/-- What the sequences that wait come to, once the innermost has come to something. -/
def answerFrom (limits : Limits) : List Level → List Node × Cursor → List Node × Cursor
  | [], inner => inner
  | l :: outer, inner =>
    let m := (⟨inner.2, false, l, outer⟩ : Machine).takeSubquery limits (subqueryNode? inner.1)
    answerFrom limits outer (m.level.answer limits (bodyReader? limits false) m.cursor)

/-- What the machine comes to in the end. -/
def answer (limits : Limits) (m : Machine) : List Node × Cursor :=
  answerFrom limits m.outer (m.level.answer limits (bodyReader? limits m.inSubquery) m.cursor)

/-- The machine stands before some tokens, and a sequence waits only while another is a
subquery. -/
structure Settled (m : Machine) : Prop where
  fresh : ∃ ts, Fresh m.cursor ts
  outer : m.outer.length = m.inSubquery.toNat

/-- The turns that are left at most: two for each token, and one for each loop. -/
def potential (m : Machine) : Nat :=
  2 * m.cursor.remaining + m.loops

/-- What a turn may come to. -/
inductive Allows (limits : Limits) (m : Machine) : Turn Machine (List Node × Cursor) → Prop
  /-- The machine ends. -/
  | ends : Walk m.cursor (m.answer limits).2 → Allows limits m (.leave (m.answer limits))
  /-- A loop goes on, or a filter starts. -/
  | goesOn {t : Token} {l : Level} {c : Cursor} :
    m.cursor.lookahead = some t → Walk m.cursor.bump.2 c →
    l.answer limits (bodyReader? limits m.inSubquery) c =
      m.level.answer limits (bodyReader? limits m.inSubquery) m.cursor →
    Allows limits m (.again { m with cursor := c, level := l })
  /-- A filter is left. -/
  | leavesFilter {l : Level} {c : Cursor} :
    m.level.filter.isSome → l.filter = none → Walk m.cursor c →
    l.answer limits (bodyReader? limits m.inSubquery) c =
      m.level.answer limits (bodyReader? limits m.inSubquery) m.cursor →
    Allows limits m (.again { m with cursor := c, level := l })
  /-- A subquery starts. -/
  | calls {t : Token} :
    m.cursor.lookahead = some t → m.inSubquery = false →
    answerFrom limits (m.level :: m.outer) ((subqueryReader limits).read m.cursor.bump.2) =
      m.answer limits →
    Allows limits m (.again (m.enter m.cursor.bump.2))
  /-- A subquery ends. -/
  | returns {l : Level} {outer : List Level} {c : Cursor} :
    m.outer = l :: outer → Walk m.cursor c →
    m.level.answer limits (bodyReader? limits m.inSubquery) m.cursor = (m.level.nodes, c) →
    Allows limits m (.again ((⟨c, false, l, outer⟩ : Machine).takeSubquery limits
      (subqueryNode? m.level.nodes)))

variable {limits : Limits} {m m' : Machine} {f : OpenFilter}

/-! ## Turns of a sequence -/

/-- A sequence that is over is left. -/
theorem Allows.leaveSequence (hwalk : Walk m.cursor c)
    (hanswer : m.level.answer limits (bodyReader? limits m.inSubquery) m.cursor =
      (m.level.nodes, c)) :
    Allows limits m (m.leaveSequence limits c) := by
  unfold Machine.leaveSequence
  split
  · rename_i houter
    have hends : m.answer limits = (m.level.nodes, c) := by
      rw [answer, houter, answerFrom, hanswer]
    have hleave : Walk m.cursor (m.answer limits).2 → Allows limits m (.leave (m.answer limits)) :=
      .ends
    rw [hends] at hleave
    exact hleave hwalk
  · rename_i l outer houter
    exact .returns houter hwalk hanswer

/-- Nodes that are added are no longer to come. -/
theorem answer_add {l : Level} {body? : Option BodyReader} {p : Progress}
    (h : l.answer limits body? c =
      (l.nodes ++ (p.nodes ++ (sequence limits body? p.sign p.cursor).1),
        (sequence limits body? p.sign p.cursor).2)) :
    (⟨l.nodes ++ p.nodes, p.sign, none⟩ : Level).answer limits body? p.cursor =
      l.answer limits body? c := by
  rw [h]
  simp [Level.answer, Level.progress]

/-- Outside of filters the nodes to come are those of the rest of the sequence. -/
theorem answer_of_filter_none (limits : Limits) (h : m.level.filter = none)
    (body? : Option BodyReader) :
    m.level.answer limits body? m.cursor =
      (m.level.nodes ++ (sequence limits body? m.level.sign m.cursor).1,
        (sequence limits body? m.level.sign m.cursor).2) := by
  simp [Level.answer, Level.progress, h]

end Machine

theorem sequence_of_none (limits : Limits) (body? : Option BodyReader) (sign : Option Sign)
    (h : c.lookahead = none) : sequence limits body? sign c = ([], c) := by
  fun_cases sequence limits body? sign c <;> simp_all

theorem sequence_of_some (limits : Limits) (body? : Option BodyReader) (sign : Option Sign)
    (h : c.lookahead = some t) :
    sequence limits body? sign c =
      if t.kind = .subqueryEnd ∧ body?.isNone then ([], c.bump.2)
      else
        let p := step limits body? sign t c.bump.2
        let rest := sequence limits body? p.sign p.cursor
        (p.nodes ++ rest.1, rest.2) := by
  rw [sequence.eq_def]
  split
  · rename_i hnone
    cases h.symm.trans hnone
  · rename_i t' hnext
    cases h.symm.trans hnext
    rfl

/-- A token that calls for no filter and no subquery is handled alike with and without readers of
subqueries. -/
theorem step_eq_step_none (limits : Limits) (body? : Option BodyReader) (sign : Option Sign)
    (c : Cursor) (hfilter : t.kind ≠ .filterStart)
    (hsubquery : t.kind = .subqueryStart → body? = none) :
    step limits body? sign t c = step limits none sign t c := by
  obtain ⟨kind, literal⟩ := t
  cases kind with
  | filterStart => exact absurd rfl hfilter
  | subqueryStart => rw [hsubquery rfl]
  | _ => rfl

namespace Machine

variable {limits : Limits} {m m' : Machine} {f : OpenFilter}

theorem allows_sequenceTurn (hm : m.Settled) (hf : m.level.filter = none) :
    Allows limits m (m.sequenceTurn limits) := by
  obtain ⟨ts, hfresh⟩ := hm.fresh
  have hanswer := answer_of_filter_none limits hf (bodyReader? limits m.inSubquery)
  unfold sequenceTurn
  cases hnext : m.cursor.lookahead with
  | none =>
    rw [sequence_of_none _ _ _ hnext, List.append_nil] at hanswer
    exact .leaveSequence (.stay _) hanswer
  | some t =>
    rw [sequence_of_some _ _ _ hnext] at hanswer
    dsimp only
    split
    -- the end of a subquery, the start of one, a filter, and any other token
    · rename_i hk hin
      rw [if_pos ⟨hk, by simp [bodyReader?, hin]⟩, List.append_nil] at hanswer
      exact .leaveSequence (walk_bump _) hanswer
    · rename_i hk hin
      have hreader : bodyReader? limits m.inSubquery = some (subqueryReader limits) := by
        simp [bodyReader?, hin]
      have hopen : ¬(t.kind = .subqueryEnd ∧ (bodyReader? limits m.inSubquery).isNone) := by
        simp [hk]
      have hstep : step limits (some (subqueryReader limits)) m.level.sign t m.cursor.bump.2 =
          finish limits m.level.sign
            (subqueryNode? ((subqueryReader limits).read m.cursor.bump.2).1).toList
            ((subqueryReader limits).read m.cursor.bump.2).2 := by
        simp [step, hk, readSubquery]
      rw [if_neg hopen, hreader, hstep] at hanswer
      refine .calls hnext hin (congrArg (answerFrom limits m.outer) ?_)
      simp only [takeSubquery, hf]
      rw [hreader]
      exact answer_add hanswer
    · rename_i hk
      refine .goesOn hnext (.stay _) ?_
      have hopen : ¬(t.kind = .subqueryEnd ∧ (bodyReader? limits m.inSubquery).isNone) := by
        simp [hk]
      rw [if_neg hopen] at hanswer
      rw [hanswer]
      simp [Level.answer, Level.progress, step, hk]
    · rename_i hfilter hend hstart
      have hopen : ¬(t.kind = .subqueryEnd ∧ (bodyReader? limits m.inSubquery).isNone) := by
        rintro ⟨hk, hnone⟩
        exact hend hk (by simpa [bodyReader?] using hnone)
      have hnone : t.kind = .subqueryStart → bodyReader? limits m.inSubquery = none := by
        intro hk
        have hin : m.inSubquery = true := by simpa using hstart hk
        simp [bodyReader?, hin]
      rw [if_neg hopen, step_eq_step_none _ _ _ _ hfilter hnone] at hanswer
      exact .goesOn hnext ((hfresh.of_bump hnext).walk_step limits _ hfilter) (answer_add hanswer)

/-! ## Turns of a filter -/

theorem progress_of_filter (limits : Limits) (h : m.level.filter = some f)
    (body? : Option BodyReader) :
    m.level.progress limits body? m.cursor =
      let p := readFilter body? f.field m.level.sign f.comparison f.value m.cursor
      finish limits p.sign p.nodes p.cursor := by
  simp only [Level.progress, h]

/-- A filter that is over is left. -/
theorem Allows.leaveFilter {nodes : List Node} (hf : m.level.filter.isSome)
    (hwalk : Walk m.cursor c)
    (hprogress : m.level.progress limits (bodyReader? limits m.inSubquery) m.cursor =
      finish limits m.level.sign nodes c) :
    Allows limits m (m.leaveFilter limits nodes c) := by
  refine .leavesFilter hf rfl (hwalk.trans (walk_finish ..)) (answer_add ?_)
  rw [Level.answer, hprogress]

/-- A filter whose reading goes on comes to what it would have come to. -/
theorem Allows.inFilter {sign : Option Sign} (hnext : m.cursor.lookahead = some t)
    (hwalk : Walk m.cursor.bump.2 c)
    (hprogress : m.level.progress limits (bodyReader? limits m.inSubquery) m.cursor =
      (⟨m.level.nodes, sign, some f⟩ : Level).progress limits
        (bodyReader? limits m.inSubquery) c) :
    Allows limits m (.again (m.inFilter f sign c)) := by
  refine .goesOn hnext hwalk ?_
  rw [Level.answer, Level.answer, hprogress]

theorem allows_filterTurn (hm : m.Settled) (hf : m.level.filter = some f) :
    Allows limits m (m.filterTurn limits f) := by
  obtain ⟨ts, hfresh⟩ := hm.fresh
  have hsome : m.level.filter.isSome := by simp [hf]
  have hprogress := progress_of_filter limits hf (bodyReader? limits m.inSubquery)
  obtain ⟨field, comparison, value⟩ := f
  -- whether there is a reader of subqueries is one of the cases
  generalize hbody : bodyReader? limits m.inSubquery = body? at hprogress
  unfold filterTurn
  dsimp only at hprogress ⊢
  revert hprogress
  fun_cases readFilter body? field m.level.sign comparison value m.cursor with
  | case1 _ hnext =>
    intro hprogress
    subst hbody
    simp only [hnext]
    exact .leaveFilter hsome (.stay _) hprogress
  | case2 _ t hnext hend =>
    intro hprogress
    subst hbody
    simp only [hnext, if_pos hend]
    exact .leaveFilter hsome (walk_bump _) hprogress
  | case3 _ t hnext hend hvalue =>
    intro hprogress
    subst hbody
    simp only [hnext, if_neg hend, if_pos hvalue]
    exact .leaveFilter hsome (.stay _) hprogress
  -- from here on no value has been read
  | case4 _ t hnext hend hvalue s hk | case7 _ t hnext hend hvalue hk =>
    intro hprogress
    subst hbody
    obtain rfl := Option.not_isSome_iff_eq_none.mp hvalue
    simp only [hnext, hk]
    exact .inFilter hnext (.stay _) hprogress
  | case5 _ t hnext hend hvalue hk | case6 _ t hnext hend hvalue hk =>
    intro hprogress
    subst hbody
    obtain rfl := Option.not_isSome_iff_eq_none.mp hvalue
    simp only [hnext, hk]
    exact .inFilter hnext (walk_skipNext ..) hprogress
  -- a subquery, in another one and outside
  | case8 t hnext hend hvalue hk =>
    intro hprogress
    obtain rfl := Option.not_isSome_iff_eq_none.mp hvalue
    have hin : m.inSubquery = true := by simpa [bodyReader?] using hbody
    rw [← hbody] at hprogress
    simp only [hnext, hk, hin]
    exact .leaveFilter hsome (.stay _) hprogress
  | case9 t hnext hend hvalue hk body subquery =>
    intro hprogress
    obtain rfl := Option.not_isSome_iff_eq_none.mp hvalue
    have hin : m.inSubquery = false := by
      cases hin : m.inSubquery with
      | true => simp [bodyReader?, hin] at hbody
      | false => rfl
    have hreader : body = subqueryReader limits := by simpa [bodyReader?, hin] using hbody.symm
    subst hreader
    simp only [hnext, hk, hin]
    refine .calls hnext hin (congrArg (answerFrom limits m.outer) ?_)
    simp only [takeSubquery, hf]
    rw [hbody, Level.answer, Level.answer, hprogress]
    rfl
  -- a range: none or one, and bounds that make none
  | case10 _ t hnext hend hvalue b hk range hrange
  | case12 _ t hnext hend hvalue b hk range i hrange =>
    intro hprogress
    subst hbody
    obtain rfl := Option.not_isSome_iff_eq_none.mp hvalue
    simp only [range] at hrange
    simp only [hnext, hk, hrange]
    exact .inFilter hnext ((hfresh.of_bump hnext).walk_readRange? b) hprogress
  | case11 _ t hnext hend hvalue b hk range ls hrange =>
    intro hprogress
    subst hbody
    obtain rfl := Option.not_isSome_iff_eq_none.mp hvalue
    have hwalk : Walk m.cursor.bump.2 (range.2.skipNext .filterEnd) :=
      ((hfresh.of_bump hnext).walk_readRange? b).trans (walk_skipNext ..)
    simp only [range] at hrange
    simp only [hnext, hk, hrange]
    exact .leaveFilter hsome (hwalk.of_next hnext) hprogress
  -- any other token, which may stand for a leaf
  | case13 _ t hnext hend hvalue leaf _ _ _ _ _ _ hleaf =>
    intro hprogress
    subst hbody
    obtain rfl := Option.not_isSome_iff_eq_none.mp hvalue
    simp only [hnext, if_neg hend, if_neg hvalue, if_pos hleaf]
    exact .inFilter hnext (walk_readLeaf? t _) hprogress
  | case14 _ t hnext hend hvalue hsign hgreater hless hequals hstart hrange hleaf =>
    intro hprogress
    subst hbody
    obtain rfl := Option.not_isSome_iff_eq_none.mp hvalue
    simp only [hnext, if_neg hend, if_neg hvalue, if_neg hleaf]
    exact .leaveFilter hsome (.stay _) hprogress

theorem allows_turn (limits : Limits) (hm : m.Settled) : Allows limits m (m.turn limits) := by
  unfold turn
  split
  · rename_i hf
    exact allows_sequenceTurn hm hf
  · rename_i f hf
    exact allows_filterTurn hm hf

/-! ## What a turn keeps, and what it lowers -/

@[simp] theorem inSubquery_takeSubquery (limits : Limits) (m : Machine) (node : Option Node) :
    (m.takeSubquery limits node).inSubquery = m.inSubquery := by
  unfold takeSubquery
  split <;> rfl

@[simp] theorem outer_takeSubquery (limits : Limits) (m : Machine) (node : Option Node) :
    (m.takeSubquery limits node).outer = m.outer := by
  unfold takeSubquery
  split <;> rfl

theorem loops_takeSubquery (limits : Limits) (m : Machine) (node : Option Node) :
    (m.takeSubquery limits node).loops = m.loops := by
  unfold takeSubquery
  split
  · rename_i hf
    simp [loops, Level.loops, add, hf]
  · rename_i f hf
    simp [loops, Level.loops, inFilter, hf]

theorem walk_takeSubquery (limits : Limits) (m : Machine) (node : Option Node) :
    Walk m.cursor (m.takeSubquery limits node).cursor := by
  unfold takeSubquery
  split
  · exact walk_finish ..
  · exact .stay _

/-- What a subquery comes to is what its reader reads. -/
theorem answer_enter (limits : Limits) (m : Machine) (c : Cursor) :
    (m.enter c).answer limits =
      answerFrom limits (m.level :: m.outer) ((subqueryReader limits).read c) := by
  have hlevel : ({} : Level).answer limits none c = sequence limits none none c := by
    simp [Level.answer, Level.progress]
  exact congrArg (answerFrom limits (m.level :: m.outer)) hlevel

theorem Allows.answer_eq (h : Allows limits m (.again m')) :
    m'.answer limits = m.answer limits := by
  cases h with
  | goesOn _ _ hanswer | leavesFilter _ _ _ hanswer =>
    exact congrArg (answerFrom limits m.outer) hanswer
  | calls _ _ hanswer => rw [answer_enter, hanswer]
  | returns houter _ hanswer =>
    rw [answer, answer, inSubquery_takeSubquery, outer_takeSubquery, houter, hanswer, answerFrom]

theorem Allows.walk (h : Allows limits m (.again m')) : Walk m.cursor m'.cursor := by
  cases h with
  | goesOn hnext hwalk => exact hwalk.of_next hnext
  | leavesFilter _ _ hwalk => exact hwalk
  | calls hnext => exact walk_bump _
  | @returns l outer c _ hwalk =>
    exact hwalk.trans (walk_takeSubquery limits ⟨c, false, l, outer⟩ _)

theorem Allows.settled (h : Allows limits m (.again m')) (hm : m.Settled) : m'.Settled := by
  obtain ⟨ts, hfresh⟩ := hm.fresh
  have houter := hm.outer
  refine ⟨h.walk.exists_fresh hfresh, ?_⟩
  cases h with
  | goesOn | leavesFilter => exact houter
  | calls _ hin => simp [enter, houter, hin]
  | returns hcons =>
    rw [hcons, List.length_cons] at houter
    have hle : m.inSubquery.toNat ≤ 1 := Bool.toNat_le _
    simp only [outer_takeSubquery, inSubquery_takeSubquery, Bool.toNat_false]
    omega

/-- A turn moves past a token, unless it leaves a loop. -/
theorem Allows.takes_or_loops_lt (h : Allows limits m (.again m')) :
    Takes m.cursor m'.cursor ∨ m'.loops < m.loops := by
  cases h with
  | goesOn hnext hwalk => exact .inl (hwalk.takes hnext)
  | leavesFilter hsome hnone =>
    right
    simp [loops, Level.loops, hsome, hnone]
  | calls hnext => exact .inl ((Walk.stay _).takes hnext)
  | returns houter =>
    right
    rw [loops_takeSubquery]
    simp only [loops, houter, List.foldr_cons, Level.loops]
    omega

theorem Allows.loops_le (h : Allows limits m (.again m')) : m'.loops ≤ m.loops + 1 := by
  have hfilter (l : Level) : l.filter.isSome.toNat ≤ 1 := Bool.toNat_le _
  cases h with
  | @goesOn _ l | @leavesFilter l =>
    have hl := hfilter l
    simp only [loops, Level.loops]
    omega
  | calls =>
    simp only [loops, enter, Level.loops, List.foldr_cons, Option.isSome_none,
      Bool.toNat_false]
    omega
  | returns houter =>
    rw [loops_takeSubquery]
    simp only [loops, houter, List.foldr_cons, Level.loops]
    omega

theorem Allows.potential_lt (h : Allows limits m (.again m')) : m'.potential < m.potential := by
  have hloops := h.loops_le
  have hrest := h.walk.remaining_le
  unfold potential
  obtain htakes | hlt := h.takes_or_loops_lt
  · have hremaining := htakes.remaining_lt
    omega
  · omega

/-! ## Runs -/

theorem settled_start (c : Cursor) : (start c).Settled where
  fresh := ⟨c.tokens, fresh_reset_moveNext c⟩
  outer := rfl

theorem settled_of_reaches (h : Reaches (turn limits) m m') (hm : m.Settled) : m'.Settled := by
  induction h with
  | refl => exact hm
  | @tail m' m'' _ hagain ih =>
    have hallows := allows_turn limits ih
    rw [hagain] at hallows
    exact hallows.settled ih

/-- From a settled state the machine ends, with what it comes to. -/
theorem exists_ends_turn (limits : Limits) (m : Machine) (hm : m.Settled) :
    ∃ n ≤ m.potential, Ends (turn limits) m n (m.answer limits) := by
  refine exists_ends Settled potential (answer limits) (fun m hm => ?_) m hm
  have hallows := allows_turn limits hm
  cases hturn : m.turn limits with
  | leave result =>
    rw [hturn] at hallows
    have hpos : 0 < m.potential := by
      simp only [potential, loops, Level.loops]
      omega
    cases hallows with
    | ends => exact .inl ⟨rfl, hpos⟩
  | again m' =>
    rw [hturn] at hallows
    exact .inr ⟨m', rfl, hallows.settled hm, hallows.answer_eq, hallows.potential_lt⟩

/-- A run moves past tokens only. -/
theorem walk_of_ends {n : Nat} {result : List Node × Cursor}
    (h : Ends (turn limits) m n result) (hm : m.Settled) : Walk m.cursor result.2 := by
  induction h with
  | leave hleave =>
    have hallows := allows_turn limits hm
    rw [hleave] at hallows
    cases hallows with
    | ends hwalk => exact hwalk
  | again hagain _ ih =>
    have hallows := allows_turn limits hm
    rw [hagain] at hallows
    exact hallows.walk.trans (ih (hallows.settled hm))

theorem remaining_reset_moveNext (c : Cursor) : c.reset.moveNext.remaining = c.size := by
  unfold moveNext remaining size reset ofTokens
  dsimp only
  split
  · simp only [Option.isSome_some, if_true]
    omega
  · simp only [Option.isSome_none, Bool.false_eq_true, if_false]
    omega

/-- The machine before all tokens comes to the nodes of the tokens, after all of them. -/
theorem answer_start (limits : Limits) (c : Cursor) :
    ∃ last, (start c).answer limits = (c.parse limits, last) ∧ last.lookahead = none := by
  have hanswer : (start c).answer limits =
      sequence limits (some (subqueryReader limits)) none c.reset.moveNext := by
    simp [answer, answerFrom, start, Level.answer, Level.progress, bodyReader?]
  have hall := (fresh_reset_moveNext c).sequence_some (bodiesMatch_subqueryReader limits) limits
    none
  exact ⟨_, hanswer, hall.2.before.lookahead⟩

end Machine

open Machine

/-- **Parsing moves past every token once and then stops**, whatever the tokens and the limits are.
The machine ends with the nodes of the tokens, and the cursor has then moved past all of them, one
after the other. Wherever it has got to, it reads no subquery inside of a subquery, and its next
turn moves past a token or leaves a loop. The loops in which tokens are skipped and modifiers
attached end as well, and each turn that does not leave them moves past a token; and the search for
the end of a range ends. -/
theorem parse_takes_every_token (limits : Limits) (c : Cursor) :
    (∃ n ≤ 2 * c.size + 1, ∃ last, Ends (turn limits) (start c) n (c.parse limits, last) ∧
      (start c).cursor.Passes c.tokens last ∧ last.lookahead = none) ∧
    (∀ m, Reaches (turn limits) (start c) m →
      m.outer.length ≤ 1 ∧ ∀ m', m.turn limits = .again m' →
        (∃ ts, m.cursor.Passes ts m'.cursor) ∧
          (Takes m.cursor m'.cursor ∨ m'.loops < m.loops)) ∧
    (∀ p, Consumes (skipTurn p) id (skipWhile p)) ∧
    Consumes (modifierTurn limits) Prod.snd (fun s => attachModifiers limits s.1 s.2) ∧
    ∀ next c, ∃ n, Ends searchTurn (next, c) n (findRangeEnd next c) := by
  refine ⟨?_, fun m hreach => ⟨?_, fun m' hagain => ?_⟩, consumes_skipTurn,
    consumes_modifierTurn limits, exists_ends_searchTurn⟩
  · obtain ⟨last, hanswer, hlast⟩ := answer_start limits c
    obtain ⟨n, hn, hends⟩ := exists_ends_turn limits (start c) (settled_start c)
    rw [hanswer] at hends
    obtain ⟨ts, hpasses⟩ := (walk_of_ends hends (settled_start c)).exists_passes
    obtain rfl := hpasses.eq_of_lookahead (before_reset_moveNext c) hlast
    have hpotential : (start c).potential = 2 * c.size + 1 := by
      simp [potential, start, loops, Level.loops, remaining_reset_moveNext]
    exact ⟨n, hpotential ▸ hn, last, hends, hpasses, hlast⟩
  · rw [(settled_of_reaches hreach (settled_start c)).outer]
    exact Bool.toNat_le _
  · have hallows := allows_turn limits (settled_of_reaches hreach (settled_start c))
    rw [hagain] at hallows
    exact ⟨hallows.walk.exists_passes, hallows.takes_or_loops_lt⟩

/-- The tokens of `f:(([^`: the second bracket is read in the first subquery, which waits for no
other, and starts none. -/
theorem parse_takes_every_token_malformed :
    let c := ofTokens [.ofText .filterStart ['f'], .mark .subqueryStart, .mark .subqueryStart,
      .mark (.rangeStart .inclusive), .mark .boost]
    let m := ((start c).inFilter { field := ['f'] } none (moveNext^[2] c)).enter (moveNext^[3] c)
    let m' := m.add ⟨[], none, moveNext^[4] c⟩
    (∃ n ≤ 11, ∃ last, Ends (turn {}) (start c) n (c.parse {}, last) ∧
      (start c).cursor.Passes c.tokens last ∧ last.lookahead = none) ∧
    Reaches (turn {}) (start c) m ∧ m.outer.length ≤ 1 ∧
    m.turn {} = .again m' ∧ Takes m.cursor m'.cursor := by
  intro c m m'
  obtain ⟨hends, hturns, -⟩ := parse_takes_every_token {} c
  have hreach : Reaches (turn {}) (start c) m :=
    .tail (.tail .refl rfl) rfl
  obtain ⟨hdepth, hagain⟩ := hturns m hreach
  have hturn : m.turn {} = .again m' := rfl
  obtain ⟨-, htakes⟩ := hagain m' hturn
  exact ⟨hends, hreach, hdepth, hturn, htakes.resolve_right (Nat.lt_irrefl _)⟩

end Cursor

end SearchLang
