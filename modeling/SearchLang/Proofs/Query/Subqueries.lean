import SearchLang.Node.Shape
import SearchLang.Proofs.Parse.Finish
import SearchLang.Proofs.Parse.Trace
import SearchLang.Proofs.Scan.Bracketing
import SearchLang.Query.Basic

/-!
# The subqueries of a query

The parser and the scanner agree on where subqueries start and end. In a scan
subqueries do not nest, all of them end, and no filter starts inside of one
(`wellNested`). Outside of subqueries no reader takes one of their brackets but
to read the subquery (`LeavesBrackets`), and what it reads stops at its own end.
-/

namespace SearchLang.Query

/-! ## Nesting -/

/-- Whether subqueries start and end in turn, and no filter starts in a subquery. One is open at
first if `inside` is true, and none is open in the end. -/
def wellNested (inside : Bool) : List Token → Bool
  | [] => !inside
  | t :: ts =>
    match t.kind with
    | .subqueryStart => !inside && wellNested true ts
    | .subqueryEnd => inside && wellNested false ts
    | .filterStart => !inside && wellNested inside ts
    | _ => wellNested inside ts

/-- The automaton of brackets admits well-nested tokens only. -/
theorem wellNested_of_accepts {o : Brackets} {before : Option Kind} {ts : List Token}
    (h : o.accepts before (ts.map Token.kind) = true) : wellNested o.subquery ts = true := by
  induction ts generalizing o before with
  | nil =>
    rw [List.map_nil, Brackets.accepts_nil, Bool.and_eq_true] at h
    exact h.2
  | cons t ts ih =>
    rw [List.map_cons, Brackets.accepts_cons, Bool.and_eq_true] at h
    obtain ⟨hadmits, hrest⟩ := h
    have hts := ih hrest
    rw [wellNested]
    split <;> rename_i hk
    · simp_all [Brackets.admits, Brackets.next]
    · simp_all [Brackets.admits, Brackets.next]
    · simp_all [Brackets.admits, Brackets.next]
    · have hnext : (o.next t.kind).subquery = o.subquery := by
        cases hkind : t.kind <;> simp_all [Brackets.next]
      rwa [hnext] at hts

theorem wellNested_scan (q : Text) : wellNested false (scan q) = true :=
  wellNested_of_accepts (Scan.run_invariant Scan.bracketed_invariant .init _).accepts_close

/-- What is known of the tokens after the start of a subquery, up to its end and from there on. -/
structure Encloses (ts : List Token) : Prop where
  body : ∀ t ∈ subqueryBody ts, t.kind ≠ .subqueryStart ∧ t.kind ≠ .filterStart
  ends : afterOwnEnd? 0 ts = some (afterSubquery ts)
  readings : ownReadings ts = ownReadings (afterSubquery ts)
  after : wellNested false (afterSubquery ts) = true

theorem encloses_of_wellNested {ts : List Token} (h : wellNested true ts = true) : Encloses ts := by
  induction ts with
  | nil => simp [wellNested] at h
  | cons t ts ih =>
    rw [wellNested] at h
    split at h <;> rename_i hk
    · simp at h
    · refine ⟨?_, ?_, ?_, ?_⟩ <;>
        simp_all [subqueryBody, afterOwnEnd?, afterSubquery, ownReadings]
    · simp at h
    · rename_i hstart hend
      obtain ⟨hbody, hends, hreadings, hafter⟩ := ih h
      have hspan : subqueryBody (t :: ts) = t :: subqueryBody ts ∧
          afterSubquery (t :: ts) = afterSubquery ts := by
        have hne : (t.kind != .subqueryEnd) = true := bne_iff_ne.mpr hend
        simp [subqueryBody, afterSubquery, hne]
      refine ⟨?_, ?_, ?_, ?_⟩
      · rw [hspan.1]
        exact List.forall_mem_cons.mpr ⟨⟨hstart, hk⟩, hbody⟩
      · rw [hspan.2, ← hends, afterOwnEnd?.eq_def]
        simp only
        split
        · exact absurd ‹_› hstart
        · exact absurd ‹_› hend
        · exact absurd ‹_› hend
        · rfl
      · rw [hspan.2, ← hreadings, ownReadings, if_neg hstart]
      · rw [hspan.2]
        exact hafter

theorem encloses_of_start {t : Token} {ts : List Token} (hk : t.kind = .subqueryStart)
    (h : wellNested false (t :: ts) = true) : Encloses ts := by
  simp only [wellNested, hk, Bool.not_false, Bool.true_and] at h
  exact encloses_of_wellNested h

/-! ## Tokens that are taken -/

/-- Whether some tokens are left of others by taking a front without brackets of subqueries. -/
def LeavesBrackets (ts rest : List Token) : Prop :=
  ∃ taken, ts = taken ++ rest ∧
    ∀ t ∈ taken, t.kind ≠ .subqueryStart ∧ t.kind ≠ .subqueryEnd

namespace LeavesBrackets

variable {ts us vs : List Token}

theorem refl (ts : List Token) : LeavesBrackets ts ts :=
  ⟨[], rfl, List.forall_mem_nil _⟩

theorem trans (h : LeavesBrackets ts us) (h' : LeavesBrackets us vs) : LeavesBrackets ts vs := by
  obtain ⟨taken, rfl, htaken⟩ := h
  obtain ⟨taken', rfl, htaken'⟩ := h'
  refine ⟨taken ++ taken', by rw [List.append_assoc], fun t ht => ?_⟩
  exact (List.mem_append.mp ht).elim (htaken t) (htaken' t)

theorem cons {t : Token} (hstart : t.kind ≠ .subqueryStart) (hend : t.kind ≠ .subqueryEnd)
    (h : LeavesBrackets ts us) : LeavesBrackets (t :: ts) us :=
  trans ⟨[t], rfl, by simpa using ⟨hstart, hend⟩⟩ h

/-- A token of another kind may be taken. -/
theorem of_kind {t : Token} {k : Kind} (hk : t.kind = k) (hstart : k ≠ .subqueryStart)
    (hend : k ≠ .subqueryEnd) (ts : List Token) : LeavesBrackets (t :: ts) ts :=
  cons (hk ▸ hstart) (hk ▸ hend) (refl ts)

theorem wellNested_eq (h : LeavesBrackets ts us) (hts : wellNested false ts = true) :
    wellNested false us = true := by
  obtain ⟨taken, rfl, htaken⟩ := h
  induction taken with
  | nil => exact hts
  | cons t taken ih =>
    obtain ⟨hstart, hend⟩ := htaken t (by simp)
    refine ih (fun u hu => htaken u (by simp [hu])) ?_
    rw [List.cons_append, wellNested] at hts
    split at hts <;> simp_all

theorem ownReadings_eq (h : LeavesBrackets ts us) : ownReadings ts = ownReadings us := by
  obtain ⟨taken, rfl, htaken⟩ := h
  induction taken with
  | nil => rfl
  | cons t taken ih =>
    rw [List.cons_append, ownReadings, if_neg (htaken t (by simp)).1]
    exact ih fun u hu => htaken u (by simp [hu])

/-! ### Readers -/

theorem takeNumber (ts : List Token) : LeavesBrackets ts (takeNumber ts).2 := by
  cases ts with
  | nil => exact refl _
  | cons t ts =>
    rw [Query.takeNumber]
    split
    · exact of_kind ‹_› (by simp) (by simp) ts
    · exact refl _

theorem takeEquals (ts : List Token) : LeavesBrackets ts (takeEquals ts).2 := by
  cases ts with
  | nil => exact refl _
  | cons t ts =>
    rw [Query.takeEquals]
    split
    · exact of_kind ‹_› (by simp) (by simp) ts
    · exact refl _

theorem dropFilterEnd (ts : List Token) : LeavesBrackets ts (dropFilterEnd ts) := by
  cases ts with
  | nil => exact refl _
  | cons t ts =>
    rw [Query.dropFilterEnd]
    split
    · exact of_kind ‹_› (by simp) (by simp) ts
    · exact refl _

theorem readLeaf? {t : Token} {ts rest : List Token} {l : Leaf}
    (h : readLeaf? t ts = some (l, rest)) : LeavesBrackets ts rest := by
  rcases rest_of_readLeaf? h with rfl | ⟨w, hw, rfl⟩
  · exact refl _
  · exact of_kind hw (by simp) (by simp) rest

theorem attachModifiers (limits : Limits) (n : Node) (ts : List Token) :
    LeavesBrackets ts (attachModifiers limits n ts).2 := by
  fun_induction Query.attachModifiers limits n ts with
  | case1 n => exact refl _
  | case2 n t ts hk ih | case3 n t ts hk node ih =>
    exact (of_kind hk (by simp) (by simp) ts).trans ((takeNumber ts).trans ih)
  | case4 n t ts _ _ => exact refl _

theorem finish (limits : Limits) (sign : Option Sign) (nodes : List Node) (ts : List Token) :
    LeavesBrackets ts (finish limits sign nodes ts).rest := by
  show LeavesBrackets ts (attachToLast limits (signFirst sign nodes) ts).2
  generalize signFirst sign nodes = signed
  fun_induction attachToLast limits signed ts with
  | case1 ts => exact refl ts
  | case2 n ts => exact attachModifiers limits n ts
  | case3 ts n nodes _ ih => exact ih

/-! ### Ranges -/

/-- Tokens that are left of others before the end of their range. -/
theorem of_hasRangeEnd (taken : List Token) (h : hasRangeEnd (taken ++ us) = true)
    (htaken : ∀ t ∈ taken, t.kind.isRangeEnd = false) :
    LeavesBrackets (taken ++ us) us ∧ hasRangeEnd us = true := by
  induction taken with
  | nil => exact ⟨refl us, h⟩
  | cons t taken ih =>
    have ht := htaken t (by simp)
    have hsearch : endsSearch t = false ∧ hasRangeEnd (taken ++ us) = true := by
      cases hends : endsSearch t <;> simp_all [hasRangeEnd]
    obtain ⟨hleaves, hend⟩ := ih hsearch.2 fun u hu => htaken u (by simp [hu])
    refine ⟨cons ?_ ?_ hleaves, hend⟩ <;>
    · intro hk
      simp [endsSearch, hk] at hsearch

theorem readBound {ts : List Token} (h : hasRangeEnd ts = true) :
    LeavesBrackets ts (readBound ts).2 ∧ hasRangeEnd (Query.readBound ts).2 = true := by
  -- what a bound takes is a leaf, a wildcard or both
  have hbound : ∃ taken, ts = taken ++ (Query.readBound ts).2 ∧
      ∀ t ∈ taken, t.kind.isRangeEnd = false := by
    cases ts with
    | nil => exact ⟨[], rfl, List.forall_mem_nil _⟩
    | cons t ts =>
      rw [Query.readBound]
      split
      · rename_i hk
        exact ⟨[t], rfl, by simp [hk, Kind.isRangeEnd]⟩
      · split
        · rename_i hleaf
          have ht : t.kind.isRangeEnd = false := by
            cases hk : t.kind <;> simp_all [Kind.isLeaf, Kind.isRangeEnd]
          split
          · rename_i hread
            rcases rest_of_readLeaf? hread with rfl | ⟨w, hw, rfl⟩
            · exact ⟨[t], rfl, by simpa using ht⟩
            · exact ⟨[t, w], rfl, List.forall_mem_cons.mpr ⟨ht, by simp [hw, Kind.isRangeEnd]⟩⟩
          · exact ⟨[t], rfl, by simpa using ht⟩
        · exact ⟨[], rfl, List.forall_mem_nil _⟩
  obtain ⟨taken, hts, htaken⟩ := hbound
  have hleaves := of_hasRangeEnd taken (hts ▸ h) htaken
  rwa [← hts] at hleaves

/-- A search that passes over no end of a range. -/
theorem dropWhile {ts : List Token} (h : hasRangeEnd ts = true) {p : Token → Bool}
    (hp : ∀ t, p t = true → t.kind.isRangeEnd = false) :
    LeavesBrackets ts (ts.dropWhile p) ∧ hasRangeEnd (ts.dropWhile p) = true := by
  have htaken : ∀ t ∈ ts.takeWhile p, t.kind.isRangeEnd = false := fun t ht =>
    hp t (List.all_eq_true.mp (List.all_takeWhile (l := ts)) t ht)
  have hts : ts.takeWhile p ++ ts.dropWhile p = ts := List.takeWhile_append_dropWhile
  have hleaves := of_hasRangeEnd (ts.takeWhile p) (by rwa [hts]) htaken
  rwa [hts] at hleaves

theorem skipToUpper {ts : List Token} (h : hasRangeEnd ts = true) :
    LeavesBrackets ts (skipToUpper ts) ∧ hasRangeEnd (Query.skipToUpper ts) = true := by
  obtain ⟨hleaves, hend⟩ :=
    dropWhile h (p := fun t => t.kind != .upTo && !t.kind.isRangeEnd) (by simp)
  unfold Query.skipToUpper
  split
  · rename_i t rest hdrop
    rw [hdrop] at hleaves hend
    split
    · rename_i hk
      have htail : hasRangeEnd rest = true :=
        (of_hasRangeEnd [t] hend (by simp [hk, Kind.isRangeEnd])).2
      exact ⟨hleaves.trans (of_kind hk (by simp) (by simp) rest), htail⟩
    · exact ⟨hleaves, hend⟩
  · rename_i hdrop
    rw [hdrop] at hend
    simp [hasRangeEnd] at hend

theorem skipRangeEnd {ts : List Token} (h : hasRangeEnd ts = true) :
    LeavesBrackets ts (skipRangeEnd ts) := by
  obtain ⟨hleaves, -⟩ := dropWhile h (p := fun t => !t.kind.isRangeEnd) (by simp)
  unfold Query.skipRangeEnd
  cases hdrop : ts.dropWhile fun t => !t.kind.isRangeEnd with
  | nil => rwa [hdrop] at hleaves
  | cons t rest =>
    have ht : t.kind.isRangeEnd = true := by
      have hnot := List.head?_dropWhile_not (fun t : Token => !t.kind.isRangeEnd) ts
      rw [hdrop] at hnot
      simpa using hnot
    rw [hdrop] at hleaves
    refine hleaves.trans (cons ?_ ?_ (refl rest)) <;>
    · intro hk
      simp [hk, Kind.isRangeEnd] at ht

/-- A range is read up to an end that comes before any bracket of a subquery. -/
theorem readRange? {b : Bracket} {ts rest : List Token} {r : RangeReading}
    (h : readRange? b ts = some (r, rest)) : LeavesBrackets ts rest := by
  unfold Query.readRange? at h
  split at h
  · rename_i hend
    simp only [Option.some.injEq, Prod.mk.injEq] at h
    obtain ⟨-, rfl⟩ := h
    obtain ⟨hlower, hend⟩ := readBound hend
    obtain ⟨hskip, hend⟩ := skipToUpper hend
    obtain ⟨hupper, hend⟩ := readBound hend
    exact ((hlower.trans hskip).trans hupper).trans (skipRangeEnd hend)
  · simp at h

end LeavesBrackets

/-! ## Bodies -/

variable {limits : Limits}

theorem modifiable_isSimple : Modifiable limits (fun n => n.isSimple = true) where
  sign _ n h := by cases n <;> exact h
  boost _ n h := by cases n <;> exact h
  fuzzy _ n _ h := by cases n <;> exact h

theorem isSimple_rangeReading (r : RangeReading) : ∀ n ∈ r.nodes, n.isSimple = true := by
  cases r <;> simp [RangeReading.nodes, Node.ofInterval, Node.ofLeaf, Node.isSimple]

/-- Inside a subquery, a token that starts no filter gives leaves and ranges. -/
theorem isSimple_step (sign : Option Sign) {t : Token} (ht : t.kind ≠ .filterStart)
    (ts : List Token) : ∀ n ∈ (step limits none sign t ts).nodes, n.isSimple = true := by
  unfold step
  split
  · simp
  · simp
  · simp
  · simp
  · simp
  · exact absurd ‹_› ht
  · split
    · simp
    · exact modifiable_isSimple.finish (isSimple_rangeReading _) sign _
  · simp
  · simp
  · split
    · simp
    · exact modifiable_isSimple.finish (by simp [Node.ofLeaf, Node.isSimple]) sign _

theorem isSimple_sequence (sign : Option Sign) {ts : List Token}
    (hts : ∀ t ∈ ts, t.kind ≠ .filterStart) :
    ∀ n ∈ sequence limits none sign ts, n.isSimple = true := by
  fun_induction sequence limits none sign ts with
  | case1 sign => simp
  | case2 sign t ts p ih =>
    intro n hn
    rcases List.mem_append.mp hn with hn | hn
    · exact isSimple_step sign (hts t (by simp)) ts n hn
    · refine ih (fun u hu => hts u (.tail _ ?_)) n hn
      exact (step_suffix limits none sign t ts).subset hu

/-- A reading comes upon nothing but the tokens before the end of the subquery. -/
theorem events_traceBody_append (limits : Limits) (sign : Option Sign) {ts us : List Token}
    (hts : ∀ t ∈ ts, t.kind ≠ .subqueryStart ∧ t.kind ≠ .subqueryEnd)
    (hus : ∀ u ∈ us.head?, u.kind = .subqueryEnd) :
    (traceBody limits sign (ts ++ us)).events = [] := by
  fun_induction sequence limits none sign ts with
  | case1 sign =>
    cases us with
    | nil => simp [traceBody]
    | cons u us => simp [traceBody, hus u rfl]
  | case2 sign t ts p ih =>
    obtain ⟨hstart, hend⟩ := hts t (by simp)
    have hrest := ih fun u hu => hts u (.tail _ ((step_suffix limits none sign t ts).subset hu))
    rw [List.cons_append, traceBody, if_neg hend, step_append_subqueryEnd sign t ts hus]
    simp only [hstart, Progress.followedBy]
    exact hrest

/-- What reading the body of a subquery gives: leaves and ranges, what follows its own end, and no
bracket that is passed over. -/
theorem Encloses.traceBody {ts : List Token} (h : Encloses ts) (limits : Limits) :
    (∀ n ∈ (traceBody limits none ts).nodes, n.isSimple = true) ∧
      (traceBody limits none ts).rest = afterSubquery ts ∧
      (traceBody limits none ts).events = [] := by
  obtain ⟨hnodes, hrest⟩ := traceBody_eq limits ts
  refine ⟨?_, hrest, ?_⟩
  · rw [hnodes]
    exact isSimple_sequence none fun t ht => (h.body t ht).2
  · obtain ⟨us, hts, hus, -⟩ := exists_subqueryBody_append ts
    have hbody : ∀ t ∈ subqueryBody ts, t.kind ≠ .subqueryStart ∧ t.kind ≠ .subqueryEnd :=
      fun t ht => ⟨(h.body t ht).1, kind_ne_of_mem_subqueryBody ht⟩
    have hevents := events_traceBody_append limits none hbody hus
    rwa [← hts] at hevents

/-! ## Outside of subqueries -/

/-- What is known of a reading outside of subqueries: it stops outside of them, it reads the
subqueries that it takes up to their own ends and does nothing else with their brackets, and its
nodes have flat subqueries. -/
structure Accounts (ts : List Token) (p : Traced) : Prop where
  nested : wellNested false p.rest = true
  events : p.events.map some ++ ownReadings p.rest = ownReadings ts
  flat : ∀ n ∈ p.nodes, n.hasFlatSubqueries = true

theorem modifiable_hasFlatSubqueries :
    Modifiable limits (fun n => n.hasFlatSubqueries = true) where
  sign _ n h := by cases n <;> exact h
  boost _ n h := by cases n <;> exact h
  fuzzy _ n _ h := by cases n <;> exact h

theorem Accounts.leaves {ts us : List Token} {p : Traced} (hts : LeavesBrackets ts us)
    (h : Accounts us p) : Accounts ts p :=
  ⟨h.nested, by rw [h.events, hts.ownReadings_eq], h.flat⟩

/-- A reader that takes no bracket does nothing at brackets. -/
theorem Accounts.of_leavesBrackets {ts : List Token} (hts : wellNested false ts = true)
    {p : Progress} (h : LeavesBrackets ts p.rest)
    (hflat : ∀ n ∈ p.nodes, n.hasFlatSubqueries = true) : Accounts ts ⟨p, []⟩ :=
  ⟨h.wellNested_eq hts, h.ownReadings_eq.symm, hflat⟩

theorem Accounts.finish {ts : List Token} {p : Traced} (h : Accounts ts p) (limits : Limits)
    (sign : Option Sign) :
    Accounts ts ⟨finish limits sign p.nodes p.rest, p.events⟩ := by
  have hleaves := LeavesBrackets.finish limits sign p.nodes p.rest
  refine ⟨hleaves.wellNested_eq h.nested, ?_, modifiable_hasFlatSubqueries.finish h.flat sign _⟩
  rw [← hleaves.ownReadings_eq]
  exact h.events

theorem hasFlatSubqueries_of_isSimple {n : Node} (h : n.isSimple = true) :
    n.hasFlatSubqueries = true := by
  cases n <;> simp_all [Node.isSimple, Node.hasFlatSubqueries]

theorem hasFlatSubqueries_filterOn (field : Text) (comparison : Option Comparison) {value : Node}
    (h : value.hasFlatSubqueries = true) :
    (filterOn field comparison value).hasFlatSubqueries = true := by
  simpa [filterOn, Node.hasFlatSubqueries] using h

theorem hasFlatSubqueries_subquery {nodes : List Node} (h : ∀ n ∈ nodes, n.isSimple = true) :
    (Node.subquery nodes {}).hasFlatSubqueries = true :=
  List.all_eq_true.mpr h

/-- After the start of a subquery: its reading comes to its own end, and is the one event there. -/
theorem Accounts.of_subquery (limits : Limits) {t : Token} {ts : List Token}
    (hk : t.kind = .subqueryStart) (hts : wellNested false (t :: ts) = true) {p : Traced}
    (h : Accounts (afterSubquery ts) p) :
    Accounts (t :: ts) { p with
      events := .read ts (traceBody limits none ts).rest :: (traceBody limits none ts).events ++
        p.events } := by
  have hencloses : Encloses ts := encloses_of_start hk hts
  obtain ⟨-, hrest, hnone⟩ := hencloses.traceBody limits
  refine ⟨h.nested, ?_, h.flat⟩
  rw [ownReadings, if_pos hk, hencloses.ends, hencloses.readings, hrest, hnone, ← h.events]
  rfl

/-- What a filter takes after its start. -/
theorem accounts_traceFilter (limits : Limits) (field : Text) (sign : Option Sign)
    (comparison : Option Comparison) {ts : List Token} (hts : wellNested false ts = true) :
    Accounts ts (traceFilter limits field sign comparison ts) := by
  have hvalue {value : Node} (hv : value.isSimple = true) (comparison : Option Comparison) :
      ∀ n ∈ [filterOn field comparison value], n.hasFlatSubqueries = true := by
    intro n hn
    obtain rfl := List.mem_singleton.mp hn
    exact hasFlatSubqueries_filterOn field comparison (hasFlatSubqueries_of_isSimple hv)
  fun_induction traceFilter limits field sign comparison ts with
  | case1 => exact .of_leavesBrackets hts (.refl []) (List.forall_mem_nil _)
  | case2 sign comparison t ts hk =>
    exact .of_leavesBrackets hts (.of_kind hk (by simp) (by simp) ts) (List.forall_mem_nil _)
  | case3 sign comparison t ts s hk ih | case6 sign comparison t ts hk ih
  | case9 sign comparison t ts b hk hnone ih =>
    have hleaves : LeavesBrackets (t :: ts) ts := .of_kind hk (by simp) (by simp) ts
    exact (ih (hleaves.wellNested_eq hts)).leaves hleaves
  | case4 sign comparison t ts hk equals ih | case5 sign comparison t ts hk equals ih =>
    have hleaves : LeavesBrackets (t :: ts) equals.2 :=
      (LeavesBrackets.of_kind hk (by simp) (by simp) ts).trans (.takeEquals ts)
    exact (ih (hleaves.wellNested_eq hts)).leaves hleaves
  -- a subquery: an empty one, and one with nodes
  | case7 sign comparison t ts hk body events hnil r ih =>
    have hencloses : Encloses ts := encloses_of_start hk hts
    have hrest : body.rest = afterSubquery ts := (hencloses.traceBody limits).2.1
    rw [hrest] at ih
    refine Accounts.of_subquery limits hk hts (p := r) ?_
    simpa only [r, hrest] using ih hencloses.after
  | case8 sign comparison t ts hk body events hne =>
    have hencloses : Encloses ts := encloses_of_start hk hts
    obtain ⟨hsimple, hrest, -⟩ := hencloses.traceBody limits
    have hflat := hasFlatSubqueries_filterOn field comparison (hasFlatSubqueries_subquery hsimple)
    have hafter : Accounts (afterSubquery ts)
        ⟨⟨[filterOn field comparison (.subquery body.nodes {})], sign,
          dropFilterEnd body.rest⟩, []⟩ :=
      .of_leavesBrackets hencloses.after (hrest ▸ .dropFilterEnd _)
        (by simpa only [List.mem_singleton, forall_eq] using hflat)
    simpa only [List.append_nil] using Accounts.of_subquery limits hk hts hafter
  -- a range: as the values of its bounds, and as one
  | case10 sign comparison t ts b hk ls rest hrange =>
    refine .of_leavesBrackets hts ?_ ?_
    · exact (LeavesBrackets.of_kind hk (by simp) (by simp) ts).trans
        ((LeavesBrackets.readRange? hrange).trans (.dropFilterEnd rest))
    · intro n hn
      exact hasFlatSubqueries_of_isSimple (isSimple_rangeReading (.leaves ls) n hn)
  | case11 sign comparison t ts b hk i rest hrange =>
    refine .of_leavesBrackets hts ?_ (hvalue rfl comparison)
    exact (LeavesBrackets.of_kind hk (by simp) (by simp) ts).trans
      ((LeavesBrackets.readRange? hrange).trans (.dropFilterEnd rest))
  -- a leaf: without a value of its kind, and with one
  | case12 sign comparison t ts hread _ _ _ _ _ _ _ hleaf ih =>
    have hleaves : LeavesBrackets (t :: ts) ts := by
      refine .cons ?_ ?_ (.refl ts) <;>
      · intro hk
        simp [hk, Kind.isLeaf] at hleaf
    exact (ih (hleaves.wellNested_eq hts)).leaves hleaves
  | case13 sign comparison t ts l rest hread _ _ _ _ _ _ _ hleaf =>
    refine .of_leavesBrackets hts ?_ (hvalue rfl comparison)
    refine .cons ?_ ?_ ((LeavesBrackets.readLeaf? hread).trans (.dropFilterEnd rest)) <;>
    · intro hk
      simp [hk, Kind.isLeaf] at hleaf
  | case14 sign comparison t ts =>
    exact .of_leavesBrackets hts (.refl _) (List.forall_mem_nil _)

/-- A token that is no bracket of a subquery and starts no filter leaves the brackets. -/
theorem leavesBrackets_step (sign : Option Sign) {t : Token} {ts : List Token}
    (hstart : t.kind ≠ .subqueryStart) (hend : t.kind ≠ .subqueryEnd)
    (hfilter : t.kind ≠ .filterStart) :
    LeavesBrackets (t :: ts) (step limits none sign t ts).rest := by
  refine .cons hstart hend ?_
  unfold step
  split
  · exact .refl ts
  · exact .refl ts
  · exact .refl ts
  · exact .refl ts
  · exact absurd ‹_› hstart
  · exact absurd ‹_› hfilter
  · split
    · exact .refl ts
    · rename_i hrange
      exact (LeavesBrackets.readRange? hrange).trans (.finish limits sign _ _)
  · exact .takeNumber ts
  · exact .takeNumber ts
  · split
    · exact .refl ts
    · rename_i hread
      exact (LeavesBrackets.readLeaf? hread).trans (.finish limits sign _ _)

/-- One step outside of subqueries. -/
theorem accounts_traceStep (sign : Option Sign) {t : Token} {ts : List Token}
    (hts : wellNested false (t :: ts) = true) :
    Accounts (t :: ts) (traceStep limits sign t ts) := by
  unfold traceStep
  split
  · -- no end comes up outside of subqueries
    rename_i hk
    simp [wellNested, hk] at hts
  · rename_i hk
    have hencloses : Encloses ts := encloses_of_start hk hts
    obtain ⟨hsimple, hrest, -⟩ := hencloses.traceBody limits
    have hflat : ∀ n ∈ subqueryNodes (traceBody limits none ts).nodes,
        n.hasFlatSubqueries = true := by
      unfold subqueryNodes
      split
      · simp
      · simpa only [List.mem_singleton, forall_eq] using hasFlatSubqueries_subquery hsimple
    have hafter : Accounts (afterSubquery ts)
        ⟨⟨subqueryNodes (traceBody limits none ts).nodes, sign,
          (traceBody limits none ts).rest⟩, []⟩ :=
      .of_leavesBrackets hencloses.after (hrest ▸ .refl _) hflat
    simpa only [List.append_nil] using
      (Accounts.of_subquery limits hk hts hafter).finish limits sign
  · rename_i hk
    have hleaves : LeavesBrackets (t :: ts) ts := .of_kind hk (by simp) (by simp) ts
    have hfilter := accounts_traceFilter limits (t.text?.getD []) sign none
      (hleaves.wellNested_eq hts)
    exact (hfilter.leaves hleaves).finish limits _
  · rename_i hend hstart hfilter
    exact .of_leavesBrackets hts (leavesBrackets_step sign hstart hend hfilter) fun n hn =>
      hasFlatSubqueries_of_isSimple (isSimple_step sign hfilter ts n hn)

/-! ## Whole queries -/

/-- A trace of well-nested tokens reads each subquery up to its own end, passes over no bracket of
one, and gives flat subqueries. -/
theorem trace_of_wellNested (limits : Limits) (sign : Option Sign) {ts : List Token}
    (hts : wellNested false ts = true) :
    (trace limits sign ts).2.map some = ownReadings ts ∧
      ∀ n ∈ (trace limits sign ts).1, n.hasFlatSubqueries = true := by
  fun_induction trace limits sign ts with
  | case1 sign => exact ⟨rfl, List.forall_mem_nil _⟩
  | case2 sign t ts p r ih =>
    have hstep : Accounts (t :: ts) p := accounts_traceStep sign hts
    obtain ⟨hevents, hflat⟩ := ih hstep.nested
    refine ⟨?_, fun n hn => ?_⟩
    · rw [List.map_append, hevents, hstep.events]
    · exact (List.mem_append.mp hn).elim (hstep.flat n) (hflat n)

/-- **The parser reads the subqueries that the scanner made.** Moving along a scan it reads each
subquery once, from its start to its own end, and passes over none of their brackets; so the
subqueries of a query are made of leaves and ranges. -/
theorem trace_scan (limits : Limits) (q : Text) :
    (trace limits none (scan q)).1 = parse limits q ∧
      (trace limits none (scan q)).2.map some = ownReadings (scan q) ∧
      (parse limits q).all Node.hasFlatSubqueries = true := by
  obtain ⟨hevents, hflat⟩ := trace_of_wellNested limits none (wellNested_scan q)
  have hnodes : (trace limits none (scan q)).1 = parse limits q := fst_trace limits (scan q)
  refine ⟨hnodes, hevents, List.all_eq_true.mpr ?_⟩
  rw [← hnodes]
  exact hflat

end SearchLang.Query
