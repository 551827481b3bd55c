import SearchLang.Proofs.Parse.Extent
import SearchLang.Query.Trace

/-!
# What a trace records

A trace gives the nodes of `parseTokens`, for all tokens (`fst_trace`): cutting the
body of a subquery out of the tokens, and reading it off their front, come to the
same, because no reader inside a subquery takes its end or anything after it.
-/

namespace SearchLang.Query

variable {limits : Limits}

/-! ## Bodies -/

/-- The tokens of a subquery, and what comes from its end on. -/
theorem exists_subqueryBody_append (ts : List Token) :
    ∃ us, ts = subqueryBody ts ++ us ∧ (∀ u ∈ us.head?, u.kind = .subqueryEnd) ∧
      afterSubquery ts = us.drop 1 := by
  refine ⟨ts.dropWhile fun t => t.kind != .subqueryEnd, ?_, ?_, rfl⟩
  · exact (List.takeWhile_append_dropWhile).symm
  · intro u hu
    have hnot := List.head?_dropWhile_not (fun t : Token => t.kind != .subqueryEnd) ts
    rw [Option.mem_def.mp hu] at hnot
    simpa using hnot

theorem kind_ne_of_mem_subqueryBody {t : Token} {ts : List Token} (h : t ∈ subqueryBody ts) :
    t.kind ≠ .subqueryEnd := by
  have hall := List.all_eq_true.mp (List.all_takeWhile (l := ts)) t h
  simpa using hall

/-- Where no subqueries are read, nothing has to close. -/
theorem closes_none (ts : List Token) : Closes none ts :=
  nofun

/-- Inside a subquery a step takes nothing from its end on. -/
theorem step_append_subqueryEnd (sign : Option Sign) (t : Token) (ts : List Token)
    {us : List Token} (hus : ∀ u ∈ us.head?, u.kind = .subqueryEnd) :
    step limits none sign t (ts ++ us) = (step limits none sign t ts).followedBy us :=
  (leftAlone_of_subqueryEnd hus).step_append sign (closes_none _)
    fun _ => .inl fun u hu => .inr (hus u hu)

/-- Reading a body off the front of some tokens gives the nodes of the body alone. -/
theorem traceBody_append (limits : Limits) (sign : Option Sign) {ts us : List Token}
    (hts : ∀ t ∈ ts, t.kind ≠ .subqueryEnd) (hus : ∀ u ∈ us.head?, u.kind = .subqueryEnd) :
    (traceBody limits sign (ts ++ us)).nodes = sequence limits none sign ts ∧
      (traceBody limits sign (ts ++ us)).rest = us.drop 1 := by
  fun_induction sequence limits none sign ts with
  | case1 sign =>
    cases us with
    | nil => simp [traceBody]
    | cons u us => simp [traceBody, hus u rfl]
  | case2 sign t ts p ih =>
    have hrest : ∀ u ∈ p.rest, u.kind ≠ .subqueryEnd := fun u hu =>
      hts u (.tail _ ((step_suffix limits none sign t ts).subset hu))
    obtain ⟨hnodes, hleft⟩ := ih hrest
    rw [List.cons_append, traceBody, if_neg (hts t (by simp)),
      step_append_subqueryEnd sign t ts hus]
    simp only [Progress.followedBy]
    exact ⟨by rw [hnodes], hleft⟩

theorem traceBody_eq (limits : Limits) (ts : List Token) :
    (traceBody limits none ts).nodes = parseBody limits (subqueryBody ts) ∧
      (traceBody limits none ts).rest = afterSubquery ts := by
  obtain ⟨us, hts, hus, hafter⟩ := exists_subqueryBody_append ts
  have hbody : ∀ t ∈ subqueryBody ts, t.kind ≠ .subqueryEnd := fun _ =>
    kind_ne_of_mem_subqueryBody
  have hread := traceBody_append limits none hbody hus
  rw [← hts, ← hafter] at hread
  exact hread

/-! ## Filters, steps and sequences -/

theorem traceFilter_toProgress (field : Text) (sign : Option Sign)
    (comparison : Option Comparison) (ts : List Token) :
    (traceFilter limits field sign comparison ts).toProgress =
      readFilter (some (parseBody limits)) field sign comparison ts := by
  fun_induction traceFilter limits field sign comparison ts with
  | case1 => rw [readFilter]
  | case2 sign comparison t ts hk => simp [readFilter.eq_def _ _ _ _ (t :: ts), hk]
  | case3 sign comparison t ts s hk ih | case6 sign comparison t ts hk ih =>
    rw [ih, readFilter.eq_def _ _ _ _ (t :: ts)]
    simp only [hk]
  | case4 sign comparison t ts hk equals ih | case5 sign comparison t ts hk equals ih =>
    rw [ih, readFilter.eq_def _ _ _ _ (t :: ts)]
    simp only [hk, equals]
  -- a subquery: an empty one, and one with nodes
  | case7 sign comparison t ts hk body events hnil r ih =>
    obtain ⟨hnodes, hrest⟩ := traceBody_eq limits ts
    rw [hrest] at ih
    simp only [body, hnodes] at hnil
    rw [readFilter.eq_def _ _ _ _ (t :: ts)]
    simp only [hk, hnil, ← ih, r, body, hrest]
  | case8 sign comparison t ts hk body events hne =>
    obtain ⟨hnodes, hrest⟩ := traceBody_eq limits ts
    simp only [body, hnodes] at hne
    rw [readFilter.eq_def _ _ _ _ (t :: ts)]
    simp only [hk, body, hnodes, hrest]
  -- a range: without an end, as the values of its bounds, and as one
  | case9 sign comparison t ts b hk hnone ih =>
    rw [ih, readFilter.eq_def _ _ _ _ (t :: ts)]
    simp only [hk, hnone]
  | case10 sign comparison t ts b hk ls rest hrange
  | case11 sign comparison t ts b hk i rest hrange =>
    rw [readFilter.eq_def _ _ _ _ (t :: ts)]
    simp only [hk, hrange]
  -- a leaf: without a value of its kind, and with one
  | case12 sign comparison t ts hread _ _ _ _ _ _ _ hleaf ih =>
    rw [ih, readFilter_leaf _ _ _ _ hleaf, hread]
  | case13 sign comparison t ts l rest hread _ _ _ _ _ _ _ hleaf =>
    rw [readFilter_leaf _ _ _ _ hleaf, hread]
  | case14 sign comparison t ts =>
    rw [readFilter.eq_def _ _ _ _ (t :: ts)]
    cases hk : t.kind <;> simp_all [Kind.isLeaf]

theorem traceStep_toProgress (sign : Option Sign) (t : Token) (ts : List Token) :
    (traceStep limits sign t ts).toProgress =
      step limits (some (parseBody limits)) sign t ts := by
  unfold traceStep
  split
  · rename_i hk
    simp [step, hk]
  · rename_i hk
    obtain ⟨hnodes, hrest⟩ := traceBody_eq limits ts
    simp only [step, hk, hnodes, hrest]
  · rename_i hk
    simp only [step, hk, traceFilter_toProgress]
  · -- no other token leads to a subquery
    cases hk : t.kind <;> simp_all [step]

/-- **The parser that moves along the tokens gives the nodes of the one that cuts them.** -/
theorem fst_trace (limits : Limits) (ts : List Token) :
    (trace limits none ts).1 = parseTokens limits ts := by
  have hsequence (sign : Option Sign) : (trace limits sign ts).1 =
      sequence limits (some (parseBody limits)) sign ts := by
    fun_induction trace limits sign ts with
    | case1 sign => rw [sequence]
    | case2 sign t ts p r ih =>
      rw [sequence, ← traceStep_toProgress]
      simp only [p, r, ih]
  exact hsequence none

end SearchLang.Query
