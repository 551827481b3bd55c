import SearchLang.Proofs.Parse.Extent

/-!
# Connectives

AND and OR carry no structure. Where no reader would take the token after one, or
the number after a modifier before it, the tokens stand for the same with the
connective and without it (`parseTokens_connective`). A sign goes on waiting, a
subquery stays open, and no two nodes become one.
-/

namespace SearchLang.Query

/-- A connective between two tokens that are as far apart without it: what is before it is no
modifier, and what is after it no wildcard and no modifier. -/
structure Separates (c : Token) (before after : List Token) : Prop where
  connective : c.kind = .and ∨ c.kind = .or
  before : ∀ t ∈ before.getLast?, t.kind ≠ .boost ∧ t.kind ≠ .fuzzy
  after : ∀ t ∈ after.head?, t.kind ≠ .wildcard ∧ t.kind ≠ .boost ∧ t.kind ≠ .fuzzy

/-- Tokens without filters and ranges. -/
def IsFlat (ts : List Token) : Prop :=
  ∀ t ∈ ts, t.kind ≠ .filterStart ∧ ∀ b, t.kind ≠ .rangeStart b

namespace Separates

variable {c : Token} {before after : List Token} (h : Separates c before after)

include h

/-- Without the connective the tokens are apart. -/
theorem apart : Apart before after where
  head := fun t ht => by simpa using h.after t ht
  number := .inr h.before

/-- With the connective, too. -/
theorem apart_cons : Apart before (c :: after) where
  head := fun t ht => by
    obtain rfl : c = t := by simpa using ht
    rcases h.connective with hk | hk <;> simp [hk]
  number := .inr h.before

theorem ne_subqueryEnd : c.kind ≠ .subqueryEnd := by
  rcases h.connective with hk | hk <;> simp [hk]

/-- A connective separates what is left of the tokens before it. -/
theorem of_suffix {rest : List Token} (hsuffix : rest <:+ before) : Separates c rest after where
  connective := h.connective
  before := by
    intro t ht
    obtain ⟨read, rfl⟩ := hsuffix
    refine h.before t ?_
    rw [List.getLast?_append, Option.mem_def.mp ht]
    rfl
  after := h.after

/-- A connective in an open subquery separates the tokens of its body. -/
theorem subqueryBody : Separates c before (subqueryBody after) where
  connective := h.connective
  before := h.before
  after := by
    intro t ht
    refine h.after t ?_
    cases after with
    | nil => simp [Query.subqueryBody] at ht
    | cons u us =>
      rw [Query.subqueryBody, List.takeWhile_cons] at ht
      split at ht
      · exact ht
      · simp at ht

end Separates

/-- A subquery that does not end in some tokens goes on in those after them. -/
theorem subqueryBody_append_of_forall {ts : List Token} (h : ∀ t ∈ ts, t.kind ≠ .subqueryEnd)
    (us : List Token) : subqueryBody (ts ++ us) = ts ++ subqueryBody us ∧
      afterSubquery (ts ++ us) = afterSubquery us := by
  have hpass : ∀ t ∈ ts, (t.kind != .subqueryEnd) = true := by simpa using h
  exact ⟨List.takeWhile_append_of_pos hpass,
    congrArg (List.drop 1) (List.dropWhile_append_of_pos hpass)⟩

variable {limits : Limits} {c : Token} {after : List Token}

/-- Whether a connective makes no difference in the bodies of subqueries. -/
def BodyDrops (body? : Option BodyParser) (c : Token) : Prop :=
  ∀ body ∈ body?, ∀ before after, Separates c before after → IsFlat before →
    body (before ++ c :: after) = body (before ++ after)

/-- In a subquery that ends after the connective, the connective is part of the body. -/
theorem step_connective_of_open {body? : Option BodyParser} (hbody : BodyDrops body? c)
    (sign : Option Sign) {t : Token} {ts : List Token} (h : Separates c ts after) (hflat : IsFlat ts)
    (ht : t.kind = .subqueryStart) (hopen : ∀ u ∈ ts, u.kind ≠ .subqueryEnd)
    (hsome : body?.isSome = true) :
    step limits body? sign t (ts ++ c :: after) = step limits body? sign t (ts ++ after) := by
  obtain ⟨body, rfl⟩ := Option.isSome_iff_exists.mp hsome
  have hopen' : ∀ u ∈ ts ++ [c], u.kind ≠ .subqueryEnd := by
    intro u hu
    rcases List.mem_append.mp hu with hu | hu
    · exact hopen u hu
    · exact List.mem_singleton.mp hu ▸ h.ne_subqueryEnd
  obtain ⟨hspan, hrest⟩ := subqueryBody_append_of_forall hopen after
  obtain ⟨hspan', hrest'⟩ := subqueryBody_append_of_forall hopen' after
  simp only [List.append_assoc, List.singleton_append] at hspan' hrest'
  simp only [step, ht, hspan, hrest, hspan', hrest',
    hbody body rfl ts (subqueryBody after) h.subqueryBody hflat]

/-- **A connective makes no difference** to the nodes of a sequence, as long as a step never reads
across it but in a subquery. -/
theorem sequence_connective {body? : Option BodyParser} (hbody : BodyDrops body? c)
    (sign : Option Sign) {before : List Token} (h : Separates c before after)
    (hflat : IsFlat before) :
    sequence limits body? sign (before ++ c :: after) =
      sequence limits body? sign (before ++ after) := by
  fun_induction sequence limits body? sign before with
  | case1 sign =>
    have hskip : step limits body? sign c after = ⟨[], sign, after⟩ := by
      rcases h.connective with hk | hk <;> simp [step, hk]
    rw [List.nil_append, List.nil_append, sequence_cons, hskip, List.nil_append]
  | case2 sign t ts p ih =>
    have htail := h.of_suffix (List.suffix_cons t ts)
    have hflat' : IsFlat ts := fun u hu => hflat u (List.mem_cons_of_mem t hu)
    obtain ⟨hfilter, hrange⟩ := hflat t (by simp)
    by_cases hopen : t.kind = .subqueryStart ∧ body?.isSome = true ∧
        ∀ u ∈ ts, u.kind ≠ .subqueryEnd
    · obtain ⟨ht, hsome, hends⟩ := hopen
      rw [List.cons_append, List.cons_append, sequence_cons, sequence_cons,
        step_connective_of_open hbody sign htail hflat' ht hends hsome]
    · -- the step stays in the tokens before the connective
      have hsubquery : body?.isSome = true → t.kind = .subqueryStart →
          ∃ u ∈ ts, u.kind = .subqueryEnd := by
        intro hsome ht
        have hends : ¬ ∀ u ∈ ts, u.kind ≠ .subqueryEnd := fun hends => hopen ⟨ht, hsome, hends⟩
        simpa using hends
      have hstep {us : List Token} (hus : Apart (t :: ts) us) :
          step limits body? sign t (ts ++ us) = p.followedBy us :=
        step_append sign hus hsubquery (fun b hk => absurd hk (hrange b))
          fun hk => absurd hk hfilter
      have hsuffix : p.rest <:+ ts := step_suffix limits body? sign t ts
      have hrest := ih (htail.of_suffix hsuffix) fun u hu => hflat' u (hsuffix.subset hu)
      rw [List.cons_append, List.cons_append, sequence_cons, sequence_cons, hstep h.apart,
        hstep h.apart_cons]
      exact congrArg _ hrest

theorem bodyDrops_none (c : Token) : BodyDrops none c :=
  fun _ h => nomatch h

theorem bodyDrops_parseBody (limits : Limits) (c : Token) : BodyDrops (some (parseBody limits)) c := by
  rintro body ⟨⟩ before after h hflat
  exact sequence_connective (bodyDrops_none c) none h hflat

/-- **AND and OR carry no structure.** A connective may be left out wherever it stands, inside of a
subquery too, if no filter and no range starts before it, no modifier stands directly before it, and
no modifier or wildcard directly after it. -/
theorem parseTokens_connective (limits : Limits) {c : Token} {before after : List Token}
    (h : Separates c before after) (hflat : IsFlat before) :
    parseTokens limits (before ++ c :: after) = parseTokens limits (before ++ after) :=
  sequence_connective (bodyDrops_parseBody limits c) none h hflat

/-- A subquery that is open, with a sign before it and a number after its last modifier. -/
def openSubquery : List Token := [
  .mark (.sign .required), .mark .subqueryStart, .mark (.sign .prohibited),
  .ofText .word ['x'], .mark .fuzzy, .ofNumber .two]

/-- The end of a subquery, and a filter behind it. -/
def endOfSubquery : List Token := [
  .ofNumber .ten, .mark .subqueryEnd, .ofText .filterStart ['f'], .ofText .word ['y']]

theorem parseTokens_connective_openSubquery :
    (Separates (.mark .or) openSubquery endOfSubquery ∧ IsFlat openSubquery) ∧
    parseTokens {} (openSubquery ++ .mark .or :: endOfSubquery) =
      parseTokens {} (openSubquery ++ endOfSubquery) := by
  have hseparates : Separates (.mark .or) openSubquery endOfSubquery := by
    refine ⟨.inr rfl, ?_, ?_⟩
    · rintro t ⟨⟩
      decide
    · rintro t ⟨⟩
      decide
  have hflat : IsFlat openSubquery := by
    simp [IsFlat, openSubquery, Token.mark, Token.ofText, Token.ofNumber]
  exact ⟨⟨hseparates, hflat⟩, parseTokens_connective {} hseparates hflat⟩

end SearchLang.Query
