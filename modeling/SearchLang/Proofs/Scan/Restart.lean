import SearchLang.Proofs.Scan.Join

/-!
# Scanning anew

A scan looks no further back than its newest token. Behind a space, with nothing
open, it goes on as the scan of a new query would, on top of the tokens that it
has (`run_onto`). So the tokens of two queries with a space between them are the
tokens of the one and then those of the other (`scan_append_space`).
-/

namespace SearchLang.Scan

/-- The scan with older tokens below its own. -/
def onto (s : Scan) (old : List Token) : Scan :=
  { s with tokens := s.tokens ++ old }

@[simp] theorem inFilter_onto (s : Scan) (old : List Token) :
    (s.onto old).inFilter = s.inFilter := rfl

@[simp] theorem inSubquery_onto (s : Scan) (old : List Token) :
    (s.onto old).inSubquery = s.inSubquery := rfl

@[simp] theorem range_onto (s : Scan) (old : List Token) : (s.onto old).range = s.range := rfl

theorem ite_onto (p : Prop) [Decidable p] (s s' : Scan) (old : List Token) :
    (if p then s else s').onto old = if p then s.onto old else s'.onto old :=
  apply_ite (onto · old) p s s'

/-- Tokens on top of which a scan may start: none, or some of which the newest is a space. -/
def EndsInSpace (old : List Token) : Prop :=
  ∀ t ∈ old.head?, t.kind = .whitespace

theorem endsInSpace_of_lastKind {s : Scan} (h : s.lastKind = .whitespace) :
    EndsInSpace s.tokens := by
  intro t ht
  obtain ⟨rest, hrest⟩ := List.head?_eq_some_iff.mp ht
  rwa [lastKind, hrest] at h

section Onto

variable {old : List Token} (hold : EndsInSpace old)

include hold

/-! ## Single operations -/

theorem lastKind_onto (s : Scan) : (s.onto old).lastKind = s.lastKind := by
  obtain ⟨tokens, inFilter, inSubquery, range⟩ := s
  cases tokens with
  | cons t rest => rfl
  | nil =>
    cases old with
    | nil => rfl
    | cons t rest => exact hold t rfl

theorem addOnce_onto (s : Scan) (k : Kind) : (s.onto old).addOnce k = (s.addOnce k).onto old := by
  unfold addOnce
  rw [lastKind_onto hold]
  split <;> rfl

theorem closeFilter_onto (s : Scan) : (s.onto old).closeFilter = s.closeFilter.onto old :=
  addOnce_onto hold { s with inFilter := false } .filterEnd

/-- A word is glued onto a word of its own scan only, as the newest of the older tokens is a
space. -/
theorem addWord_onto (s : Scan) (w : Text) : (s.onto old).addWord w = (s.addWord w).onto old := by
  by_cases hword : s.lastKind = .word
  · obtain ⟨tokens, inFilter, inSubquery, range⟩ := s
    obtain _ | ⟨⟨kind, literal⟩, rest⟩ := tokens
    · simp [lastKind] at hword
    · obtain rfl : kind = .word := hword
      obtain _ | ⟨n | before⟩ := literal
      · rfl
      · rfl
      · simp only [onto, addWord, List.cons_append]
        split <;> rfl
  · rw [addWord_eq_push hword, addWord_eq_push (by rwa [lastKind_onto hold])]
    rfl

/-! ## Symbols -/

theorem addModifier_onto (s : Scan) (m : Modifier) :
    (s.onto old).addModifier m = (s.addModifier m).onto old := by
  simp only [addModifier, lastKind_onto hold, closeFilter_onto hold, addOnce_onto hold,
    inFilter_onto, inSubquery_onto, range_onto, ite_onto]

theorem openRange_onto (s : Scan) (b : Bracket) :
    (s.onto old).openRange b = (s.openRange b).onto old := by
  have hstart := addOnce_onto hold { s with range := some b } (.rangeStart b)
  simp only [openRange, inFilter_onto, range_onto, ite_onto, ← hstart]
  rfl

theorem closeRange_onto (s : Scan) : (s.onto old).closeRange = s.closeRange.onto old := by
  unfold closeRange
  rw [range_onto]
  cases s.range with
  | none => rfl
  | some b =>
    simp only [addOnce_onto hold]
    exact closeFilter_onto hold { s.addOnce (.rangeEnd b) with range := none }

omit hold in
theorem openSubquery_onto (s : Scan) : (s.onto old).openSubquery = s.openSubquery.onto old := by
  simp only [openSubquery, inSubquery_onto, range_onto, ite_onto]
  rfl

theorem closeSubquery_onto (s : Scan) : (s.onto old).closeSubquery = s.closeSubquery.onto old := by
  have hend := closeFilter_onto hold ({ s with inSubquery := false }.add (.mark .subqueryEnd))
  simp only [closeSubquery, inSubquery_onto, range_onto, ite_onto, ← hend]
  rfl

theorem symbol_onto (s : Scan) (symbol : Symbol) :
    (s.onto old).symbol symbol = (s.symbol symbol).onto old := by
  cases symbol with
  | sign sign => exact addOnce_onto hold s (.sign sign)
  | greater | less | equals | upTo =>
    simp only [Scan.symbol, inFilter_onto, range_onto, lastKind_onto hold, addOnce_onto hold,
      ite_onto]
  | modifier m => exact addModifier_onto hold s m
  | rangeStart b => exact openRange_onto hold s b
  | rangeEnd => exact closeRange_onto hold s
  | subqueryStart => exact openSubquery_onto s
  | subqueryEnd => exact closeSubquery_onto hold s
  | wildcard => exact addOnce_onto hold s .wildcard
  | or => exact addOnce_onto hold s .or
  | and => exact addOnce_onto hold s .and
  | letter c => exact addWord_onto hold s [c]
  | stray c => rfl

/-! ## Chunks -/

theorem takeSign_onto (s : Scan) (value : Text) :
    (s.onto old).takeSign value = ((s.takeSign value).1.onto old, (s.takeSign value).2) := by
  unfold takeSign
  split <;> simp only [addOnce_onto hold]

theorem atClauseStart_onto (s : Scan) : (s.onto old).atClauseStart = s.atClauseStart := by
  simp only [atClauseStart, inFilter_onto, inSubquery_onto, lastKind_onto hold]

theorem addPlain_onto (s : Scan) (value : Text) :
    (s.onto old).addPlain value = (s.addPlain value).onto old := by
  simp only [addPlain, addWord_onto hold, addOnce_onto hold, ite_onto]
  rfl

/-- The body of a chunk is sorted alike, if the halves of one with two dots are. -/
theorem sortBody_onto (s : Scan) {body : Text}
    (hhalves : ∀ lower upper, Text.splitAtDots body = some (lower, upper) → ∀ s : Scan,
      (s.onto old).chunk lower = (s.chunk lower).onto old ∧
        (s.onto old).chunk upper = (s.chunk upper).onto old) :
    (s.onto old).sortBody body = (s.sortBody body).onto old := by
  unfold sortBody
  cases standaloneForm? body with
  | some form => rfl
  | none =>
    simp only [atClauseStart_onto hold]
    split
    · rfl
    · split
      · rfl
      · cases hdots : Text.splitAtDots body with
        | some halves =>
          obtain ⟨lower, upper⟩ := halves
          simp only [(hhalves lower upper hdots _).1, symbol_onto hold,
            (hhalves lower upper hdots _).2]
        | none =>
          cases taggedForm? body with
          | some form => rfl
          | none => exact addPlain_onto hold s body

/-- A chunk is scanned alike on top of older tokens. -/
theorem chunk_onto (s : Scan) (value : Text) :
    (s.onto old).chunk value = (s.chunk value).onto old := by
  -- the halves of a chunk with two dots are shorter chunks
  induction hlen : value.length using Nat.strongRecOn generalizing s value with
  | ind n ih =>
    subst hlen
    by_cases hne : value = []
    · rw [chunk, chunk, if_pos hne, if_pos hne]
      exact addOnce_onto hold s .whitespace
    · cases hnumber : number? value with
      | some n =>
        rw [chunk, chunk, if_neg hne, if_neg hne, hnumber]
        rfl
      | none =>
        cases hsymbol : Symbol.ofChunk? value with
        | some symbol =>
          rw [chunk, chunk, if_neg hne, if_neg hne, hnumber, hsymbol]
          exact symbol_onto hold s symbol
        | none =>
          rw [chunk_eq_sortBody hne hnumber hsymbol, chunk_eq_sortBody hne hnumber hsymbol,
            takeSign_onto hold]
          refine sortBody_onto hold _ fun lower upper hdots s' => ?_
          have hbody := length_takeSign_le s value
          have hhalves := congrArg List.length (Text.append_of_splitAtDots hdots)
          simp only [List.length_append, List.length_cons] at hhalves
          exact ⟨ih lower.length (by omega) s' lower rfl, ih upper.length (by omega) s' upper rfl⟩

/-! ## Runs -/

theorem settle_onto (s : Scan) : (s.onto old).settle = s.settle.onto old := by
  simp only [settle, lastKind_onto hold, inFilter_onto, inSubquery_onto, range_onto,
    closeFilter_onto hold, ite_onto]

theorem step_onto (s : Scan) (piece : Text) : (s.onto old).step piece = (s.step piece).onto old := by
  rw [step, chunk_onto hold, settle_onto hold, ← step]

/-- **A run on top of older tokens leaves them as they are**, and is the run without them. -/
theorem run_onto (s : Scan) (pieces : List Text) :
    (s.onto old).run pieces = (s.run pieces).onto old := by
  induction pieces generalizing s with
  | nil => rfl
  | cons piece rest ih =>
    show ((s.onto old).step piece).run rest = ((s.step piece).run rest).onto old
    rw [step_onto hold, ih]

theorem close_onto (s : Scan) : (s.onto old).close = s.close.onto old := by
  have hend := closeFilter_onto hold ({ s with inSubquery := false }.add (.mark .subqueryEnd))
  cases hsubquery : s.inSubquery with
  | false =>
    rw [close_of_not_inSubquery (s := s.onto old) hsubquery, close_of_not_inSubquery hsubquery,
      closeFilter_onto hold, inFilter_onto, ite_onto]
  | true =>
    rw [close_of_inSubquery (s := s.onto old) hsubquery, close_of_inSubquery hsubquery,
      close_of_not_inSubquery rfl, close_of_not_inSubquery rfl, ite_onto, ← hend]
    rfl

theorem result_onto (s : Scan) : (s.onto old).result = old.reverse.filter isKept ++ s.result := by
  rw [result, close_onto hold, result, onto]
  simp

end Onto

/-! ## Two queries -/

/-- A query whose tokens do not end with the end of a filter has no filter open at its end. -/
theorem inFilter_ofQuery_eq_false {q : Text}
    (h : (scan q).getLast?.map Token.kind ≠ some .filterEnd) : (ofQuery q).inFilter = false := by
  rw [Bool.eq_false_iff]
  intro hfilter
  refine h ?_
  have hlast : (ofQuery q).close.lastKind = .filterEnd := by
    cases hsubquery : (ofQuery q).inSubquery with
    | false =>
      rw [close_of_not_inSubquery hsubquery, if_pos hfilter]
      exact lastKind_closeFilter _
    | true =>
      rw [close_of_inSubquery hsubquery, close_of_not_inSubquery rfl]
      exact (if_pos hfilter).symm ▸ lastKind_closeFilter _
  have hkinds := getLast?_kinds hlast (by simp) (by simp)
  rwa [kinds, List.getLast?_map] at hkinds

/-- The first chunk of every query is a space. -/
theorem exists_ofQuery_cons (q : Text) : ∃ pieces, Chunk.ofQuery q = [' '] :: pieces := by
  obtain ⟨after, hafter⟩ := Text.exists_collapseBlanks_cons (c := ' ') rfl q
  exact ⟨_, by rw [Chunk.ofQuery, hafter, Chunk.split_space]⟩

/-- **Scanning is compositional at spaces.** The tokens of two queries with a space between them
are the tokens of the one and then those of the other, if the first one has neither quotes nor
links in it and ends outside of subqueries and not with a filter. -/
theorem scan_append_space {a : Text} (hquote : '"' ∉ a) (hlink : ¬ "://".toList <:+: a)
    (hsubquery : (ofQuery a).inSubquery = false)
    (hend : (scan a).getLast?.map Token.kind ≠ some .filterEnd) (b : Text) :
    scan (a ++ ' ' :: b) = scan a ++ scan b := by
  have hbracketed : (ofQuery a).Bracketed := run_invariant bracketed_invariant .init _
  have hrange : (ofQuery a).range = none := by
    cases hr : (ofQuery a).range with
    | none => rfl
    | some r =>
      have hfilter := hbracketed.filter_of_range (by simp [hr])
      simp [inFilter_ofQuery_eq_false hend] at hfilter
  obtain ⟨s, hs, hjoin⟩ := exists_settled_append_space hquote hlink hsubquery hrange
  -- the newest token is the space, as the tokens so far do not end with a filter
  have hspace : EndsInSpace s.tokens := by
    refine endsInSpace_of_lastKind (hs.last.resolve_right fun hfilter => hend ?_)
    have hkinds := getLast?_kinds hfilter (by simp) (by simp)
    rwa [kinds, List.getLast?_map, ← kept, hs.kept] at hkinds
  have honto : s = ({} : Scan).onto s.tokens := by
    obtain ⟨tokens, inFilter, inSubquery, range⟩ := s
    obtain ⟨-, rfl, rfl, rfl, -⟩ := hs
    rfl
  obtain ⟨pieces, hpieces⟩ := exists_ofQuery_cons b
  have hb : ofQuery b = ({} : Scan).run pieces := by
    rw [ofQuery, hpieces]
    show (({} : Scan).step [' ']).run pieces = _
    rw [step_space]
    rfl
  calc scan (a ++ ' ' :: b)
      = (s.run pieces).result := by rw [scan, hjoin b pieces hpieces]
    _ = ((({} : Scan).run pieces).onto s.tokens).result := by rw [← run_onto hspace, ← honto]
    _ = s.tokens.reverse.filter isKept ++ (({} : Scan).run pieces).result := result_onto hspace _
    _ = scan a ++ scan b := by rw [← kept, hs.kept, ← hb, ← scan]

/-- Signs, a subquery, a filter that a modifier ends, a mention, and a bracket out of place. -/
def openSample : Text :=
  "+f:x^2 (a~ b) :-( @u.v!, [1..5 -word*".toList

/-- A filter on a range, a phrase, a link, and a subquery without an end. -/
def nextSample : Text :=
  "\t^g:\x7b1 TO *] \"p q\" x://y/z (c".toList

theorem scan_append_space_samples :
    ('"' ∉ openSample ∧ ¬ "://".toList <:+: openSample ∧
      (ofQuery openSample).inSubquery = false ∧
      (scan openSample).getLast?.map Token.kind ≠ some .filterEnd) ∧
    scan (openSample ++ ' ' :: nextSample) = scan openSample ++ scan nextSample := by
  have hquote : '"' ∉ openSample := by decide
  have hlink : ¬ "://".toList <:+: openSample := by decide +kernel
  have hsubquery : (ofQuery openSample).inSubquery = false := by decide +kernel
  have hend : (scan openSample).getLast?.map Token.kind ≠ some .filterEnd := by decide +kernel
  exact ⟨⟨hquote, hlink, hsubquery, hend⟩,
    scan_append_space hquote hlink hsubquery hend nextSample⟩

end SearchLang.Scan
