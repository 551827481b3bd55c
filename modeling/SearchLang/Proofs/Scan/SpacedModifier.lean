import SearchLang.Proofs.Chunk.LastMark
import SearchLang.Proofs.Scan.Join
import SearchLang.Proofs.Scan.TokenLaw

/-!
# Modifiers after a space

A boost or fuzzy sign after a space has nothing to modify and is dropped, as long
as the space is what the scan saw last. It is not where the space ended a filter,
whose end comes after it, nor where a link has taken the space in.
`scan_append_modifier_iff` says that the sign is dropped unless one of the two is
the case, and that it is kept then outside of ranges.
-/

namespace SearchLang

namespace Scan

open Pattern Chunk

/-! ## Counting tokens -/

/-- How many tokens of a kind there are so far. -/
def count (s : Scan) (k : Kind) : Nat :=
  s.tokens.countP fun t => t.kind == k

theorem count_add (s : Scan) (t : Token) (k : Kind) :
    (s.add t).count k = s.count k + if t.kind = k then 1 else 0 := by
  simp [count, add, List.countP_cons]

theorem count_addOnce_of_ne {k k' : Kind} (h : k' ≠ k) (s : Scan) :
    (s.addOnce k').count k = s.count k := by
  unfold addOnce
  split
  · rfl
  · simp [count_add, h]

theorem count_closeFilter {k : Kind} (h : k ≠ .filterEnd) (s : Scan) :
    s.closeFilter.count k = s.count k :=
  count_addOnce_of_ne h.symm { s with inFilter := false }

/-- Closing what is open adds ends of filters and subqueries only. -/
theorem count_close {k : Kind} (hfilter : k ≠ .filterEnd) (hsubquery : k ≠ .subqueryEnd) (s : Scan) :
    s.close.count k = s.count k := by
  have hend : ({ s with inSubquery := false }.add (.mark .subqueryEnd)).count k = s.count k := by
    rw [count_add, Token.kind_mark, if_neg hsubquery.symm]
    rfl
  unfold close
  simp only
  split <;> split
  · rw [count_closeFilter hfilter, hend]
  · exact hend
  · exact count_closeFilter hfilter s
  · rfl

theorem countP_result (s : Scan) (m : Modifier) :
    s.result.countP (fun t => t.kind == m.kind) = s.count m.kind := by
  have hclose : s.close.count m.kind = s.count m.kind := by
    cases m <;> exact count_close (by simp [Modifier.kind]) (by simp [Modifier.kind]) s
  have hkept : ∀ t : Token, (t.kind == m.kind && isKept t) = (t.kind == m.kind) := by
    intro t
    by_cases ht : t.kind = m.kind
    · cases m <;> simp [isKept, ht, Modifier.kind]
    · simp [ht]
  rw [← hclose, result, List.countP_filter, List.countP_reverse]
  simp only [hkept]
  rfl

/-! ## What comes last -/

/-- The kinds of the last token of a chunk that holds more than a space or a symbol. -/
def endsBody (k : Kind) : Bool :=
  k.isLeaf || k == .wildcard || k == .ignored || k == .filterStart

theorem endsBody_addPlain (s : Scan) (value : Text) :
    endsBody (s.addPlain value).lastKind = true := by
  unfold addPlain
  simp only
  split
  · rfl
  · split
    · rw [lastKind_addOnce]
      rfl
    · rw [lastKind_addWord]
      rfl

/-- A body that is not cut at dots ends with a value, a field or nothing of importance. -/
theorem endsBody_sortBody (s : Scan) {body : Text} (hdots : Text.splitAtDots body = none) :
    endsBody (s.sortBody body).lastKind = true := by
  unfold sortBody
  rw [hdots]
  split
  · rfl
  · split
    · rfl
    · split
      · rfl
      · simp only
        split
        · rfl
        · exact endsBody_addPlain s body

theorem lastKind_settle (s : Scan) :
    s.settle.lastKind = s.lastKind ∨ s.settle.lastKind = .filterEnd := by
  unfold settle
  split
  · exact .inr (lastKind_closeFilter s)
  · exact .inl rfl

/-- A link that takes a space in is read as a body: without the space it is no link. -/
theorem endsBody_step_link (s : Scan) {piece : Text} (hurl : isUrl piece = true)
    (hlast : piece.getLast? = some ' ') : endsBody (s.step piece).lastKind = true := by
  obtain ⟨hdot, hcolon, hslash⟩ := of_isUrl_of_getLast? hurl hlast
  have hsub : Text.trim Text.isPadding piece ⊆ piece := (Text.infix_trim _ _).subset
  have hcolon' : ':' ∈ Text.trim Text.isPadding piece := Text.mem_trim hcolon (by decide)
  have hslash' : '/' ∈ Text.trim Text.isPadding piece := Text.mem_trim hslash (by decide)
  have hchunk : endsBody (s.chunk (Text.trim Text.isPadding piece)).lastKind = true := by
    generalize Text.trim Text.isPadding piece = value at hsub hcolon' hslash'
    cases hnumber : number? value with
    | some n =>
      rw [chunk, if_neg (List.ne_nil_of_mem hcolon'), hnumber]
      rfl
    | none =>
      have hlen : 2 ≤ value.length := by
        obtain ⟨a, rest, rfl⟩ := List.exists_cons_of_ne_nil (List.ne_nil_of_mem hcolon')
        cases rest with
        | nil =>
          have ha := List.mem_singleton.mp hcolon'
          exact absurd (ha.trans (List.mem_singleton.mp hslash').symm) (by decide)
        | cons b rest => simp
      rw [chunk_eq_sortBody (List.ne_nil_of_mem hcolon') hnumber
        (ofChunk?_eq_none hlen hslash' (by decide))]
      refine endsBody_sortBody _ (splitAtDots_eq_none fun c hc => ?_)
      rintro rfl
      exact hdot (hsub ((infix_takeSign s value).subset hc))
  have hsettle : (s.chunk (Text.trim Text.isPadding piece)).settle =
      s.chunk (Text.trim Text.isPadding piece) := by
    refine settle_of_ne fun h => ?_
    simp [h, endsBody, Kind.isLeaf] at hchunk
  rw [step, hsettle]
  exact hchunk

/-! ## Behind the space -/

/-- What a query with a space at its end leaves behind. -/
structure Spaced (s : Scan) (last : Option Text) : Prop where
  settled : s.settle = s
  space : last = some [' '] → s.lastKind = .whitespace ∨ s.lastKind = .filterEnd
  link : last ≠ some [' '] → endsBody s.lastKind = true

theorem spaced_ofQuery (q : Text) :
    (ofQuery (q ++ [' '])).Spaced (Chunk.ofQuery (q ++ [' '])).getLast? := by
  have hlast : (Text.collapseBlanks (' ' :: (q ++ [' ']))).getLast? = some ' ' :=
    Text.getLast?_collapseBlanks_append_space (' ' :: q)
  have hne : Text.collapseBlanks (' ' :: (q ++ [' '])) ≠ [] :=
    mt Text.collapseBlanks_eq_nil.mp (List.cons_ne_nil _ _)
  obtain ⟨chunks, before, piece, hsplit, hpiece, hlen⟩ := exists_split_eq_append true hne
  have hq : ofQuery (q ++ [' ']) = (({} : Scan).run chunks).step piece := by
    rw [ofQuery, Chunk.ofQuery, hsplit, run_append]
    rfl
  have hchunk : (Chunk.ofQuery (q ++ [' '])).getLast? = some piece := by
    rw [Chunk.ofQuery, hsplit, List.getLast?_concat]
  rw [hq, hchunk]
  refine ⟨settle_settle _, fun h => ?_, fun h => ?_⟩
  · obtain rfl := Option.some.inj h
    rw [step_space]
    have hkind := lastKind_settle ((({} : Scan).run chunks).addOnce .whitespace)
    rwa [lastKind_addOnce] at hkind
  · have hspace : piece ≠ [' '] := fun heq => h (congrArg some heq)
    have hurl := (eq_space_or_isUrl (hpiece.trans hlast) hlen).resolve_left hspace
    exact endsBody_step_link _ hurl (hpiece.trans hlast)

namespace Spaced

variable {s : Scan} {last : Option Text} (hs : s.Spaced last)

include hs

/-- The space is the newest token if it is a chunk and ends no filter. -/
theorem lastKind_eq_whitespace_iff :
    s.lastKind = .whitespace ↔ last = some [' '] ∧ s.lastKind ≠ .filterEnd := by
  constructor
  · intro h
    refine ⟨?_, by simp [h]⟩
    by_contra hlast
    have hends := hs.link hlast
    simp [h, endsBody, Kind.isLeaf] at hends
  · rintro ⟨hlast, hend⟩
    exact (hs.space hlast).resolve_right hend

theorem lastKind_ne (m : Modifier) : s.lastKind ≠ m.kind := by
  intro h
  by_cases hlast : last = some [' ']
  · rcases hs.space hlast with hk | hk <;> cases m <;> simp [hk, Modifier.kind] at h
  · have hends := hs.link hlast
    rw [h] at hends
    cases m <;> simp [endsBody, Modifier.kind, Kind.isLeaf] at hends

/-- Outside of ranges a modifier is added behind anything but a space. -/
theorem count_addModifier {m : Modifier} (hspace : s.lastKind ≠ .whitespace)
    (hrange : s.range = none) : (s.addModifier m).settle.count m.kind = s.count m.kind + 1 := by
  have hadd {s : Scan} (h : s.lastKind ≠ m.kind) :
      (s.addOnce m.kind).settle.count m.kind = s.count m.kind + 1 := by
    have hlast : (s.addOnce m.kind).lastKind ≠ .whitespace := by
      rw [lastKind_addOnce]
      cases m <;> simp [Modifier.kind]
    rw [settle_of_ne hlast, addOnce_of_ne h, count_add]
    simp
  have hend : Kind.filterEnd ≠ m.kind := by cases m <;> simp [Modifier.kind]
  rw [addModifier, if_neg (by simp [hspace, hrange])]
  split
  · rw [hadd (by rwa [lastKind_closeFilter]), count_closeFilter hend.symm]
  · exact hadd (hs.lastKind_ne m)

end Spaced

/-- A modifier after a space acts on the scan of the query before it. -/
theorem ofQuery_append_modifier (q : Text) (m : Modifier) :
    ofQuery (q ++ [' ', modifierMark m]) = ((ofQuery (q ++ [' '])).addModifier m).settle := by
  have hmark : modifierMark m = '^' ∨ modifierMark m = '~' := by cases m <;> simp [modifierMark]
  have hchunk (s : Scan) : s.step [modifierMark m] = (s.addModifier m).settle := by
    cases m <;> exact s.step_mark (.modifier _) rfl rfl
  rw [ofQuery, Chunk.ofQuery_append_mark hmark, run_append, ← hchunk]
  rfl

/-- **A modifier after a space is dropped** in an open range, and wherever the space is a chunk that
ends no filter. It is kept behind a space that ends a filter, and behind one that a link takes in. -/
theorem scan_append_modifier_iff (q : Text) (m : Modifier) :
    scan (q ++ [' ', modifierMark m]) = scan (q ++ [' ']) ↔
      (ofQuery (q ++ [' '])).range.isSome = true ∨
        ((Chunk.ofQuery (q ++ [' '])).getLast? = some [' '] ∧
          (ofQuery (q ++ [' '])).lastKind ≠ .filterEnd) := by
  have hspaced := spaced_ofQuery q
  rw [scan, scan, ofQuery_append_modifier, ← hspaced.lastKind_eq_whitespace_iff]
  constructor
  · intro hscan
    by_contra hkept
    push Not at hkept
    have hcount := hspaced.count_addModifier (m := m) hkept.2 (by simpa using hkept.1)
    rw [← countP_result, hscan, countP_result] at hcount
    omega
  · intro hdropped
    rw [addModifier, if_pos hdropped.symm, hspaced.settled]

/-- The space after the value of a filter does not keep the boost behind it from the filter. -/
theorem scan_append_modifier_kept :
    scan "f:x ^".toList ≠ scan "f:x ".toList := by
  decide +kernel

end Scan

end SearchLang
