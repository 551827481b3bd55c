import SearchLang.Proofs.Chunk.Spaces

/-!
# Unbroken texts

A text without the characters that break a bound is cut into fields and one last
piece, whatever comes after the space behind it (`exists_cut`). The exception is a
link whose address has one character so far: it goes on across the space.
-/

namespace SearchLang

open Pattern Chunk

namespace Text

/-- A text in which nothing breaks a bound. -/
structure IsUnbroken (v : Text) : Prop where
  ne_nil : v ≠ []
  chars : ∀ c ∈ v, breaksBound c = false
  dots : splitAtDots v = none

/-- A text without two dots in a row has no part with them. -/
theorem splitAtDots_eq_none_of_infix {s t : Text} (hs : splitAtDots s = none) (ht : t <:+: s) :
    splitAtDots t = none := by
  have hcons {c : Char} {cs : Text} (h : splitAtDots (c :: cs) = none) : splitAtDots cs = none := by
    unfold splitAtDots at h
    split at h <;> simp_all
  have hsuffix {before after : Text} (h : splitAtDots (before ++ after) = none) :
      splitAtDots after = none := by
    induction before with
    | nil => exact h
    | cons c cs ih => exact ih (hcons h)
  obtain ⟨before, after, rfl⟩ := ht
  cases hdots : splitAtDots t with
  | none => rfl
  | some parts =>
    rw [append_of_splitAtDots hdots, List.append_assoc, List.append_assoc, ← List.append_assoc] at hs
    have hfound := hsuffix hs
    simp [splitAtDots] at hfound

namespace IsUnbroken

variable {v : Text}

theorem of_mem (hv : v.IsUnbroken) {c : Char} (hc : c ∈ v) :
    isSpace c = false ∧ isPlain c = true ∧ isAddressRest c = true ∧ c ≠ '"' := by
  have hbreaks := hv.chars c hc
  simp only [breaksBound, Bool.or_eq_false_iff, List.contains_eq_mem, List.mem_cons,
    List.not_mem_nil, or_false, decide_eq_false_iff_not, not_or] at hbreaks
  simp [isPlain, isStructural, isAddressRest, hbreaks]

theorem of_infix (hv : v.IsUnbroken) {t : Text} (ht : t <:+: v) (hne : t ≠ []) : t.IsUnbroken :=
  ⟨hne, fun c hc => hv.chars c (ht.subset hc), splitAtDots_eq_none_of_infix hv.dots ht⟩

end IsUnbroken

end Text

namespace Chunk

/-- The last piece of an unbroken text before a space: it ends there, or it is a link that takes the
space for the second character of its address. -/
inductive EndsCut (w : Text) : Prop
  | whole (h : ∀ rest, split false (w ++ ' ' :: rest) = w :: split false (' ' :: rest))
  | stub {plus scheme : Text} {c : Char} (h : IsLink plus scheme c ' ' [])
    (hw : w = plus ++ scheme ++ [':', '/', '/', c])

variable {v : Text}

theorem endsCut_of_lengthAt (hv : v.IsUnbroken)
    (h : ∀ rest, lengthAt false (v ++ ' ' :: rest) = v.length) : EndsCut v := by
  refine .whole fun rest => ?_
  rw [split_append hv.ne_nil (h rest), endsInSpace_of_isSpace hv.ne_nil fun c hc => (hv.of_mem hc).1]

/-- A link goes on across the space up to what its address cannot go on with. -/
theorem split_stub {plus scheme : Text} {c : Char} (h : IsLink plus scheme c ' ' []) {run : Text}
    (hrun : ∀ e ∈ run, isAddressRest e = true) {rest : Text}
    (hrest : ∀ e ∈ rest.head?, isAddressRest e = false) :
    let link := plus ++ linkOf scheme c ' ' run
    split false (link ++ rest) = link :: split (endsInSpace link) rest := by
  have hlink : IsLink plus scheme c ' ' run :=
    ⟨h.plus, h.ne_nil, h.scheme, h.address.1, h.address.2.1, hrun⟩
  have hlen : lengthAt false ((plus ++ linkOf scheme c ' ' run) ++ rest) =
      (plus ++ linkOf scheme c ' ' run).length := by
    unfold lengthAt
    rw [hlink.urlLength?_append hrest]
    rfl
  exact split_append (by simp [linkOf]) hlen

/-- A link at the front of an unbroken text is all of it. -/
theorem exists_link_of_isUnbroken (hv : v.IsUnbroken) {rest : Text} {n : Nat}
    (h : urlLength? (v ++ ' ' :: rest) = some n) :
    ∃ plus scheme c,
      (∃ d run, IsLink plus scheme c d run ∧ v = plus ++ linkOf scheme c d run) ∨
        IsLink plus scheme c ' ' [] ∧ v = plus ++ scheme ++ [':', '/', '/', c] := by
  obtain ⟨plus, scheme, c, d, run, rest', hlink, hcut, -⟩ := exists_isLink_of_urlLength? h
  have hfront := hlink.isSpace_front
  have hstub (hd : d = ' ') : IsLink plus scheme c ' ' [] :=
    ⟨hlink.plus, hlink.ne_nil, hlink.scheme, hlink.address.1, hd ▸ hlink.address.2.1, by simp⟩
  refine ⟨plus, scheme, c, ?_⟩
  rw [append_linkOf, List.append_assoc, List.cons_append] at hcut
  rcases List.append_eq_append_iff.mp hcut with ⟨t, hsolid, htail⟩ | ⟨t, hvt, htail⟩
  · -- the solid front of the link does not go on across the space
    cases t with
    | nil =>
      obtain ⟨hd, -⟩ := List.cons.inj htail
      exact .inr ⟨hstub hd.symm, by simpa using hsolid.symm⟩
    | cons e t =>
      obtain ⟨rfl, -⟩ := List.cons.inj htail
      exact absurd (hfront ' ' (by simp [hsolid])) (by decide)
  · cases t with
    | nil =>
      obtain ⟨hd, -⟩ := List.cons.inj htail
      exact .inr ⟨hstub hd, by simpa using hvt⟩
    | cons e t =>
      obtain ⟨rfl, -⟩ := List.cons.inj htail
      refine .inl ⟨d, t, ⟨hlink.plus, hlink.ne_nil, hlink.scheme, hlink.address.1,
        hlink.address.2.1, fun e he => ?_⟩, by rw [hvt, append_linkOf]⟩
      exact (hv.of_mem (by simp [hvt, he])).2.2.1

/-- Whether a link starts does not depend on what comes after the space. -/
theorem urlLength?_append_space (hv : v.IsUnbroken) (h : urlLength? (v ++ [' ']) = none)
    (rest : Text) : urlLength? (v ++ ' ' :: rest) = none := by
  cases hurl : urlLength? (v ++ ' ' :: rest) with
  | none => rfl
  | some n =>
    obtain ⟨plus, scheme, c, ⟨d, run, hlink, hvlink⟩ | ⟨hlink, hvlink⟩⟩ :=
      exists_link_of_isUnbroken hv hurl
    · have hspace : ∀ e ∈ [' '].head?, isAddressRest e = false := by simp; decide
      rw [hvlink, hlink.urlLength?_append hspace] at h
      cases h
    · have hlength := beq_iff_eq.mp hlink.isUrl
      rw [append_linkOf] at hlength
      rw [hvlink, hlength] at h
      cases h

/-- Where no link starts, an unbroken text starts with a field or is one piece. -/
theorem lengthAt_of_isUnbroken (hv : v.IsUnbroken) (hurl : urlLength? (v ++ [' ']) = none)
    (rest : Text) :
    lengthAt false (v ++ ' ' :: rest) = (fieldLength? isFoldedLetter v).getD v.length := by
  have hpos : 1 ≤ v.length := List.length_pos_iff.mpr hv.ne_nil
  have hdrop : (dropSign v).head? ≠ some '"' := fun hquote =>
    (hv.of_mem (List.mem_of_mem_drop (List.mem_of_mem_head? hquote))).2.2.2 rfl
  have hword : wordLength (v ++ ' ' :: rest) = v.length := by
    rw [wordLength, takeWhile_append_cons (isPlain_of_isStop rfl),
      List.takeWhile_eq_self_iff.mpr fun c hc => (hv.of_mem hc).2.1]
  rw [lengthAt_of_none (by simp) (urlLength?_append_space hv hurl rest),
    phraseLength?_append_stop rfl hv.ne_nil (.inl hdrop), phraseLength?_eq_none hdrop,
    fieldLength?_append_stop rfl hv.ne_nil, hword, Nat.max_eq_right hpos]
  rfl

/-- **An unbroken text is cut into fields and one last piece**, whatever comes after the space behind
it. -/
theorem exists_cut (hv : v.IsUnbroken) :
    ∃ fields w, v = fields.flatten ++ w ∧
      (∀ piece ∈ fields ++ [w], piece.IsUnbroken) ∧ (∀ field ∈ fields, field.getLast? = some ':') ∧
      EndsCut w ∧
      ∀ rest, split false (v ++ ' ' :: rest) = fields ++ split false (w ++ ' ' :: rest) := by
  induction hlength : v.length using Nat.strong_induction_on generalizing v with
  | _ k ih =>
    subst hlength
    cases hurl : urlLength? (v ++ [' ']) with
    | some n =>
      refine ⟨[], v, rfl, by simpa using hv, by simp, ?_, fun rest => rfl⟩
      obtain ⟨plus, scheme, c, ⟨d, run, hlink, hvlink⟩ | ⟨hlink, hvlink⟩⟩ :=
        exists_link_of_isUnbroken hv hurl
      · refine endsCut_of_lengthAt hv fun rest => ?_
        have hspace : ∀ e ∈ (' ' :: rest).head?, isAddressRest e = false := by simp; decide
        rw [hvlink]
        unfold lengthAt
        rw [hlink.urlLength?_append hspace]
        rfl
      · exact .stub hlink hvlink
    | none =>
      have hcut := lengthAt_of_isUnbroken hv hurl
      cases hfield : fieldLength? isFoldedLetter v with
      | none =>
        rw [hfield] at hcut
        exact ⟨[], v, rfl, by simpa using hv, by simp, endsCut_of_lengthAt hv hcut, fun rest => rfl⟩
      | some n =>
        rw [hfield] at hcut
        obtain ⟨m, c, name, -, -, -, htake⟩ := exists_name_of_fieldLength? hfield
        have hpos := fieldLength?_pos hfield
        have hle := fieldLength?_le hfield
        by_cases hrest : v.drop n = []
        · have hn : n = v.length := Nat.le_antisymm hle (List.drop_eq_nil_iff.mp hrest)
          exact ⟨[], v, rfl, by simpa using hv, by simp, endsCut_of_lengthAt hv (hn ▸ hcut), fun rest => rfl⟩
        · have hparts := List.take_append_drop n v
          have hlast : (v.take n).getLast? = some ':' := by
            rw [htake, ← List.cons_append, ← List.append_assoc, List.getLast?_concat]
          have hne : v.take n ≠ [] := by
            rw [htake]
            simp
          have hpiece : Text.IsUnbroken (v.take n) :=
            hv.of_infix (List.take_prefix n v).isInfix hne
          have hafter : Text.IsUnbroken (v.drop n) :=
            hv.of_infix (List.drop_suffix n v).isInfix hrest
          have hshort : (v.drop n).length < v.length := by
            rw [List.length_drop]
            omega
          obtain ⟨fields, w, hflatten, hunbroken, hfields, hend, hsplit⟩ :=
            ih (v.drop n).length hshort hafter rfl
          refine ⟨v.take n :: fields, w, ?_, ?_, ?_, hend, fun rest => ?_⟩
          · rw [List.flatten_cons, List.append_assoc, ← hflatten, hparts]
          · exact List.forall_mem_cons.mpr ⟨hpiece, hunbroken⟩
          · exact List.forall_mem_cons.mpr ⟨hlast, hfields⟩
          · have hlen : lengthAt false (v.take n ++ (v.drop n ++ ' ' :: rest)) =
                (v.take n).length := by
              rw [← List.append_assoc, hparts, hcut, List.length_take, Nat.min_eq_left hle]
              rfl
            have hspace : endsInSpace (v.take n) = false :=
              endsInSpace_of_isSpace hne fun d hd => (hpiece.of_mem hd).1
            have hstep := split_append hne hlen
            rw [← List.append_assoc, hparts, hspace, hsplit] at hstep
            exact hstep

end Chunk

end SearchLang
