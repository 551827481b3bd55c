import SearchLang.Proofs.Chunk.Join

/-!
# Spaces in chunks

Chunks end before spaces. The exceptions are a space that is a chunk of its own, a
phrase, and a link, whose address may have a space for its second character
(`spacing_of_mem_split`).
-/

namespace SearchLang

namespace Text

/-- All space characters. -/
def spaces : List Char :=
  ['\t', '\n', '\x0B', '\x0C', '\r', ' ', '\u0085', '\u00A0', '\u1680', '\u2000', '\u2001', '\u2002',
    '\u2003', '\u2004', '\u2005', '\u2006', '\u2007', '\u2008', '\u2009', '\u200A', '\u2028',
    '\u2029', '\u202F', '\u205F', '\u3000']

variable {p : Char → Bool} {c : Char}

theorem mem_spaces (hc : isSpace c = true) : c ∈ spaces := by
  have hplace : c.toNat ∈ spaces.map Char.toNat := by
    simp [isSpace] at hc
    simp [spaces]
    omega
  obtain ⟨d, hd, heq⟩ := List.mem_map.mp hplace
  rwa [← Char.toNat_inj.mp heq]

theorem of_isSpace (h : spaces.all p = true) (hc : isSpace c = true) : p c = true :=
  List.all_eq_true.mp h c (mem_spaces hc)

/-- A class that no space character belongs to. -/
theorem not_isSpace (h : (spaces.all fun c => !p c) = true) (hc : p c = true) :
    isSpace c = false := by
  rw [Bool.eq_false_iff]
  intro hspace
  simpa [hc] using of_isSpace h hspace

end Text

namespace Chunk

open Pattern

/-! ## Runs -/

/-- A text goes on behind its first run. -/
theorem eq_run_append_drop {p : Char → Bool} {s run : Text} (h : s.takeWhile p = run) :
    s = run ++ s.drop run.length := by
  rw [← h, drop_length_takeWhile, List.takeWhile_append_dropWhile]

theorem take_run (c d : Char) (run rest : Text) :
    (c :: (run ++ d :: rest)).take (run.length + 2) = c :: (run ++ [d]) := by
  simp [List.take_append, List.take_of_length_le]

/-! ## Forms without spaces -/

theorem isSpace_of_isSchemeChar {c : Char} (h : isSchemeChar c = true) :
    Text.isSpace c = false :=
  Text.not_isSpace (by decide +kernel) h

theorem isSpace_of_isNameRest {c : Char} (h : isNameRest c = true) : Text.isSpace c = false :=
  Text.not_isSpace (by decide) h

theorem isSpace_of_isAddressStart {c : Char} (h : isAddressStart c = true) :
    Text.isSpace c = false := by
  simp only [isAddressStart, Bool.and_eq_true, Bool.not_eq_true'] at h
  exact h.1

theorem isSpace_of_isAddressRest {c : Char} (h : isAddressRest c = true) :
    Text.isSpace c = false := by
  simp only [isAddressRest, Bool.and_eq_true, Bool.not_eq_true'] at h
  exact h.1.1

theorem isSpace_of_emoticonLength? {s : Text} {n : Nat} (h : emoticonLength? s = some n) :
    ∀ c ∈ s.take n, Text.isSpace c = false := by
  have hspaces : (Text.spaces.all fun c =>
      emoticons.all fun e => !(Text.toLowerAscii e).contains c.toLower) = true := by
    decide
  obtain ⟨e, he, rfl⟩ := Option.map_eq_some_iff.mp h
  have heq : Text.toLowerAscii (s.take e.length) = Text.toLowerAscii e := by
    simpa using List.find?_some he
  intro c hc
  rw [Bool.eq_false_iff]
  intro hspace
  have hnot := List.all_eq_true.mp (Text.of_isSpace hspaces hspace) e (List.mem_of_find?_eq_some he)
  have hmem : c.toLower ∈ Text.toLowerAscii e := heq ▸ List.mem_map_of_mem hc
  simp [hmem] at hnot

/-- The sign of a text, if it has one. -/
theorem exists_lead (s : Text) : ∃ m : Modifiers, m.lead = s.take (signLength s) := by
  cases s with
  | nil => exact ⟨{}, rfl⟩
  | cons c cs =>
    simp only [signLength]
    split
    · rename_i hc
      rcases Bool.or_eq_true_iff.mp hc with hc | hc
      · obtain rfl := beq_iff_eq.mp hc
        exact ⟨{ sign := some .required }, rfl⟩
      · obtain rfl := beq_iff_eq.mp hc
        exact ⟨{ sign := some .prohibited }, rfl⟩
    · exact ⟨{}, rfl⟩

/-- A field is a sign perhaps, a name and a colon. -/
theorem exists_name_of_fieldLength? {s : Text} {n : Nat} {more : Char → Bool}
    (h : fieldLength? more s = some n) :
    ∃ (m : Modifiers) (c : Char) (name : Text), (isFieldStart c || more c) = true ∧
      (∀ d ∈ name, (isNameRest d || more d) = true) ∧ m.lead = s.take (signLength s) ∧
      s.take n = m.lead ++ c :: (name ++ [':']) := by
  unfold fieldLength? at h
  split at h
  · rename_i c rest hdrop
    split at h
    · rename_i hstart
      generalize hname : rest.takeWhile (fun d => isNameRest d || more d) = name at h
      simp only at h
      split at h
      · rename_i after hafter
        have hrest : rest = name ++ ':' :: after := hafter ▸ eq_run_append_drop hname
        have hclass : ∀ d ∈ name, (isNameRest d || more d) = true := by
          intro d hd
          rw [← hname] at hd
          have hmem := List.mem_takeWhile_imp hd
          exact hmem
        obtain ⟨m, hm⟩ := exists_lead s
        obtain rfl := Option.some.inj h
        refine ⟨m, c, name, hstart, hclass, hm, ?_⟩
        rw [Nat.add_assoc, List.take_add, hm]
        congr 1
        change (dropSign s).take (name.length + 2) = _
        rw [hdrop, hrest, take_run]
      · simp at h
    · simp at h
  · simp at h

theorem isSpace_of_mem_lead {m : Modifiers} : ∀ c ∈ m.lead, Text.isSpace c = false := by
  rcases lead_cases m with h | h | h <;> rw [h] <;> simp <;> decide

theorem isSpace_of_fieldLength? {s : Text} {n : Nat} {more : Char → Bool}
    (hmore : ∀ c, more c = true → Text.isSpace c = false)
    (h : fieldLength? more s = some n) : ∀ c ∈ s.take n, Text.isSpace c = false := by
  obtain ⟨m, c, name, hstart, hname, -, htake⟩ := exists_name_of_fieldLength? h
  have hclass {d : Char} (hd : (isNameRest d || more d) = true) : Text.isSpace d = false := by
    rcases Bool.or_eq_true_iff.mp hd with hd | hd
    · exact isSpace_of_isNameRest hd
    · exact hmore d hd
  have hc : (isNameRest c || more c) = true := by
    rcases Bool.or_eq_true_iff.mp hstart with hc | hc
    · rw [isNameRest_of_isFieldStart hc, Bool.true_or]
    · rw [hc, Bool.or_true]
  intro d hd
  rw [htake] at hd
  simp only [List.mem_append, List.mem_cons, List.not_mem_nil, or_false] at hd
  rcases hd with hd | rfl | hd | rfl
  · exact isSpace_of_mem_lead d hd
  · exact hclass hc
  · exact hclass (hname d hd)
  · rfl

theorem isSpace_of_isFoldedLetter {c : Char} (h : isFoldedLetter c = true) :
    Text.isSpace c = false :=
  Text.not_isSpace (by decide) h

/-! ## Links -/

/-- The parts of a link: a plus perhaps, a scheme and an address. -/
structure IsLink (plus scheme : Text) (c d : Char) (run : Text) : Prop where
  plus : plus = [] ∨ plus = ['+']
  ne_nil : scheme ≠ []
  scheme : ∀ e ∈ scheme, isSchemeChar e = true
  address : IsAddress c d run

/-- The text of a link with some parts. -/
def linkOf (scheme : Text) (c d : Char) (run : Text) : Text :=
  scheme ++ ':' :: '/' :: '/' :: c :: d :: run

theorem head?_ne_plus {scheme : Text} (hscheme : ∀ e ∈ scheme, isSchemeChar e = true)
    (rest : Text) : (scheme ++ ':' :: rest).head? ≠ some '+' := by
  cases scheme with
  | nil => simp
  | cons e es =>
    rintro ⟨⟩
    exact absurd (hscheme '+' (by simp)) (by decide)

namespace IsLink

variable {plus scheme run : Text} {c d : Char} (h : IsLink plus scheme c d run)

include h

/-- A link goes on up to the first character that its address cannot go on with. -/
theorem urlLength?_append {rest : Text} (hrest : ∀ e ∈ rest.head?, isAddressRest e = false) :
    urlLength? ((plus ++ linkOf scheme c d run) ++ rest) =
      some (plus ++ linkOf scheme c d run).length := by
  have hstart : (if ((plus ++ linkOf scheme c d run) ++ rest).head? = some '+' then 1 else 0) =
      plus.length := by
    rcases h.plus with rfl | rfl
    · rw [List.nil_append, linkOf, List.append_assoc, List.cons_append,
        if_neg (head?_ne_plus h.scheme _)]
      rfl
    · rfl
  rw [urlLength?_eq_some plus.length hstart h.ne_nil h.scheme h.address hrest (by simp [linkOf])]
  simp only [linkOf, List.length_append, List.length_cons, Option.some.injEq]
  omega

theorem isUrl : isUrl (plus ++ linkOf scheme c d run) = true := by
  have hend : ∀ e ∈ ([] : Text).head?, isAddressRest e = false := by simp
  have hlength := h.urlLength?_append hend
  rw [List.append_nil] at hlength
  rw [Pattern.isUrl, hlength, beq_self_eq_true]

/-- Up to the first character of its address, a link has no spaces. -/
theorem isSpace_front : ∀ e ∈ plus ++ scheme ++ [':', '/', '/', c], Text.isSpace e = false := by
  intro e he
  simp only [List.mem_append, List.mem_cons, List.not_mem_nil, or_false] at he
  rcases he with (he | he) | rfl | rfl | rfl | rfl
  · rcases h.plus with rfl | rfl
    · simp at he
    · obtain rfl := List.mem_singleton.mp he
      rfl
  · exact isSpace_of_isSchemeChar (h.scheme e he)
  · rfl
  · rfl
  · rfl
  · exact isSpace_of_isAddressStart h.address.1

end IsLink

/-- A link in two parts, the second of which may start with a space. -/
theorem append_linkOf (plus scheme : Text) (c d : Char) (run : Text) :
    plus ++ linkOf scheme c d run = (plus ++ scheme ++ [':', '/', '/', c]) ++ d :: run := by
  simp [linkOf]

/-- What is cut off as a link has the parts of one. -/
theorem exists_isLink_of_urlLength? {s : Text} {n : Nat} (h : urlLength? s = some n) :
    ∃ plus scheme c d run rest, IsLink plus scheme c d run ∧
      s = (plus ++ linkOf scheme c d run) ++ rest ∧ (plus ++ linkOf scheme c d run).length = n := by
  unfold urlLength? at h
  have hplus : ∃ plus, (plus = [] ∨ plus = ['+']) ∧
      plus.length = (if s.head? = some '+' then 1 else 0) ∧ plus <+: s := by
    split
    · rename_i hhead
      obtain ⟨rest, rfl⟩ := List.head?_eq_some_iff.mp hhead
      exact ⟨['+'], .inr rfl, rfl, rest, rfl⟩
    · exact ⟨[], .inl rfl, rfl, List.nil_prefix⟩
  obtain ⟨plus, hcases, hlength, body, rfl⟩ := hplus
  rw [← hlength] at h
  simp only [← List.drop_drop, List.drop_left] at h
  generalize hscheme : body.takeWhile isSchemeChar = scheme at h
  split at h
  · simp at h
  · rename_i hne
    split at h
    · rename_i address haddress
      have hbody : body = scheme ++ ':' :: '/' :: '/' :: address :=
        haddress ▸ eq_run_append_drop hscheme
      obtain ⟨k, hk, rfl⟩ := Option.map_eq_some_iff.mp h
      unfold addressLength? at hk
      split at hk
      · rename_i c d rest
        split at hk
        · rename_i hstart
          simp only [Bool.and_eq_true, bne_iff_ne] at hstart
          obtain rfl := Option.some.inj hk
          refine ⟨plus, scheme, c, d, rest.takeWhile isAddressRest, rest.dropWhile isAddressRest,
            ⟨hcases, by simpa using hne, fun e he => List.mem_takeWhile_imp (hscheme ▸ he),
              hstart.1, hstart.2, fun e he => List.mem_takeWhile_imp he⟩, ?_, ?_⟩
          · rw [hbody, linkOf]
            simp [List.takeWhile_append_dropWhile]
          · simp only [linkOf, List.length_append, List.length_cons]
            omega
        · simp at hk
      · simp at hk
    · simp at h

/-! ## Phrases -/

theorem exists_quoted_of_phraseLength? {s : Text} {n : Nat} (h : phraseLength? s = some n) :
    ∃ (m : Modifiers) (inner : Text), inner ≠ [] ∧ (∀ c ∈ inner, c ≠ '"') ∧
      s.take n = m.lead ++ '"' :: (inner ++ ['"']) := by
  unfold phraseLength? at h
  split at h
  · rename_i rest hdrop
    generalize hinner : rest.takeWhile (· != '"') = inner at h
    simp only at h
    split at h
    · simp at h
    · rename_i hne
      split at h
      · rename_i after hafter
        have hrest : rest = inner ++ '"' :: after := hafter ▸ eq_run_append_drop hinner
        have hquote : ∀ c ∈ inner, c ≠ '"' := by
          intro c hc
          rw [← hinner] at hc
          simpa using List.mem_takeWhile_imp hc
        obtain rfl := Option.some.inj h
        obtain ⟨m, hm⟩ := exists_lead s
        refine ⟨m, inner, by simpa using hne, hquote, ?_⟩
        rw [Nat.add_assoc, List.take_add, hm]
        congr 1
        change (dropSign s).take (inner.length + 2) = _
        rw [hdrop, hrest, take_run]
      · simp at h
  · simp at h

/-! ## Chunks -/

/-- Where a chunk may have spaces. -/
inductive Spacing : Text → Prop
  /-- Nowhere. -/
  | solid {piece : Text} (h : ∀ c ∈ piece, Text.isSpace c = false) : Spacing piece
  /-- It is a space. -/
  | space {c : Char} (h : Text.isSpace c = true) : Spacing [c]
  /-- Between quotes. -/
  | phrase (m : Modifiers) {inner : Text} (hne : inner ≠ []) (h : ∀ c ∈ inner, c ≠ '"') :
    Spacing (m.lead ++ '"' :: (inner ++ ['"']))
  /-- Behind the first character of the address of a link. -/
  | link {plus scheme run : Text} {c d : Char} (h : IsLink plus scheme c d run)
    (hspace : Text.isSpace d = true) : Spacing (plus ++ linkOf scheme c d run)

theorem spacing_of_isLink {plus scheme run : Text} {c d : Char} (h : IsLink plus scheme c d run) :
    Spacing (plus ++ linkOf scheme c d run) := by
  cases hspace : Text.isSpace d with
  | true => exact .link h hspace
  | false =>
    refine .solid fun e he => ?_
    rw [append_linkOf, List.mem_append, List.mem_cons] at he
    rcases he with he | rfl | he
    · exact h.isSpace_front e he
    · exact hspace
    · exact isSpace_of_isAddressRest (h.address.2.2 e he)

theorem spacing_take_lengthAt (afterSpace : Bool) (c : Char) (cs : Text) :
    Spacing ((c :: cs).take (lengthAt afterSpace (c :: cs))) := by
  unfold lengthAt
  simp only
  split
  · rename_i n h
    simp only [Option.orElse_eq_orElse, Option.orElse_eq_or, Option.or_eq_some_iff] at h
    rcases h with h | ⟨-, h | ⟨-, h | ⟨-, h⟩⟩⟩
    · split at h
      · exact .solid (isSpace_of_emoticonLength? h)
      · simp at h
    · obtain ⟨plus, scheme, d, e, run, rest, hlink, hcut, rfl⟩ := exists_isLink_of_urlLength? h
      rw [hcut, List.take_left]
      exact spacing_of_isLink hlink
    · obtain ⟨m, inner, hne, hquote, htake⟩ := exists_quoted_of_phraseLength? h
      rw [htake]
      exact .phrase m hne hquote
    · exact .solid (isSpace_of_fieldLength? (fun _ => isSpace_of_isFoldedLetter) h)
  · -- a run of plain characters, or one character that is none
    cases hplain : isPlain c with
    | true =>
      have hpos : max 1 (wordLength (c :: cs)) = wordLength (c :: cs) := by
        simp [wordLength, hplain]
      rw [hpos, wordLength, ← List.prefix_iff_eq_take.mp (List.takeWhile_prefix _)]
      exact .solid fun d hd => (isPlain_iff.mp (List.mem_takeWhile_imp hd)).1
    | false =>
      have hone : max 1 (wordLength (c :: cs)) = 1 := by
        simp [wordLength, hplain]
      rw [hone, List.take_succ_cons, List.take_zero]
      cases hspace : Text.isSpace c with
      | true => exact .space hspace
      | false => exact .solid (by simpa using hspace)

/-- **A chunk has spaces only if it is a space, a phrase or a link.** -/
theorem spacing_of_mem_split {afterSpace : Bool} {s piece : Text}
    (h : piece ∈ split afterSpace s) : Spacing piece := by
  fun_induction split afterSpace s with
  | case1 => simp at h
  | case2 afterSpace c cs n chunk ih =>
    rcases List.mem_cons.mp h with rfl | h
    · exact spacing_take_lengthAt afterSpace c cs
    · exact ih h

theorem infix_of_mem_ofQuery {q piece : Text} (h : piece ∈ ofQuery q) :
    piece <:+: Text.collapseBlanks (' ' :: q) := by
  have hpart := List.infix_of_mem_flatten h
  rwa [ofQuery, flatten_split] at hpart

/-- A text of spaces is cut into its characters. -/
theorem split_of_spaces (afterSpace : Bool) {s : Text} (h : ∀ c ∈ s, Text.isSpace c = true) :
    split afterSpace s = s.map fun c => [c] := by
  have hsingle : ∀ piece ∈ split afterSpace s, ∃ c, piece = [c] := by
    intro piece hpiece
    have hspace {c : Char} (hc : c ∈ piece) : Text.isSpace c = true := by
      refine h c ?_
      rw [← flatten_split afterSpace s]
      exact List.mem_flatten.mpr ⟨piece, hpiece, hc⟩
    cases spacing_of_mem_split hpiece with
    | solid hsolid =>
      obtain ⟨c, cs, rfl⟩ := List.exists_cons_of_ne_nil (ne_nil_of_mem_split hpiece)
      exact absurd (hspace (c := c) (by simp)) (by simp [hsolid c (by simp)])
    | @space c _ => exact ⟨c, rfl⟩
    | phrase m hne hquote => exact absurd (hspace (c := '"') (by simp)) (by decide)
    | link hlink _ => exact absurd (hspace (c := ':') (by simp [linkOf])) (by decide)
  have hmap {pieces : List Text} (hsingle : ∀ piece ∈ pieces, ∃ c, piece = [c]) :
      pieces.flatten.map (fun c => [c]) = pieces := by
    induction pieces with
    | nil => rfl
    | cons piece rest ih =>
      obtain ⟨c, rfl⟩ := hsingle piece (by simp)
      simp [ih fun p hp => hsingle p (List.mem_cons_of_mem _ hp)]
  rw [← hmap hsingle, flatten_split]

end Chunk

end SearchLang
