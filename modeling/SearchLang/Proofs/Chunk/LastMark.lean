import Mathlib.Data.List.Basic
import SearchLang.Proofs.Chunk.Join

/-!
# A mark at the end

A text that ends in a space is cut alike with and without one more mark at its
end, and the mark is a chunk of its own (`split_append_mark`). The space itself
is a chunk, unless it is the second character of the address of a link
(`eq_space_or_isUrl`).
-/

namespace SearchLang

namespace Text

/-- What a character that is no blank ends is collapsed without it. -/
theorem collapseBlanks_append_singleton {c : Char} (hc : isBlank c = false) (s : Text) :
    collapseBlanks (s ++ [c]) = collapseBlanks s ++ [c] := by
  induction s with
  | nil => simp [collapseBlanks, hc]
  | cons d ds ih =>
    rw [List.cons_append, collapseBlanks_cons, collapseBlanks_cons d ds, ih]
    have hspace : c ≠ ' ' := by
      rintro rfl
      simp [isBlank] at hc
    cases isBlank d with
    | false => rfl
    | true => cases collapseBlanks ds <;> grind

/-- Collapsing keeps a space at the end. -/
theorem getLast?_collapseBlanks_append_space (s : Text) :
    (collapseBlanks (s ++ [' '])).getLast? = some ' ' := by
  induction s with
  | nil => rfl
  | cons c cs ih =>
    obtain ⟨d, ds, hds⟩ := List.exists_cons_of_ne_nil
      (mt collapseBlanks_eq_nil.mp (List.append_ne_nil_of_right_ne_nil cs (by simp : [' '] ≠ [])))
    rw [hds] at ih
    rw [List.cons_append, collapseBlanks_cons, hds]
    split
    · split
      · exact ih
      · rwa [List.getLast?_cons_cons]
    · rwa [List.getLast?_cons_cons]

end Text

namespace Chunk

open Pattern

/-! ## Cutting before the mark -/

section

variable {c : Char} (hc : c = '^' ∨ c = '~')

include hc

/-- The address of a link ends at its space. -/
theorem addressLength?_append_mark (s : Text) :
    addressLength? (s ++ [' ', c]) = addressLength? (s ++ [' ']) := by
  have hspace : isAddressRest ' ' = false := by decide
  have hmark : isAddressRest c = false := by rcases hc with rfl | rfl <;> decide
  match s with
  | [] => rfl
  | [a] => simp [addressLength?, hmark]
  | a :: b :: run =>
    simp only [List.cons_append, addressLength?,
      takeWhile_append_cons (p := isAddressRest) hspace]

theorem urlLength?_append_mark (s : Text) :
    urlLength? (s ++ [' ', c]) = urlLength? (s ++ [' ']) := by
  have hspace : isSchemeChar ' ' = false := by decide
  have hhead (rest : Text) : (s ++ ' ' :: rest).head? = some '+' ↔ s.head? = some '+' := by
    cases s <;> simp
  have hstart : (if s.head? = some '+' then 1 else 0) ≤ s.length := by
    cases s with
    | nil => simp
    | cons d ds => split <;> simp
  unfold urlLength?
  simp only [hhead]
  generalize (if s.head? = some '+' then 1 else 0) = start at hstart
  have hbehind (rest : Text) :
      (s.drop start ++ ' ' :: rest).drop ((s.drop start).takeWhile isSchemeChar).length =
        (s.drop start).dropWhile isSchemeChar ++ ' ' :: rest := by
    rw [List.drop_append_of_le_length (List.takeWhile_sublist _).length_le, drop_length_takeWhile]
  simp only [← List.drop_drop, List.drop_append_of_le_length hstart,
    takeWhile_append_cons hspace, hbehind]
  -- what stands behind the scheme ends in the space on both sides
  generalize (s.drop start).dropWhile isSchemeChar = behind
  match behind with
  | [] => rfl
  | [a] => by_cases ha : a = ':' <;> simp [ha]
  | [a, b] => by_cases ha : a = ':' <;> by_cases hb : b = '/' <;> simp [ha, hb]
  | a :: b :: d :: address =>
    have haddress := addressLength?_append_mark hc address
    by_cases ha : a = ':' <;> by_cases hb : b = '/' <;> by_cases hd : d = '/' <;>
      simp [ha, hb, hd, haddress]

/-- The mark after the space changes no chunk before it. -/
theorem lengthAt_append_mark (afterSpace : Bool) {s : Text} (hlast : s.getLast? = some ' ') :
    lengthAt afterSpace (s ++ [c]) = lengthAt afterSpace s := by
  have hstop : isStop c = true := by rcases hc with rfl | rfl <;> rfl
  have hemoticon : EndsEmoticon c := by
    unfold EndsEmoticon
    rcases hc with rfl | rfl <;> decide
  obtain ⟨before, rfl⟩ := List.getLast?_eq_some_iff.mp hlast
  have hne : before ++ [' '] ≠ [] := by simp
  have hurl : urlLength? (before ++ [' '] ++ [c]) = urlLength? (before ++ [' ']) := by
    rw [List.append_assoc]
    exact urlLength?_append_mark hc before
  have hword : wordLength (before ++ [' '] ++ [c]) = wordLength (before ++ [' ']) := by
    rw [wordLength, takeWhile_append_cons (isPlain_of_isStop hstop), wordLength]
  unfold lengthAt
  rw [emoticonLength?_append_cons hemoticon, hurl,
    phraseLength?_append_stop hstop hne (.inr List.not_mem_nil), fieldLength?_append_stop hstop hne,
    hword]

/-- **A mark after a space is a chunk of its own**, and the chunks before it are those of the text
without it. -/
theorem split_append_mark (afterSpace : Bool) {s : Text} (hlast : s.getLast? = some ' ') :
    split afterSpace (s ++ [c]) = split afterSpace s ++ [[c]] := by
  have hstop : isStop c = true := by rcases hc with rfl | rfl <;> rfl
  have hstart : startsEmoticon c = false := by rcases hc with rfl | rfl <;> rfl
  -- what is left of the text after some chunks is nothing or ends in the space, too
  have hrest : ∀ s : Text, s = [] ∨ s.getLast? = some ' ' → ∀ afterSpace,
      split afterSpace (s ++ [c]) = split afterSpace s ++ [[c]] := by
    intro s hs afterSpace
    fun_induction split afterSpace s with
    | case1 afterSpace =>
      have hlen : lengthAt afterSpace ([c] ++ []) = 1 := lengthAt_stop hstop (.inr hstart) []
      have hsplit := split_append (List.cons_ne_nil c []) hlen
      simpa using hsplit
    | case2 afterSpace d ds n chunk ih =>
      have hlast : (d :: ds).getLast? = some ' ' := hs.resolve_left (List.cons_ne_nil d ds)
      have hle : n ≤ (d :: ds).length := lengthAt_le afterSpace (List.cons_ne_nil d ds)
      have hlen := lengthAt_append_mark hc afterSpace hlast
      have htail := ih (by
        rw [List.getLast?_drop, hlast]
        by_cases hn : (d :: ds).length ≤ n
        · exact .inl (List.drop_eq_nil_of_le hn)
        · exact .inr (if_neg hn))
      rw [List.cons_append] at hlen ⊢
      rw [split]
      simp only [hlen]
      rw [← List.cons_append, List.take_append_of_le_length hle,
        List.drop_append_of_le_length hle, htail, List.cons_append]
  exact hrest s (.inr hlast) afterSpace

/-- The mark is the last chunk of a query that it ends. -/
theorem ofQuery_append_mark (q : Text) :
    ofQuery (q ++ [' ', c]) = ofQuery (q ++ [' ']) ++ [[c]] := by
  have hblank : Text.isBlank c = false := by rcases hc with rfl | rfl <;> rfl
  have htext : ' ' :: (q ++ [' ', c]) = ' ' :: (q ++ [' ']) ++ [c] := by simp
  have hlast : (Text.collapseBlanks (' ' :: (q ++ [' ']))).getLast? = some ' ' :=
    Text.getLast?_collapseBlanks_append_space (' ' :: q)
  rw [ofQuery, ofQuery, htext, Text.collapseBlanks_append_singleton hblank,
    split_append_mark hc true hlast]

end

/-! ## The last chunk -/

/-- The last chunk of a text goes on to its end. -/
theorem exists_split_eq_append (afterSpace : Bool) {s : Text} (hne : s ≠ []) :
    ∃ chunks before piece, split afterSpace s = chunks ++ [piece] ∧
      piece.getLast? = s.getLast? ∧ lengthAt before piece = piece.length := by
  fun_induction split afterSpace s with
  | case1 => exact absurd rfl hne
  | case2 afterSpace c cs n chunk ih =>
    by_cases hrest : (c :: cs).drop n = []
    · -- the chunk is all of the text
      have hle : (c :: cs).length ≤ n := List.drop_eq_nil_iff.mp hrest
      have hn : n = (c :: cs).length := Nat.le_antisymm (lengthAt_le afterSpace hne) hle
      have hchunk : chunk = c :: cs := List.take_of_length_le hle
      exact ⟨[], afterSpace, c :: cs, by rw [hrest, split_nil, hchunk]; rfl, rfl, hn⟩
    · obtain ⟨chunks, before, piece, hsplit, hlast, hlen⟩ := ih hrest
      refine ⟨chunk :: chunks, before, piece, by rw [hsplit]; rfl, ?_, hlen⟩
      rw [hlast, List.getLast?_drop, if_neg (mt List.drop_eq_nil_of_le hrest)]

/-- **A chunk that ends in a space is the space or a link**: no other form goes on across a space
and ends with it. -/
theorem eq_space_or_isUrl {afterSpace : Bool} {piece : Text} (hlast : piece.getLast? = some ' ')
    (hlen : lengthAt afterSpace piece = piece.length) : piece = [' '] ∨ isUrl piece = true := by
  obtain ⟨before, rfl⟩ := List.getLast?_eq_some_iff.mp hlast
  by_cases hne : before = []
  · exact .inl (by rw [hne]; rfl)
  · right
    have hword : wordLength (before ++ [' ']) = wordLength before := by
      rw [wordLength, takeWhile_append_cons (isPlain_of_isStop rfl), wordLength]
    have hwordLe := wordLength_le before
    have hpos := List.length_pos_iff.mpr hne
    unfold lengthAt at hlen
    rw [emoticonLength?_append_cons endsEmoticon_space,
      phraseLength?_append_stop rfl hne (.inr List.not_mem_nil), fieldLength?_append_stop rfl hne,
      hword, List.length_append, List.length_singleton] at hlen
    simp only at hlen
    split at hlen
    · rename_i n h
      simp only [Option.orElse_eq_orElse, Option.orElse_eq_or, Option.or_eq_some_iff] at h
      rcases h with h | ⟨-, h | ⟨-, h | ⟨-, h⟩⟩⟩
      · split at h
        · have := emoticonLength?_le h
          omega
        · simp at h
      · rw [isUrl, h, hlen, beq_iff_eq, List.length_append, List.length_singleton]
      · have := phraseLength?_le h
        omega
      · have := fieldLength?_le h
        omega
    · omega

/-- A link behind a plus is a link without it. -/
theorem isUrl_of_plus {s : Text} (h : isUrl ('+' :: s) = true) :
    s.head? ≠ some '+' ∧ isUrl s = true := by
  rw [isUrl, beq_iff_eq] at h
  have hhead : s.head? ≠ some '+' := by
    intro hs
    obtain ⟨rest, rfl⟩ := List.head?_eq_some_iff.mp hs
    have hplus : isSchemeChar '+' = false := by decide
    simp [urlLength?, hplus] at h
  refine ⟨hhead, ?_⟩
  have hplus : urlLength? ('+' :: s) = (urlLength? s).map (· + 1) := by
    simp only [urlLength?, List.head?_cons, if_true, if_neg hhead, List.drop_succ_cons,
      List.drop_zero, Nat.zero_add, Nat.add_comm 1]
    split
    · rfl
    · split
      · rw [Option.map_map]
        congr 1
        funext n
        simp only [Function.comp_apply]
        omega
      · rfl
  rw [hplus, Option.map_eq_some_iff] at h
  obtain ⟨n, hn, hlen⟩ := h
  rw [List.length_cons] at hlen
  rw [isUrl, hn, beq_iff_eq, Option.some_inj]
  omega

/-- A link that ends in a space has an address of one more character, and no dots. -/
theorem of_isUrl_of_getLast? {s : Text} (h : isUrl s = true) (hlast : s.getLast? = some ' ') :
    '.' ∉ s ∧ ':' ∈ s ∧ '/' ∈ s := by
  have hunsigned {s : Text} (h : isUrl s = true) (hplus : s.head? ≠ some '+')
      (hlast : s.getLast? = some ' ') : '.' ∉ s ∧ ':' ∈ s ∧ '/' ∈ s := by
    obtain ⟨scheme, c, d, run, rfl, -, hscheme, hc, -, hrun⟩ := exists_address_of_isUrl h hplus
    have hparts : scheme ++ ':' :: '/' :: '/' :: c :: d :: run =
        (scheme ++ [':', '/', '/', c, d]) ++ run := by simp
    have hnil : run = [] := by
      by_contra hne
      rw [hparts, List.getLast?_append_of_ne_nil _ hne] at hlast
      exact absurd (hrun ' ' (List.mem_of_getLast? hlast)) (by decide)
    subst hnil
    rw [hparts, List.append_nil] at hlast ⊢
    obtain rfl : d = ' ' := by simpa using hlast
    have hdot : '.' ∉ scheme := fun hmem => absurd (hscheme '.' hmem) (by decide)
    have hstart : c ≠ '.' := by
      rintro rfl
      exact absurd hc (by decide)
    exact ⟨by simp [hdot, hstart.symm], by simp, by simp⟩
  by_cases hplus : s.head? = some '+'
  · obtain ⟨t, rfl⟩ := List.head?_eq_some_iff.mp hplus
    obtain ⟨hhead, hurl⟩ := isUrl_of_plus h
    have hne : t ≠ [] := by
      rintro rfl
      simp at hlast
    obtain ⟨hdot, hcolon, hslash⟩ := hunsigned hurl hhead
      (by rwa [← List.singleton_append, List.getLast?_append_of_ne_nil _ hne] at hlast)
    exact ⟨by simpa using hdot, List.mem_cons_of_mem _ hcolon, List.mem_cons_of_mem _ hslash⟩
  · exact hunsigned h hplus hlast

end Chunk

end SearchLang
