import SearchLang.Proofs.Chunk.Cut

/-!
# Cutting at stops

A chunk does not reach across a stop, whatever comes after it: only a phrase and
a link can hold one, and a text without quotes and without `://` has neither.
Before a query is cut, runs of blanks count as one space, so that a space may be
put between two queries as it may be put into one.
-/

namespace SearchLang.Text

/-! ## Collapsing -/

/-- A blank at the front becomes a space. -/
theorem exists_collapseBlanks_cons {c : Char} (hc : isBlank c = true) (rest : Text) :
    ∃ after, collapseBlanks (c :: rest) = ' ' :: after := by
  induction rest generalizing c with
  | nil => exact ⟨[], by simp [collapseBlanks, hc]⟩
  | cons d ds ih =>
    cases hd : isBlank d
    · exact ⟨collapseBlanks (d :: ds), by rw [collapseBlanks]; simp [hc, hd]⟩
    · obtain ⟨after, hafter⟩ := ih hd
      exact ⟨after, by rw [collapseBlanks]; simp [hc, hd, hafter]⟩

theorem head?_collapseBlanks (s : Text) :
    (collapseBlanks s).head? = some ' ' ↔ ∃ c ∈ s.head?, isBlank c = true := by
  cases s with
  | nil => simp [collapseBlanks]
  | cons c cs =>
    cases hc : isBlank c with
    | true =>
      obtain ⟨after, hafter⟩ := exists_collapseBlanks_cons hc cs
      simp [hafter, hc]
    | false =>
      have hne : c ≠ ' ' := by
        rintro rfl
        cases hc
      rw [collapseBlanks.eq_def]
      simp [hc, hne]

/-- What a character does to the collapsed text after it: a blank is dropped before another one. -/
theorem collapseBlanks_cons (c : Char) (s : Text) :
    collapseBlanks (c :: s) =
      if isBlank c then
        if (collapseBlanks s).head? = some ' ' then collapseBlanks s else ' ' :: collapseBlanks s
      else c :: collapseBlanks s := by
  rw [collapseBlanks.eq_def]
  simp only [head?_collapseBlanks]
  cases s with
  | nil => simp [collapseBlanks]
  | cons d ds => simp

/-- A run of blanks counts as one space. -/
theorem collapseBlanks_run {run : Text} (hrun : IsBlankRun run) (s : Text) :
    collapseBlanks (run ++ s) = collapseBlanks (' ' :: s) := by
  obtain ⟨hne, hblank⟩ := hrun
  induction run with
  | nil => exact absurd rfl hne
  | cons c run ih =>
    have hc : isBlank c = true := hblank c (by simp)
    rw [List.cons_append, collapseBlanks_cons, if_pos hc]
    by_cases hrun : run = []
    · subst hrun
      exact (collapseBlanks_cons ' ' s).symm
    · -- the blanks after the first one leave a space, before which the first one is dropped
      rw [ih hrun fun d hd => hblank d (by simp [hd])]
      obtain ⟨after, hafter⟩ := exists_collapseBlanks_cons (c := ' ') rfl s
      rw [hafter, List.head?_cons, if_pos rfl]

/-- Behind a character that is no blank, collapsing starts anew. -/
theorem collapseBlanks_append {s : Text} (hs : ∀ c ∈ s.getLast?, isBlank c = false)
    (rest : Text) : collapseBlanks (s ++ rest) = collapseBlanks s ++ collapseBlanks rest := by
  induction s with
  | nil => rfl
  | cons c cs ih =>
    rw [List.cons_append, collapseBlanks_cons, collapseBlanks_cons c cs]
    cases cs with
    | nil =>
      have hc : isBlank c = false := hs c rfl
      simp [hc, collapseBlanks]
    | cons d ds =>
      obtain ⟨e, es, hes⟩ := List.exists_cons_of_ne_nil
        (mt collapseBlanks_eq_nil.mp (List.cons_ne_nil d ds))
      rw [ih (by simpa [List.getLast?_cons_cons] using hs), hes]
      cases isBlank c <;> by_cases he : e = ' ' <;> simp [he]

/-- Blanks before a space count as nothing. -/
theorem collapseBlanks_blanks {s : Text} (hs : ∀ c ∈ s, isBlank c = true) (rest : Text) :
    collapseBlanks (s ++ ' ' :: rest) = collapseBlanks (' ' :: rest) := by
  have hrun : IsBlankRun (s ++ [' ']) := by
    refine ⟨by simp, fun c hc => ?_⟩
    rcases List.mem_append.mp hc with hc | hc
    · exact hs c hc
    · rw [List.mem_singleton.mp hc]
      rfl
  simpa using collapseBlanks_run hrun rest

theorem mem_collapseBlanks {s : Text} {c : Char} (h : c ∈ collapseBlanks s) : c ∈ s ∨ c = ' ' := by
  fun_induction collapseBlanks s with
  | case1 => simp at h
  | case2 d hd => exact .inr (by simpa using h)
  | case3 d hd e es he ih => exact (ih h).imp_left (List.mem_cons_of_mem d)
  | case4 d hd e es he ih =>
    rcases List.mem_cons.mp h with rfl | h
    · exact .inr rfl
    · exact (ih h).imp_left (List.mem_cons_of_mem d)
  | case5 d ds hd ih =>
    rcases List.mem_cons.mp h with rfl | h
    · exact .inl (by simp)
    · exact (ih h).imp_left (List.mem_cons_of_mem d)

/-- A marker without blanks at the front of a collapsed text was there before. -/
theorem prefix_of_prefix_collapseBlanks {marker s : Text} (hm : ∀ c ∈ marker, isBlank c = false)
    (h : marker <+: collapseBlanks s) : marker <+: s := by
  -- a marker that is not empty starts with no blank
  have hspace {c : Char} (hc : isBlank c = true) {marker s : Text}
      (hm : ∀ c ∈ marker, isBlank c = false) (h : marker <+: c :: s) : marker = [] := by
    rcases List.prefix_cons_iff.mp h with rfl | ⟨t, rfl, -⟩
    · rfl
    · simp [hm c (by simp)] at hc
  fun_induction collapseBlanks s generalizing marker with
  | case1 => exact h
  | case2 c hc =>
    rw [hspace rfl hm h]
    exact List.nil_prefix
  | case3 c hc d ds hd ih =>
    rw [hspace hd hm (ih hm h)]
    exact List.nil_prefix
  | case4 c hc d ds hd ih =>
    rw [hspace rfl hm h]
    exact List.nil_prefix
  | case5 c cs hc ih =>
    rcases List.prefix_cons_iff.mp h with rfl | ⟨t, rfl, ht⟩
    · exact List.nil_prefix
    · exact List.prefix_cons_iff.mpr (.inr ⟨t, rfl, ih (fun d hd => hm d (by simp [hd])) ht⟩)

/-- Collapsing blanks puts no marker together. -/
theorem infix_of_infix_collapseBlanks {marker s : Text} (hm : ∀ c ∈ marker, isBlank c = false)
    (h : marker <:+: collapseBlanks s) : marker <:+: s := by
  have hprefix {s : Text} (h : marker <+: collapseBlanks s) : marker <:+: s :=
    (prefix_of_prefix_collapseBlanks hm h).isInfix
  fun_induction collapseBlanks s with
  | case1 => exact h
  | case2 c hc =>
    rcases List.infix_cons_iff.mp h with h | h
    · exact hprefix (by simpa [collapseBlanks, hc] using h)
    · exact h.trans (List.nil_prefix.isInfix)
  | case3 c hc d ds hd ih => exact (ih h).trans (List.suffix_cons c _).isInfix
  | case4 c hc d ds hd ih =>
    rcases List.infix_cons_iff.mp h with h | h
    · exact hprefix (by simpa [collapseBlanks, hc, hd] using h)
    · exact (ih h).trans (List.suffix_cons c _).isInfix
  | case5 c cs hc ih =>
    rcases List.infix_cons_iff.mp h with h | h
    · exact hprefix (by simpa [collapseBlanks, hc] using h)
    · exact (ih h).trans (List.suffix_cons c _).isInfix

/-- A text is its part up to the last character that is no blank, and blanks. -/
theorem exists_append_blanks (s : Text) :
    ∃ text blanks, s = text ++ blanks ∧ (∀ c ∈ text.getLast?, isBlank c = false) ∧
      ∀ c ∈ blanks, isBlank c = true := by
  induction s with
  | nil => exact ⟨[], [], rfl, by simp, by simp⟩
  | cons c cs ih =>
    obtain ⟨text, blanks, rfl, htext, hblanks⟩ := ih
    cases text with
    | cons d ds =>
      exact ⟨c :: d :: ds, blanks, rfl, by simpa [List.getLast?_cons_cons] using htext, hblanks⟩
    | nil =>
      cases hc : isBlank c
      · exact ⟨[c], blanks, rfl, by simpa using hc, hblanks⟩
      · exact ⟨[], c :: blanks, rfl, by simp, by simpa [hc] using hblanks⟩

/-- Blanks alone count as one space. -/
theorem collapseBlanks_of_blanks {s : Text} (hs : ∀ c ∈ s, isBlank c = true) :
    collapseBlanks s = [] ∨ collapseBlanks s = [' '] := by
  by_cases hne : s = []
  · subst hne
    exact .inl rfl
  · have hrun := collapseBlanks_run ⟨hne, hs⟩ []
    rw [List.append_nil] at hrun
    exact .inr hrun

end SearchLang.Text

namespace SearchLang.Chunk

open Pattern

/-! ## Forms before a stop -/

section

variable {c : Char}

/-- A run of characters of a class ends where another one comes. -/
theorem takeWhile_append_cons {p : Char → Bool} (hc : p c = false) (s rest : Text) :
    (s ++ c :: rest).takeWhile p = s.takeWhile p := by
  induction s with
  | nil => simp [hc]
  | cons d ds ih => simp only [List.cons_append, List.takeWhile_cons, ih]

theorem dropWhile_append_cons {p : Char → Bool} (hc : p c = false) (s rest : Text) :
    (s ++ c :: rest).dropWhile p = s.dropWhile p ++ c :: rest := by
  induction s with
  | nil => simp [hc]
  | cons d ds ih =>
    cases hd : p d
    · simp [hd]
    · simpa [hd] using ih

/-- A marker is not found across a character that it does not hold. -/
theorem prefix_of_prefix_append_cons {marker s rest : Text} (hm : c ∉ marker)
    (h : marker <+: s ++ c :: rest) : marker <+: s := by
  induction s generalizing marker with
  | nil =>
    rcases List.prefix_cons_iff.mp h with rfl | ⟨t, rfl, -⟩
    · exact List.prefix_refl _
    · simp at hm
  | cons d ds ih =>
    rcases List.prefix_cons_iff.mp h with rfl | ⟨t, rfl, ht⟩
    · exact List.nil_prefix
    · exact List.prefix_cons_iff.mpr (.inr ⟨t, rfl, ih (fun h => hm (by simp [h])) ht⟩)

theorem signLength_append {s : Text} (hne : s ≠ []) (rest : Text) :
    signLength (s ++ rest) = signLength s := by
  obtain ⟨c, cs, rfl⟩ := List.exists_cons_of_ne_nil hne
  rfl

theorem dropSign_append {s : Text} (hne : s ≠ []) (rest : Text) :
    dropSign (s ++ rest) = dropSign s ++ rest := by
  rw [dropSign, signLength_append hne, List.drop_append_of_le_length (signLength_le s), dropSign]

/-- Whether a character is part of no emoticon. -/
def EndsEmoticon (c : Char) : Prop :=
  ∀ e ∈ emoticons, c.toLower ∉ Text.toLowerAscii e

theorem emoticonLength?_append_cons (hc : EndsEmoticon c) (s rest : Text) :
    emoticonLength? (s ++ c :: rest) = emoticonLength? s := by
  have htest : ∀ e ∈ emoticons,
      (Text.toLowerAscii ((s ++ c :: rest).take e.length) == Text.toLowerAscii e) =
        (Text.toLowerAscii (s.take e.length) == Text.toLowerAscii e) := by
    intro e he
    by_cases hlen : e.length ≤ s.length
    · rw [List.take_append_of_le_length hlen]
    · -- an emoticon that is longer than the text would hold the character
      have hlong : (Text.toLowerAscii ((s ++ c :: rest).take e.length) ==
          Text.toLowerAscii e) = false := by
        rw [beq_eq_false_iff_ne]
        intro heq
        refine hc e he (heq ▸ List.mem_map.mpr ⟨c, ?_, rfl⟩)
        rw [List.take_append, show e.length - s.length = (e.length - s.length - 1) + 1 by omega]
        simp
      have hshort : (Text.toLowerAscii (s.take e.length) == Text.toLowerAscii e) = false := by
        rw [beq_eq_false_iff_ne]
        intro heq
        have := congrArg List.length heq
        simp only [Text.toLowerAscii, List.length_map, List.length_take] at this
        omega
      rw [hlong, hshort]
  rw [emoticonLength?, emoticonLength?]
  congr 1
  generalize emoticons = es at htest
  induction es with
  | nil => rfl
  | cons e es ih =>
    simp only [List.find?_cons, htest e (by simp), ih fun e he => htest e (by simp [he])]

/-- The mark that every link holds. -/
def linkMark : Text := [':', '/', '/']

theorem isBlank_of_mem_linkMark : ∀ c ∈ linkMark, Text.isBlank c = false := by
  simp [linkMark, Text.isBlank]

theorem urlLength?_eq_none_of_linkMark {s : Text} (h : ¬ linkMark <:+: s) :
    urlLength? s = none := by
  apply urlLength?_eq_none
  intro k _ after heq
  refine h ?_
  have hsuffix : (s.drop k).dropWhile isSchemeChar <:+ s :=
    (List.dropWhile_suffix _).trans (List.drop_suffix k s)
  have hprefix : linkMark <+: (s.drop k).dropWhile isSchemeChar := ⟨after, heq.symm⟩
  exact hprefix.isInfix.trans hsuffix.isInfix

variable (hc : isStop c = true)

include hc

theorem urlLength?_append_stop {s : Text} (hne : s ≠ []) (h : ¬ linkMark <:+: s) (rest : Text) :
    urlLength? (s ++ c :: rest) = none := by
  apply urlLength?_eq_none
  intro k hk after heq
  refine h ?_
  rw [signLength_append hne] at hk
  rw [List.drop_append_of_le_length (Nat.le_trans hk (signLength_le s)),
    dropWhile_append_cons (isSchemeChar_of_isStop hc)] at heq
  have hmark : c ∉ linkMark := by
    have hall := of_isStop (p := fun c => !linkMark.contains c) (by decide) hc
    simpa using hall
  have hprefix : linkMark <+: (s.drop k).dropWhile isSchemeChar :=
    prefix_of_prefix_append_cons hmark ⟨after, heq.symm⟩
  have hsuffix : (s.drop k).dropWhile isSchemeChar <:+ s :=
    (List.dropWhile_suffix _).trans (List.drop_suffix k s)
  exact hprefix.isInfix.trans hsuffix.isInfix

/-- A phrase does not reach across a stop, unless one starts before it and ends after it. -/
theorem phraseLength?_append_stop {s : Text} (hne : s ≠ []) {rest : Text}
    (h : (dropSign s).head? ≠ some '"' ∨ '"' ∉ rest) :
    phraseLength? (s ++ c :: rest) = phraseLength? s := by
  have hstop : c ≠ '"' := by
    rintro rfl
    simp [isStop, isStructural] at hc
  unfold phraseLength?
  rw [dropSign_append hne, signLength_append hne]
  cases hs : dropSign s with
  | nil => simp [hstop]
  | cons d ds =>
    by_cases hd : d = '"'
    · subst hd
      have hrest : '"' ∉ rest := h.resolve_left (by simp [hs])
      simp only [List.cons_append, drop_length_takeWhile]
      by_cases hin : '"' ∈ ds
      · -- the phrase ends before the stop
        obtain ⟨a, b, rfl, ha⟩ := List.eq_append_cons_of_mem hin
        have hopen : ∀ e ∈ a, (e != '"') = true := fun e he => by
          simpa using fun heq : e = '"' => ha (heq ▸ he)
        simp only [List.append_assoc, List.cons_append, List.takeWhile_append_of_pos hopen,
          List.dropWhile_append_of_pos hopen]
        simp
      · -- there is no second quote on either side
        have hopen : ∀ e ∈ ds, (e != '"') = true := fun e he => by
          simpa using fun heq : e = '"' => hin (heq ▸ he)
        have hopen' : ∀ e ∈ ds ++ c :: rest, (e != '"') = true := by
          intro e he
          rcases List.mem_append.mp he with he | he
          · exact hopen e he
          · rcases List.mem_cons.mp he with rfl | he
            · simpa using hstop
            · simpa using fun heq : e = '"' => hrest (heq ▸ he)
        rw [List.dropWhile_eq_nil_iff.mpr hopen, List.dropWhile_eq_nil_iff.mpr hopen']
        simp
    · simp [hd]

theorem fieldLength?_append_stop {s : Text} (hne : s ≠ []) (rest : Text) :
    fieldLength? isFoldedLetter (s ++ c :: rest) = fieldLength? isFoldedLetter s := by
  have hrest : (isNameRest c || isFoldedLetter c) = false := by simp [isNameRest_of_isStop hc]
  unfold fieldLength?
  rw [dropSign_append hne, signLength_append hne]
  cases dropSign s with
  | nil => simp [isFieldStart_of_isStop hc]
  | cons d ds =>
    simp only [List.cons_append, drop_length_takeWhile,
      dropWhile_append_cons (p := fun d => isNameRest d || isFoldedLetter d) hrest]
    rw [takeWhile_append_cons (p := fun d => isNameRest d || isFoldedLetter d) hrest]
    cases ds.dropWhile fun d => isNameRest d || isFoldedLetter d with
    | nil =>
      have hcolon : c ≠ ':' := by
        rintro rfl
        simp [isStop, isStructural] at hc
      simp [hcolon]
    | cons e es => by_cases he : e = ':' <;> simp [he]

/-! ## Cutting -/

/-- **A chunk does not reach across a stop.** What it is does not depend on what comes after the
stop, unless it may be an emoticon or a phrase that takes the stop in. -/
theorem lengthAt_append_stop {afterSpace : Bool} {s : Text} (hne : s ≠ []) {rest : Text}
    (hquote : (dropSign s).head? ≠ some '"' ∨ '"' ∉ rest) (hlink : ¬ linkMark <:+: s)
    (hemoticon : EndsEmoticon c ∨ ∀ d ∈ s.head?, startsEmoticon d = false) :
    lengthAt afterSpace (s ++ c :: rest) = lengthAt afterSpace s := by
  have hsame : emoticonLength? (s ++ c :: rest) = emoticonLength? s := by
    rcases hemoticon with h | h
    · exact emoticonLength?_append_cons h s rest
    · obtain ⟨d, ds, rfl⟩ := List.exists_cons_of_ne_nil hne
      rw [emoticonLength?_eq_none h, emoticonLength?_eq_none (by simpa using h)]
  have hword : wordLength (s ++ c :: rest) = wordLength s := by
    rw [wordLength, takeWhile_append_cons (isPlain_of_isStop hc), wordLength]
  unfold lengthAt
  rw [hsame, urlLength?_append_stop hc hne hlink, urlLength?_eq_none_of_linkMark hlink,
    phraseLength?_append_stop hc hne hquote, fieldLength?_append_stop hc hne, hword]

end

/-- Nothing without quotes starts a phrase. -/
theorem head?_dropSign_ne_quote {s : Text} (h : '"' ∉ s) : (dropSign s).head? ≠ some '"' :=
  fun hquote => h (List.mem_of_mem_drop (List.mem_of_mem_head? hquote))

theorem endsEmoticon_space : EndsEmoticon ' ' := by
  unfold EndsEmoticon
  decide

theorem emoticonLength?_le {s : Text} {n : Nat} (h : emoticonLength? s = some n) :
    n ≤ s.length := by
  simp only [emoticonLength?, Option.map_eq_some_iff] at h
  obtain ⟨e, he, rfl⟩ := h
  have htest := List.find?_some he
  simp only [beq_iff_eq] at htest
  have hlen := congrArg List.length htest
  simp only [Text.toLowerAscii, List.length_map, List.length_take] at hlen
  omega

theorem fieldLength?_le {more : Char → Bool} {s : Text} {n : Nat}
    (h : fieldLength? more s = some n) : n ≤ s.length := by
  have hsign := signLength_le s
  unfold fieldLength? at h
  split at h
  · rename_i c rest heq
    have hdrop := congrArg List.length heq
    simp only [dropSign, List.length_drop, List.length_cons] at hdrop
    split at h
    · simp only at h
      split at h
      · rename_i after hafter
        have hcolon := congrArg List.length hafter
        simp only [List.length_drop, List.length_cons] at hcolon
        cases h
        omega
      · simp at h
    · simp at h
  · simp at h

theorem phraseLength?_le {s : Text} {n : Nat} (h : phraseLength? s = some n) : n ≤ s.length := by
  have hsign := signLength_le s
  unfold phraseLength? at h
  split at h
  · rename_i rest heq
    have hdrop := congrArg List.length heq
    simp only [dropSign, List.length_drop, List.length_cons] at hdrop
    simp only at h
    split at h
    · simp at h
    · split at h
      · rename_i after hafter
        have hend := congrArg List.length hafter
        simp only [List.length_drop, List.length_cons] at hend
        cases h
        omega
      · simp at h
  · simp at h

theorem addressLength?_le {s : Text} {n : Nat} (h : addressLength? s = some n) : n ≤ s.length := by
  unfold addressLength? at h
  split at h
  · rename_i c d rest
    split at h
    · cases h
      have hrun := (List.takeWhile_sublist isAddressRest (l := rest)).length_le
      simp only [List.length_cons]
      omega
    · simp at h
  · simp at h

theorem urlLength?_le {s : Text} {n : Nat} (h : urlLength? s = some n) : n ≤ s.length := by
  unfold urlLength? at h
  generalize (if s.head? = some '+' then 1 else 0) = start at h
  simp only at h
  split at h
  · simp at h
  · split at h
    · rename_i address haddress
      obtain ⟨k, hk, rfl⟩ := Option.map_eq_some_iff.mp h
      have hle := addressLength?_le hk
      have hlen := congrArg List.length haddress
      simp only [List.length_drop, List.length_cons] at hlen
      omega
    · simp at h

/-- A chunk is a part of its text. -/
theorem lengthAt_le (afterSpace : Bool) {s : Text} (hne : s ≠ []) :
    lengthAt afterSpace s ≤ s.length := by
  have hpos := List.length_pos_iff.mpr hne
  have hword := wordLength_le s
  unfold lengthAt
  simp only
  split
  · rename_i n h
    simp only [Option.orElse_eq_orElse, Option.orElse_eq_or, Option.or_eq_some_iff] at h
    rcases h with h | ⟨-, h | ⟨-, h | ⟨-, h⟩⟩⟩
    · split at h
      · exact emoticonLength?_le h
      · simp at h
    · exact urlLength?_le h
    · exact phraseLength?_le h
    · exact fieldLength?_le h
  · omega

/-- A space is a chunk. -/
theorem split_space (afterSpace : Bool) (rest : Text) :
    split afterSpace (' ' :: rest) = [' '] :: split true rest := by
  have hlen : lengthAt afterSpace ([' '] ++ rest) = 1 := lengthAt_stop rfl (.inr rfl) rest
  exact split_append (List.cons_ne_nil ' ' []) hlen

/-- **A text is cut at a space** that no phrase takes in: the chunks before it, the space, and the
chunks after it. -/
theorem split_append_space (afterSpace : Bool) {s rest : Text} (hquote : '"' ∉ s ∨ '"' ∉ rest)
    (hlink : ¬ linkMark <:+: s) :
    split afterSpace (s ++ ' ' :: rest) = split afterSpace s ++ [' '] :: split true rest := by
  fun_induction split afterSpace s with
  | case1 afterSpace => exact split_space afterSpace rest
  | case2 afterSpace c cs n chunk ih =>
    have hne : c :: cs ≠ [] := List.cons_ne_nil c cs
    have hle : n ≤ (c :: cs).length := lengthAt_le afterSpace hne
    have hlen : lengthAt afterSpace (c :: cs ++ ' ' :: rest) = n :=
      lengthAt_append_stop rfl hne (hquote.imp_left head?_dropSign_ne_quote) hlink
        (.inl endsEmoticon_space)
    have hsuffix : (c :: cs).drop n <:+ c :: cs := List.drop_suffix n _
    have htail := ih (hquote.imp_left fun hquote h => hquote (hsuffix.subset h))
      (fun h => hlink (h.trans hsuffix.isInfix))
    rw [List.cons_append] at hlen ⊢
    rw [split]
    simp only [hlen]
    rw [← List.cons_append, List.take_append_of_le_length hle, List.drop_append_of_le_length hle,
      htail, List.cons_append]

/-- A query without links has none in it once its blanks are collapsed, with the space before it. -/
theorem not_linkMark_collapseBlanks {q text : Text} (hlink : ¬ linkMark <:+: q)
    (hsub : text <:+: ' ' :: q) : ¬ linkMark <:+: Text.collapseBlanks text := by
  intro h
  have hin := (Text.infix_of_infix_collapseBlanks isBlank_of_mem_linkMark h).trans hsub
  rcases List.infix_cons_iff.mp hin with h | h
  · simp [linkMark] at h
  · exact hlink h

/-- **A query goes on after a space as if it started there**, unless a phrase takes the space in.
Blanks before the space change nothing: they are at most a space of their own. -/
theorem ofQuery_append_space {q : Text} (hlink : ¬ linkMark <:+: q) :
    ∃ chunks, (ofQuery q = chunks ∨ ofQuery q = chunks ++ [[' ']]) ∧
      ∀ rest, ('"' ∉ q ∨ '"' ∉ rest) → ofQuery (q ++ ' ' :: rest) = chunks ++ ofQuery rest := by
  obtain ⟨text, blanks, hq, htext, hblanks⟩ := Text.exists_append_blanks (' ' :: q)
  have hsub : text <:+: ' ' :: q := hq ▸ (List.prefix_append text blanks).isInfix
  have hmark : ¬ linkMark <:+: Text.collapseBlanks text := not_linkMark_collapseBlanks hlink hsub
  have hquotes {s t : Text} (hsub : s <:+: ' ' :: t) (h : '"' ∉ t) :
      '"' ∉ Text.collapseBlanks s := by
    intro hin
    rcases Text.mem_collapseBlanks hin with hin | hin
    · exact h (by simpa using hsub.subset hin)
    · simp at hin
  refine ⟨split true (Text.collapseBlanks text), ?_, fun rest hquote => ?_⟩
  · rw [ofQuery, hq, Text.collapseBlanks_append htext]
    rcases Text.collapseBlanks_of_blanks hblanks with h | h
    · exact .inl (by rw [h, List.append_nil])
    · exact .inr (by rw [h, split_append_space true (.inr List.not_mem_nil) hmark, split_nil])
  · obtain ⟨after, hafter⟩ := Text.exists_collapseBlanks_cons (c := ' ') rfl rest
    have hquote' : '"' ∉ Text.collapseBlanks text ∨ '"' ∉ after := by
      refine hquote.imp (hquotes hsub) fun h hin => ?_
      exact hquotes (List.infix_refl _) h (hafter ▸ List.mem_cons_of_mem ' ' hin)
    rw [ofQuery, ofQuery, ← List.cons_append, hq, List.append_assoc,
      Text.collapseBlanks_append htext, Text.collapseBlanks_blanks hblanks, hafter,
      split_append_space true hquote' hmark, split_space]

end SearchLang.Chunk
