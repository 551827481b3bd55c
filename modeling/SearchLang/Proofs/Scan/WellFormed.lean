import SearchLang.Proofs.Scan.Piece
import SearchLang.Proofs.Scan.TokenLaw

/-!
# Well-formed scans

Each way to make a token gives it the value that its kind promises, so that the
tokens of a scan are well-formed. The text of a token is trimmed off the chunk
around it, and its form is checked before that: what is left has the form
without the sign, the marks and the punctuation at the end.
-/

namespace SearchLang

open Pattern

/-! ## What trimming leaves -/

theorem Text.IsTrim.endsOutside {p : Char → Bool} {s : Text} (h : IsTrim p s) :
    s.endsOutside p = true := by
  have hhead : s.head? = some (s.head h.ne_nil) := List.head?_eq_some_head h.ne_nil
  have hlast : s.getLast? = some (s.getLast h.ne_nil) := List.getLast?_eq_some_getLast h.ne_nil
  simp [Text.endsOutside, hhead, hlast, h.head _ hhead, h.last _ hlast]

/-- Of two texts one after the other, the first one gives the start and the second one the end. -/
theorem Text.endsOutside_append {p : Char → Bool} {s t : Text} (hs : s.endsOutside p = true)
    (ht : t.endsOutside p = true) : (s ++ t).endsOutside p = true := by
  simp only [endsOutside, Bool.and_eq_true, Option.any_eq_true] at hs ht ⊢
  obtain ⟨⟨c, hc, hpc⟩, -⟩ := hs
  obtain ⟨-, d, hd, hpd⟩ := ht
  exact ⟨⟨c, by simp [hc], hpc⟩, ⟨d, by simp [hd], hpd⟩⟩

theorem Text.ne_nil_of_endsOutside {p : Char → Bool} {s : Text} (h : s.endsOutside p = true) :
    s ≠ [] := by
  rintro rfl
  simp [endsOutside] at h

theorem Text.isWordText_append {s t : Text} (hs : s.isWordText = true) (ht : t.isWordText = true) :
    (s ++ t).isWordText = true := by
  simp only [isWordText, Bool.and_eq_true, bne_iff_ne] at hs ht ⊢
  refine ⟨endsOutside_append hs.1 ht.1, fun h => ?_⟩
  have hlength := congrArg List.length h
  have hspos := List.length_pos_iff.mpr (ne_nil_of_endsOutside hs.1)
  have htpos := List.length_pos_iff.mpr (ne_nil_of_endsOutside ht.1)
  simp only [List.length_append, List.length_cons, List.length_nil] at hlength
  omega

theorem Pattern.lt_of_isTrimmed {c : Char} (h : isTrimmed c = true) : c.toNat < 128 := by
  have hall : (['#', '@', ',', '.', '!', '?', ';', '|', '&', '+', '-', '^', '~', '*', '\\', '"',
      '\'', ' ', '\t', '\n', '\r'].all fun d => d.toNat < 128) = true := by decide
  simpa using List.all_eq_true.mp hall c (List.contains_iff_mem.mp h)

/-- The sign that a pattern allows in front is punctuation. -/
theorem Pattern.exists_append_dropSign (s : Text) :
    ∃ sign, s = sign ++ dropSign s ∧ ∀ c ∈ sign, isTrimmed c = true := by
  rcases dropSign_cases s with hs | ⟨c, hc, hs⟩
  · exact ⟨[], hs.symm, by simp⟩
  · refine ⟨[c], hs, fun d hd => ?_⟩
    obtain rfl := List.mem_singleton.mp hd
    simp only [isSign, Bool.or_eq_true, beq_iff_eq] at hc
    rcases hc with rfl | rfl <;> decide

namespace Scan

/-! ## Texts with a mark -/

/-- Trimming takes the sign and the marks before a name, and the punctuation after it. -/
theorem trim_eq_of_stripped {value marks name : Text} (hname : Text.IsTrim isTrimmed name)
    (hmarks : ∀ c ∈ marks, isTrimmed c = true)
    (h : dropSign (Text.trimRight isTrimmed value) = marks ++ name) :
    Text.trim isTrimmed value = name := by
  obtain ⟨after, hvalue, hafter⟩ := Text.exists_append_trimRight isTrimmed value
  obtain ⟨sign, hstripped, hsign⟩ := exists_append_dropSign (Text.trimRight isTrimmed value)
  have hbefore : ∀ c ∈ sign ++ marks, isTrimmed c = true := by
    intro c hc
    exact (List.mem_append.mp hc).elim (hsign c) (hmarks c)
  have hparts : value = (sign ++ marks) ++ (name ++ after) := by
    rw [h] at hstripped
    rw [hstripped] at hvalue
    simpa using hvalue
  rw [hparts]
  exact hname.trim_surrounded _ _ hbefore hafter

theorem isPlainName_of_isHashtag {value : Text}
    (h : isHashtag (Text.trimRight isTrimmed value) = true) :
    (Text.trim isTrimmed value).isPlainName = true := by
  simp only [isHashtag, Bool.and_eq_true] at h
  obtain ⟨⟨-, hne⟩, hall⟩ := h
  generalize hbody : dropSign (Text.trimRight isTrimmed value) = body at hne hall
  have hname : Text.IsTrim isTrimmed (body.dropWhile (· == '#')) := by
    refine .of_forall (by simpa using hne) fun c hc => ?_
    exact (isTrimmed_of_isNameChar (List.all_eq_true.mp hall c hc)).1
  have hmarks : ∀ c ∈ body.takeWhile (· == '#'), isTrimmed c = true := by
    intro c hc
    obtain rfl : c = '#' := by simpa using List.mem_takeWhile_imp hc
    decide
  have hsplit : dropSign (Text.trimRight isTrimmed value) =
      body.takeWhile (· == '#') ++ body.dropWhile (· == '#') := by
    rw [hbody, List.takeWhile_append_dropWhile]
  rw [trim_eq_of_stripped hname hmarks hsplit, Text.isPlainName, hne, hall]
  rfl

/-- A name that goes on after its first character ends in a name character if it does not end in
punctuation: dots and hyphens are punctuation. -/
theorem isNameChar_of_isNameRest {c : Char} (h : isNameRest c = true)
    (ht : isTrimmed c = false) : isNameChar c = true := by
  simp only [isNameRest, Bool.or_eq_true, beq_iff_eq] at h
  rcases h with (h | rfl) | rfl
  · exact h
  · exact absurd ht (by decide)
  · exact absurd ht (by decide)

theorem isMentionName_of_isMention {value : Text}
    (h : isMention (Text.trimRight isTrimmed value) = true) :
    (Text.trim isTrimmed value).isMentionName = true := by
  simp only [isMention, Bool.and_eq_true] at h
  obtain ⟨-, h⟩ := h
  generalize hbody : dropSign (Text.trimRight isTrimmed value) = body at h
  split at h
  · rename_i c rest hrest
    simp only [Bool.and_eq_true] at h
    obtain ⟨hc, hall⟩ := h
    have hparts : body = body.takeWhile (· == '@') ++ c :: rest := by
      rw [← hrest, List.takeWhile_append_dropWhile]
    -- the last character was kept when the punctuation at the end was dropped
    have hlast : ∀ d ∈ (c :: rest).getLast?, isTrimmed d = false := by
      intro d hd
      obtain ⟨sign, hstripped, -⟩ := exists_append_dropSign (Text.trimRight isTrimmed value)
      refine Text.getLast?_trimRight isTrimmed value d ?_
      rw [Option.mem_def] at hd
      rw [hstripped, hbody, hparts, List.getLast?_append, List.getLast?_append, hd]
      rfl
    have hrestall : ∀ d ∈ c :: rest, isNameRest d = true := by
      intro d hd
      rcases List.mem_cons.mp hd with rfl | hd
      · simp [isNameRest, hc]
      · exact List.all_eq_true.mp hall d hd
    have hname : Text.IsTrim isTrimmed (c :: rest) :=
      ⟨List.cons_ne_nil c rest, by simpa using (isTrimmed_of_isNameChar hc).1, hlast⟩
    have hends : Text.IsTrim (fun d => !isNameChar d) (c :: rest) := by
      refine ⟨List.cons_ne_nil c rest, by simpa using hc, fun d hd => ?_⟩
      have hd' := isNameChar_of_isNameRest (hrestall d (List.mem_of_getLast? hd)) (hlast d hd)
      simp [hd']
    have hmarks : ∀ d ∈ body.takeWhile (· == '@'), isTrimmed d = true := by
      intro d hd
      obtain rfl : d = '@' := by simpa using List.mem_takeWhile_imp hd
      decide
    rw [trim_eq_of_stripped hname hmarks (by rw [hbody]; exact hparts), Text.isMentionName,
      hends.endsOutside, List.all_eq_true.mpr hrestall]
    rfl
  · simp at h

theorem isPlainDate_of_isDate {value : Text}
    (h : isDate (Text.trimRight isTrimmed value) = true) :
    isPlainDate (Text.trim isTrimmed value) = true := by
  rw [isDate] at h
  obtain ⟨hne, hhead, hlast, -⟩ := of_isPlainDate h
  have hdigit {c : Char} (hc : c.isDigit = true) : isTrimmed c = false :=
    (isTrimmed_of_isNameChar (isNameChar_of_isDigit hc)).1
  have hname : Text.IsTrim isTrimmed (dropSign (Text.trimRight isTrimmed value)) :=
    ⟨hne, fun c hc => hdigit (hhead c hc), fun c hc => hdigit (hlast c hc)⟩
  rwa [trim_eq_of_stripped hname (List.forall_mem_nil _) rfl]

/-- What is left of a tagged text is what its form promises. -/
theorem admits_of_taggedForm? {value : Text} {form : TextForm}
    (h : taggedForm? value = some form) : form.admits (Text.trim isTrimmed value) = true := by
  simp only [taggedForm?] at h
  split at h
  · rename_i hhashtag
    obtain rfl : TextForm.hashtag = form := by simpa using h
    exact isPlainName_of_isHashtag hhashtag
  · split at h
    · rename_i hmention
      obtain rfl : TextForm.mention = form := by simpa using h
      exact isMentionName_of_isMention hmention
    · split at h
      · rename_i hdate
        obtain rfl : TextForm.date = form := by simpa using h
        exact isPlainDate_of_isDate hdate
      · simp at h

/-! ## Texts that stand alone -/

theorem trim_ne_nil_of_isEmoticon {value : Text} (h : isEmoticon value = true) :
    Text.trim isTrimmed value ≠ [] := by
  have hall : ∀ e ∈ emoticons, Text.trim isTrimmed e ≠ [] := by decide
  exact hall value (List.contains_iff_mem.mp h)

/-- An emoji has a character beyond ASCII, and punctuation is ASCII. -/
theorem trim_ne_nil_of_isEmoji {value : Text} (h : Text.isEmoji value = true) :
    Text.trim isTrimmed value ≠ [] := by
  have hexists : ∃ c ∈ value, 128 ≤ c.toNat := by
    by_contra hnone
    push Not at hnone
    simp [isEmoji_eq_false hnone] at h
  obtain ⟨c, hc, hle⟩ := hexists
  refine Text.trim_ne_nil hc ?_
  rw [Bool.eq_false_iff]
  intro ht
  have := lt_of_isTrimmed ht
  omega

theorem trim_ne_nil_of_isUrl {value : Text} (h : isUrl value = true) :
    Text.trim isTrimmed value ≠ [] := by
  have hcolon : ':' ∈ value := by
    by_contra hnone
    simp [isUrl_eq_false hnone] at h
  exact Text.trim_ne_nil hcolon (by decide)

theorem admits_of_standaloneForm? {value : Text} {form : TextForm}
    (h : standaloneForm? value = some form) : form.admits (Text.trim isTrimmed value) = true := by
  simp only [standaloneForm?] at h
  split at h
  · rename_i hemoticon
    obtain rfl : TextForm.emoticon = form := by simpa using h
    simpa [TextForm.admits] using trim_ne_nil_of_isEmoticon hemoticon
  · split at h
    · rename_i hemoji
      obtain rfl : TextForm.emoji = form := by simpa using h
      simpa [TextForm.admits] using trim_ne_nil_of_isEmoji hemoji
    · split at h
      · rename_i hurl
        obtain rfl : TextForm.url = form := by simpa using h
        simpa [TextForm.admits] using trim_ne_nil_of_isUrl hurl
      · simp at h

/-! ## All tokens -/

/-- Every way to make a token gives it what its kind promises, but for the spaces and the strays,
which are dropped in the end. -/
theorem tokenLaw_isWellFormed :
    TokenLaw (fun _ => True) fun t => isKept t = true → t.isWellFormed = true where
  part := fun _ _ => trivial
  space := fun h => absurd h (by decide)
  mark := fun {k} hk _ _ => (Token.isWellFormed_mark k).trans hk
  sign := fun _ _ _ _ => rfl
  number := fun hn _ => hn
  ignored := fun _ h => absurd h Bool.false_ne_true
  letter := by
    intro c _ halpha _
    have htrim : Text.IsTrim isWordTrimmed [c] := by
      refine .of_forall (List.cons_ne_nil c []) fun d hd => ?_
      obtain rfl : d = c := by simpa using hd
      exact (isTrimmed_of_isNameChar (isNameChar_of_isAlpha halpha)).2
    have hzero : c ≠ '0' := by
      rintro rfl
      simp at halpha
    simp [Token.isWellFormed, Token.ofText, Text.isWordText, htrim.endsOutside, hzero]
  word := by
    intro value _ hne hzero _
    simp [Token.isWellFormed, Token.ofText, Text.isWordText, (Text.isTrim_trim hne).endsOutside,
      hzero]
  glue := fun hbefore _ hvalue _ => Text.isWordText_append (hbefore rfl) (hvalue rfl)
  field := fun _ _ _ => rfl
  phrase := fun _ _ _ => rfl
  standalone := fun _ hform _ => admits_of_standaloneForm? hform
  tagged := fun _ hform _ => admits_of_taggedForm? hform

end Scan

/-- **Every token of a scan carries what its kind promises.** -/
theorem all_isWellFormed_scan (q : Text) : (scan q).all Token.isWellFormed = true :=
  List.all_eq_true.mpr fun _ ht =>
    Scan.tokenLaw_isWellFormed.of_mem_scan (fun _ _ => trivial) ht (isKept_of_mem_scan ht)

end SearchLang
