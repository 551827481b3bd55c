import SearchLang.Proofs.Chunk.Join
import SearchLang.Proofs.Scan.Leaf
import SearchLang.Proofs.Scan.TokenLaw

/-!
# Bare phrases and fields

A scan takes the sign, the quotes and the colon off a phrase or a field. It
takes one sign only, while the patterns of phrases and fields allow a sign of
their own: after two signs, the second one stays in the text, and with it the
opening quote of a phrase. That is the only way for a mark to get into the text
(`all_isBare_scan`).
-/

namespace SearchLang

open Pattern

/-! ## Signs in front -/

/-- No sign is a space, a quote or a colon. -/
theorem Pattern.of_isSign {c : Char} (h : isSign c = true) :
    Text.isSpace c = false ∧ c ≠ '"' ∧ c ≠ ':' := by
  simp only [isSign, Bool.or_eq_true, beq_iff_eq] at h
  rcases h with rfl | rfl <;> decide

/-- A sign in front of what is left of a chunk is the second one of the chunk. -/
theorem Scan.exists_sign_of_takeSign {s : Scan} {value rest : Text} {c : Char}
    (hc : isSign c = true) (h : (s.takeSign value).2 = c :: rest) :
    ∃ d, isSign d = true ∧ value = d :: c :: rest := by
  unfold takeSign at h
  split at h
  · obtain rfl := h
    exact ⟨'+', rfl, rfl⟩
  · obtain rfl := h
    exact ⟨'-', rfl, rfl⟩
  · simp_all [isSign]

/-- Two signs and a quote or the start of a name, wherever they are in a text. -/
theorem Text.doublesSign_of_infix {a b c : Char} {s : Text} (ha : isSign a = true)
    (hb : isSign b = true) (hc : c = '"' ∨ isFieldStart c = true) (h : [a, b, c] <:+: s) :
    s.doublesSign = true := by
  fun_induction doublesSign s with
  | case1 x y z rest ih =>
    rcases List.infix_cons_iff.mp h with h | h
    · simp_all
    · simp [ih h]
  | case2 s hshort =>
    have hlength := h.length_le
    match s with
    | x :: y :: z :: rest => exact absurd rfl (hshort x y z rest)
    | [] | [_] | [_, _] => simp at hlength

/-! ## Phrases and fields -/

theorem Pattern.length_dropSign (s : Text) : (dropSign s).length + signLength s = s.length := by
  rw [dropSign, List.length_drop]
  have := signLength_le s
  omega

/-- A phrase is a text between quotes, after a sign perhaps. -/
theorem Pattern.of_isPhrase {s : Text} (h : isPhrase s = true) :
    ∃ inner, dropSign s = '"' :: (inner ++ ['"']) ∧ inner ≠ [] ∧ '"' ∉ inner := by
  have hlength := length_dropSign s
  simp only [isPhrase, beq_iff_eq, phraseLength?] at h
  split at h
  · rename_i rest hdrop
    generalize hinner : rest.takeWhile (· != '"') = inner at h
    split at h
    · simp at h
    · rename_i hne
      split at h
      · rename_i after hafter
        have hrest : rest = inner ++ '"' :: after := by
          rw [← hafter, ← hinner, Chunk.drop_length_takeWhile, List.takeWhile_append_dropWhile]
        have hnil : after = [] := by
          simp only [hdrop, hrest, List.length_cons, List.length_append, Option.some.injEq]
            at hlength h
          exact List.eq_nil_of_length_eq_zero (by omega)
        refine ⟨inner, by rw [hdrop, hrest, hnil], by simpa using hne, fun hmem => ?_⟩
        have hquote := List.mem_takeWhile_imp (hinner ▸ hmem)
        simp at hquote
      · simp at h
  · simp at h

/-- A field is a name and a colon, after a sign perhaps. -/
theorem Pattern.of_isField {s : Text} (h : isField s = true) :
    ∃ field, dropSign s = field ++ [':'] ∧ Text.isPlainField field = true := by
  have hlength := length_dropSign s
  simp only [isField, beq_iff_eq, fieldLength?, Bool.or_false] at h
  split at h
  · rename_i c rest hdrop
    generalize hname : rest.takeWhile isNameRest = name at h
    split at h
    · rename_i hc
      split at h
      · rename_i after hafter
        have hrest : rest = name ++ ':' :: after := by
          rw [← hafter, ← hname, Chunk.drop_length_takeWhile, List.takeWhile_append_dropWhile]
        have hnil : after = [] := by
          simp only [hdrop, hrest, List.length_cons, List.length_append, Option.some.injEq]
            at hlength h
          exact List.eq_nil_of_length_eq_zero (by omega)
        refine ⟨c :: name, by rw [hdrop, hrest, hnil, List.cons_append], ?_⟩
        simp only [Text.isPlainField, hc, Bool.true_and, List.all_eq_true]
        exact fun d hd => List.mem_takeWhile_imp (hname ▸ hd)
      · simp at h
    · simp at h
  · simp at h

/-! ## What is left of them -/

namespace Scan

/-- A phrase loses its quotes, but for the opening one when a sign comes before it. -/
theorem isBare_phrase {value : Text} (h : isPhrase value = true) :
    let t : Token := .ofText (.text .phrase) (Text.trimSpace (Text.trim (· == '"') value))
    t.isBare = true ∨ t.isBareAfterSign = true ∧
      ∃ c rest, isSign c = true ∧ value = c :: '"' :: rest := by
  obtain ⟨inner, hdrop, hne, hquote⟩ := of_isPhrase h
  have hinner : Text.IsTrim (· == '"') inner := by
    refine .of_forall hne fun c hc => beq_eq_false_iff_ne.mpr ?_
    rintro rfl
    exact hquote hc
  rcases dropSign_cases value with hvalue | ⟨c, hc, hvalue⟩
  · left
    have htrim : Text.trim (· == '"') value = inner := by
      rw [← hvalue, hdrop]
      exact hinner.trim_surrounded ['"'] ['"'] (by simp) (by simp)
    have hmem : '"' ∉ Text.trimSpace inner := fun hmem =>
      hquote ((Text.infix_trim Text.isSpace inner).subset hmem)
    simpa [htrim, Token.isBare, Token.ofText] using hmem
  · right
    obtain ⟨hspace, hmark, -⟩ := of_isSign hc
    rw [hdrop] at hvalue
    -- the sign stands in the way of the opening quote
    have htrim : Text.trim (· == '"') value = c :: '"' :: inner := by
      have hsigned : Text.IsTrim (· == '"') ([c, '"'] ++ inner) :=
        hinner.prepend (by simpa using hmark)
      rw [hvalue]
      exact hsigned.trim_surrounded [] ['"'] (by simp) (by simp)
    have hspaces : Text.trimSpace (c :: '"' :: inner) =
        c :: '"' :: Text.trimRight Text.isSpace inner := by
      rw [Text.trimSpace, Text.trim, Text.trimLeft,
        List.dropWhile_cons_of_neg (by simp [hspace]), Text.trimRight_cons hspace,
        Text.trimRight_cons (by decide)]
    have hmem : '"' ∉ Text.trimRight Text.isSpace inner := fun hmem =>
      hquote ((Text.prefix_trimRight Text.isSpace inner).subset hmem)
    refine ⟨?_, c, inner ++ ['"'], hc, hvalue⟩
    simpa [htrim, hspaces, Token.isBareAfterSign, Token.ofText, hc] using hmem

/-- A field loses its colon, but not a sign before it. -/
theorem isBare_field {value : Text} (h : isField value = true) :
    let t : Token := .ofText .filterStart (Text.trimRight (· == ':') value)
    t.isBare = true ∨ t.isBareAfterSign = true ∧
      ∃ c d rest, isSign c = true ∧ isFieldStart d = true ∧ value = c :: d :: rest := by
  obtain ⟨field, hdrop, hfield⟩ := of_isField h
  have hcolon := isTrim_field hfield
  rcases dropSign_cases value with hvalue | ⟨c, hc, hvalue⟩
  · left
    have htrim : Text.trimRight (· == ':') value = field := by
      rw [← hvalue, hdrop]
      exact hcolon.trimRight_append (by simp)
    simpa [htrim, Token.isBare, Token.ofText] using hfield
  · right
    obtain ⟨-, -, hne⟩ := of_isSign hc
    rw [hdrop] at hvalue
    have hsigned : Text.IsTrim (· == ':') ([c] ++ field) := hcolon.prepend (by simpa using hne)
    have htrim : Text.trimRight (· == ':') value = c :: field := by
      rw [hvalue]
      exact hsigned.trimRight_append (by simp)
    obtain ⟨d, name, rfl, hd, -⟩ := of_isPlainField hfield
    refine ⟨?_, c, d, name ++ [':'], hc, hd, hvalue⟩
    simp [htrim, Token.isBareAfterSign, Token.ofText, hc, hfield]

/-! ## All tokens -/

theorem isBare_mark (k : Kind) : (Token.mark k).isBare = true := by
  unfold Token.isBare
  split <;> simp_all [Token.mark]

theorem isBare_ofText {form : TextForm} (s : Text) (h : form ≠ .phrase) :
    (Token.ofText (.text form) s).isBare = true := by
  cases form <;> simp_all [Token.isBare, Token.ofText]

theorem ne_phrase_of_standaloneForm? {value : Text} {form : TextForm}
    (h : standaloneForm? value = some form) : form ≠ .phrase := by
  rintro rfl
  unfold standaloneForm? at h
  grind

theorem ne_phrase_of_taggedForm? {value : Text} {form : TextForm}
    (h : taggedForm? value = some form) : form ≠ .phrase := by
  rintro rfl
  unfold taggedForm? at h
  grind

/-- In a scan of parts of a text, a mark gets into a phrase or a field after two signs only. -/
theorem tokenLaw_isBare (text : Text) :
    TokenLaw (fun value => value <:+: text) fun t =>
      t.isBare = true ∨ t.isBareAfterSign = true ∧ ∃ a b c, isSign a = true ∧ isSign b = true ∧
        (c = '"' ∨ isFieldStart c = true) ∧ [a, b, c] <:+: text where
  part := fun hs ht => ht.trans hs
  space := .inl rfl
  mark := fun _ _ => .inl (isBare_mark _)
  sign := fun _ _ _ => .inl (isBare_mark _)
  number := fun _ => .inl rfl
  ignored := fun _ => .inl rfl
  letter := fun _ _ => .inl rfl
  word := fun _ _ _ => .inl rfl
  glue := fun _ _ _ => .inl rfl
  field := by
    intro s value hv hfield
    refine (isBare_field hfield).imp_right fun ⟨hbare, c, d, rest, hc, hd, hvalue⟩ => ⟨hbare, ?_⟩
    obtain ⟨a, ha, rfl⟩ := exists_sign_of_takeSign hc hvalue
    exact ⟨a, c, d, ha, hc, .inr hd, (List.prefix_append [a, c, d] rest).isInfix.trans hv⟩
  phrase := by
    intro s value hv hphrase
    refine (isBare_phrase hphrase).imp_right fun ⟨hbare, c, rest, hc, hvalue⟩ => ⟨hbare, ?_⟩
    obtain ⟨a, ha, rfl⟩ := exists_sign_of_takeSign hc hvalue
    exact ⟨a, c, '"', ha, hc, .inl rfl, (List.prefix_append [a, c, '"'] rest).isInfix.trans hv⟩
  standalone := fun _ hform => .inl (isBare_ofText _ (ne_phrase_of_standaloneForm? hform))
  tagged := fun _ hform => .inl (isBare_ofText _ (ne_phrase_of_taggedForm? hform))

end Scan

/-- **A phrase carries no quote and a field nothing but a name, except after two signs.** There
the second sign gets into the text, before the opening quote or the name, and nothing else. -/
theorem all_isBare_scan (q : Text) :
    ((scan q).all fun t => t.isBare || t.isBareAfterSign && q.doublesSign) = true := by
  rw [List.all_eq_true]
  intro t ht
  have hpieces : ∀ piece ∈ Chunk.ofQuery q, piece <:+: Text.collapseBlanks (' ' :: q) := by
    intro piece hpiece
    have hinfix := List.infix_of_mem_flatten hpiece
    rwa [Chunk.ofQuery, Chunk.flatten_split] at hinfix
  rw [Bool.or_eq_true, Bool.and_eq_true]
  refine ((Scan.tokenLaw_isBare _).of_mem_scan hpieces ht).imp_right ?_
  rintro ⟨hbare, a, b, c, ha, hb, hc, hmem⟩
  have hsign {d : Char} (hd : isSign d = true) : Text.isBlank d = false :=
    Scan.isBlank_of_isSpace (of_isSign hd).1
  have hquote : Text.isBlank c = false := by
    rcases hc with rfl | hc
    · rfl
    · have hrest := Chunk.isNameRest_of_isFieldStart hc
      exact Scan.isBlank_of_isTame (Chunk.isTame_of_isNameRest hrest)
  have hblank : ∀ d ∈ [a, b, c], Text.isBlank d = false := by
    simp [hsign ha, hsign hb, hquote]
  refine ⟨hbare, Text.doublesSign_of_infix ha hb hc ?_⟩
  -- the space in front of the query is no sign
  refine (List.infix_cons_iff.mp (Text.infix_of_infix_collapseBlanks hblank hmem)).resolve_left ?_
  rintro hprefix
  obtain rfl : a = ' ' := by simpa using (List.cons_prefix_cons.mp hprefix).1
  simp [Pattern.isSign] at ha

/-- After two signs, a quote stays in a phrase and a sign in a field. -/
theorem isBare_after_two_signs :
    (scan "-+\"5\"".toList).all Token.isBare = false ∧
      (scan "-+f:(x)".toList).all Token.isBare = false := by
  decide +kernel

end SearchLang
