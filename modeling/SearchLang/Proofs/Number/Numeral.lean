import Mathlib.Data.List.TakeDrop
import Mathlib.Data.List.TakeWhile
import SearchLang.Number.Numeral

/-!
# Numerals read

The literals are the texts of the numerals, no more and no fewer
(`isLiteral_iff`), and each is read as what its numeral writes (`read?_text`).
-/

namespace SearchLang.Decimal

/-! ## Parts of a numeral -/

theorem span_digits {ds : Text} (hds : ∀ c ∈ ds, c.isDigit = true) (rest : Text)
    (hrest : ∀ c ∈ rest.head?, c.isDigit = false) :
    (ds ++ rest).span Char.isDigit = (ds, rest) := by
  rw [List.span_eq_takeWhile_dropWhile, List.takeWhile_append_of_pos hds,
    List.dropWhile_append_of_pos hds]
  cases rest with
  | nil => simp
  | cons c rest => simp [hrest c rfl]

theorem ne_sign_of_isDigit {c : Char} (h : c.isDigit = true) : c ≠ '+' ∧ c ≠ '-' := by
  constructor <;>
    · rintro rfl
      simp at h

/-- A sign is taken off, and nothing else if there is none. -/
theorem takeSign_append (sign : NumeralSign) {s : Text} (hs : ∀ c ∈ s.head?, c ≠ '+' ∧ c ≠ '-') :
    takeSign (sign.text ++ s) = (sign.isMinus, s) := by
  cases sign with
  | plus => rfl
  | minus => rfl
  | unsigned =>
    show takeSign s = (false, s)
    unfold takeSign
    split
    · exact absurd rfl (hs '-' rfl).2
    · exact absurd rfl (hs '+' rfl).1
    · rfl

theorem ne_sign_of_head?_text (d : Digits) : ∀ c ∈ d.text.head?, c ≠ '+' ∧ c ≠ '-' :=
  fun c hc => ne_sign_of_isDigit (d.isDigit c (List.mem_of_mem_head? hc))

theorem readExponent?_text (e : NumeralExponent) : readExponent? e.text = some e.value := by
  have hletter : ∀ upper : Bool,
      ((if upper then 'E' else 'e') == 'e' || (if upper then 'E' else 'e') == 'E') = true := by
    decide
  have hdigits : (e.digits.text.isEmpty || !e.digits.text.all Char.isDigit) = false := by
    simp [e.ne_nil, e.digits.all_isDigit]
  simp only [NumeralExponent.text, readExponent?, hletter, if_true,
    takeSign_append e.sign (ne_sign_of_head?_text e.digits), hdigits, Bool.false_eq_true, if_false]
  exact (apply_ite some _ _ _).symm

variable (n : Numeral)

theorem readExponent?_exponentText :
    readExponent? n.exponentText = some ((n.exponent.map NumeralExponent.value).getD 0) := by
  unfold Numeral.exponentText
  cases n.exponent with
  | none => rfl
  | some e => exact readExponent?_text e

/-- An exponent starts with its letter. -/
theorem head?_exponentText : ∀ c ∈ n.exponentText.head?, c.isDigit = false ∧ c ≠ '.' := by
  unfold Numeral.exponentText
  cases n.exponent with
  | none => simp
  | some e =>
    obtain ⟨upper, sign, digits, hne⟩ := e
    cases upper <;> simp [NumeralExponent.text]

theorem takeFraction_pointText :
    takeFraction (n.pointText ++ n.exponentText) = (n.fractionDigits, n.exponentText) := by
  have hhead := head?_exponentText n
  unfold Numeral.pointText Numeral.fractionDigits
  cases n.fraction with
  | some d => exact span_digits d.isDigit _ fun c hc => (hhead c hc).1
  | none =>
    show takeFraction n.exponentText = ([], n.exponentText)
    unfold takeFraction
    split
    · rename_i rest heq
      exact absurd rfl (hhead '.' (by rw [heq]; rfl)).2
    · rfl

theorem head?_pointText : ∀ c ∈ (n.pointText ++ n.exponentText).head?, c.isDigit = false := by
  have hhead := head?_exponentText n
  unfold Numeral.pointText
  cases n.fraction with
  | none => exact fun c hc => (hhead c hc).1
  | some d => simp

/-! ## Numerals are read -/

theorem readUnsigned?_unsignedText : readUnsigned? n.unsignedText = some n.decimal := by
  have hdigit : (n.whole.text.isEmpty && n.fractionDigits.isEmpty) = false := by
    simpa [Numeral.fractionDigits, imp_iff_not_or] using n.hasDigit
  simp only [readUnsigned?, Numeral.unsignedText,
    span_digits n.whole.isDigit _ (head?_pointText n), takeFraction_pointText, hdigit,
    readExponent?_exponentText, Option.map_some]
  rfl

/-- A numeral without its sign starts with a digit or a point. -/
theorem head?_unsignedText : ∀ c ∈ n.unsignedText.head?, c ≠ '+' ∧ c ≠ '-' := by
  obtain ⟨sign, ⟨whole, hwhole⟩, fraction, exponent, hdigit⟩ := n
  cases whole with
  | cons d ds =>
    intro c hc
    obtain rfl : d = c := Option.some.inj hc
    exact ne_sign_of_isDigit (List.all_eq_true.mp hwhole d List.mem_cons_self)
  | nil =>
    cases fraction with
    | none => simp at hdigit
    | some d =>
      intro c hc
      obtain rfl : '.' = c := Option.some.inj hc
      decide

/-- **A numeral is read as what it writes.** -/
theorem read?_text : read? n.text = some (n.sign.isMinus, n.decimal) := by
  simp only [read?, Numeral.text, takeSign_append n.sign (head?_unsignedText n),
    readUnsigned?_unsignedText, Option.map_some]

theorem text_ne_nil : n.text ≠ [] := by
  intro h
  have hread := read?_text n
  rw [h] at hread
  cases hread

/-! ## Nothing else is read -/

theorem exists_sign (s : Text) : ∃ sign : NumeralSign, s = sign.text ++ (takeSign s).2 := by
  unfold takeSign
  split
  · exact ⟨.minus, rfl⟩
  · exact ⟨.plus, rfl⟩
  · exact ⟨.unsigned, rfl⟩

theorem exists_digits (s : Text) :
    ∃ d : Digits, d.text = (s.span Char.isDigit).1 ∧ s = d.text ++ (s.span Char.isDigit).2 := by
  rw [List.span_eq_takeWhile_dropWhile]
  exact ⟨⟨s.takeWhile Char.isDigit, List.all_takeWhile⟩, rfl,
    List.takeWhile_append_dropWhile.symm⟩

theorem exists_fraction (s : Text) :
    ∃ fraction : Option Digits, (fraction.map Digits.text).getD [] = (takeFraction s).1 ∧
      s = (fraction.map fun d => '.' :: d.text).getD [] ++ (takeFraction s).2 := by
  unfold takeFraction
  split
  · rename_i rest
    obtain ⟨d, hd, hrest⟩ := exists_digits rest
    exact ⟨some d, hd, congrArg _ hrest⟩
  · exact ⟨none, rfl, rfl⟩

theorem exists_exponent {s : Text} (h : (readExponent? s).isSome = true) :
    ∃ exponent : Option NumeralExponent, s = (exponent.map NumeralExponent.text).getD [] := by
  cases s with
  | nil => exact ⟨none, rfl⟩
  | cons c rest =>
    rw [readExponent?] at h
    split at h
    · rename_i hc
      obtain ⟨sign, hsign⟩ := exists_sign rest
      simp only at h
      split at h
      · simp at h
      · rename_i hdigits
        simp only [Bool.or_eq_true, not_or, Bool.not_eq_true, Bool.not_eq_false',
          List.isEmpty_eq_false_iff] at hdigits
        have hletter : c = if c == 'E' then 'E' else 'e' := by
          simp only [Bool.or_eq_true, beq_iff_eq] at hc
          rcases hc with rfl | rfl <;> rfl
        refine ⟨some ⟨c == 'E', sign, ⟨(takeSign rest).2, hdigits.2⟩, hdigits.1⟩, ?_⟩
        rw [Option.map_some, Option.getD_some, NumeralExponent.text, ← hletter]
        exact congrArg _ hsign
    · simp at h

/-- **The literals are the texts of the numerals.** -/
theorem isLiteral_iff {s : Text} : isLiteral s = true ↔ ∃ n : Numeral, n.text = s := by
  constructor
  · intro h
    rw [isLiteral, read?, Option.isSome_map, readUnsigned?] at h
    obtain ⟨sign, hsign⟩ := exists_sign s
    obtain ⟨whole, hwhole, hrest⟩ := exists_digits (takeSign s).2
    obtain ⟨fraction, hfraction, hexponent⟩ :=
      exists_fraction ((takeSign s).2.span Char.isDigit).2
    simp only at h
    split at h
    · simp at h
    · rename_i hdigit
      rw [Option.isSome_map] at h
      obtain ⟨exponent, hend⟩ := exists_exponent h
      rw [← hwhole, ← hfraction] at hdigit
      refine ⟨⟨sign, whole, fraction, exponent, ?_⟩, ?_⟩
      · simpa [imp_iff_not_or] using hdigit
      · rw [hend] at hexponent
        rw [hexponent] at hrest
        rw [hrest] at hsign
        exact hsign.symm
  · rintro ⟨n, rfl⟩
    rw [isLiteral, read?_text]
    rfl

end SearchLang.Decimal
