import SearchLang.Json.Read
import SearchLang.Proofs.Number.ReadBack

/-!
# Numbers read back from JSON

The text of a finite number in a JSON text keeps the rules of JSON numbers, and
is read as the same number whatever follows it, unless that goes on with it
(`Json.readNumber?_json`). It is a row of digits with a fraction, an exponent or
both (`Decimal.literal`), and neither form changes the value of its digits.
-/

namespace SearchLang

/-! ## Zeros -/

/-- A zero after the point does not count. -/
theorem Magnitude.nearest?_zeroFraction (m : Nat) : nearest? ⟨m * 10, -1⟩ = nearest? ⟨m, 0⟩ := by
  refine nearest?_congr ?_
  have hten : (10 : ℚ) * 10 ^ (-1 : Int) = 1 := by norm_num
  rw [Decimal.value, Decimal.value, Nat.cast_mul, Nat.cast_ofNat, mul_assoc, hten, zpow_zero]

/-- Of the shortest digits only those of zero are zero, and then zero has no exponent. -/
theorem Magnitude.shortest_of_coefficient_eq_zero {tie : Tie} {x : Magnitude}
    (h : (x.shortest tie).coefficient = 0) : x.shortest tie = ⟨0, 0⟩ := by
  have hread := nearest?_shortest tie x
  unfold nearest? at hread
  rw [if_pos h] at hread
  obtain rfl := Option.some.inj hread
  rfl

namespace Decimal

/-! ## Literals -/

/-- A point and digits, unless there are no digits. -/
def fractionText (fraction : Text) : Text :=
  if fraction = [] then [] else '.' :: fraction

/-- An exponent with its sign, if there is one. -/
def exponentText : Option Int → Text
  | some e => 'e' :: (if e < 0 then '-' else '+') :: digits e.natAbs
  | none => []

/-- Digits, the fraction after them if it has digits, and an exponent if there is one. -/
def literal (whole fraction : Text) (exponent : Option Int) : Text :=
  whole ++ (fractionText fraction ++ exponentText exponent)

/-- An exponent that is written with its sign. -/
def signedExponent (e : Int) : NumeralExponent where
  sign := if e < 0 then .minus else .plus
  digits := ⟨digits e.natAbs, List.all_eq_true.mpr fun _ => isDigit_of_mem_digits⟩
  ne_nil := digits_ne_nil e.natAbs

theorem text_signedExponent (e : Int) : (signedExponent e).text = exponentText (some e) := by
  rw [NumeralExponent.text, exponentText]
  by_cases he : e < 0 <;> simp [signedExponent, he, NumeralSign.text]

theorem value_signedExponent (e : Int) : (signedExponent e).value = e := by
  have hdigits : (signedExponent e).digits.value = e.natAbs := ofDigits_digits e.natAbs
  rw [NumeralExponent.value, hdigits]
  by_cases he : e < 0
  · have hsign : (signedExponent e).sign = .minus := if_pos he
    rw [hsign, NumeralSign.isMinus, if_pos rfl]
    omega
  · have hsign : (signedExponent e).sign = .plus := if_neg he
    have hplus : NumeralSign.plus.isMinus = false := rfl
    rw [hsign, hplus, if_neg Bool.false_ne_true]
    omega

variable {whole fraction : Text} {exponent : Option Int}

/-- Such a literal is the text of a numeral without a sign. -/
theorem exists_numeral (exponent : Option Int) (hne : whole ≠ [])
    (hw : ∀ c ∈ whole, c.isDigit = true) (hf : ∀ c ∈ fraction, c.isDigit = true) :
    ∃ n : Numeral, (n.whole.text = whole ∧ n.pointText = fractionText fraction ∧
        n.exponentText = exponentText exponent) ∧
      n.decimal = ⟨ofDigits (whole ++ fraction), exponent.getD 0 - fraction.length⟩ := by
  have hpoint : ∃ point : Option Digits, (point.map Digits.text).getD [] = fraction ∧
      (point.map fun d => '.' :: d.text).getD [] = fractionText fraction := by
    by_cases hnil : fraction = []
    · exact ⟨none, hnil.symm, (if_pos hnil).symm⟩
    · exact ⟨some ⟨fraction, List.all_eq_true.mpr hf⟩, rfl, (if_neg hnil).symm⟩
  obtain ⟨point, hdigits, htext⟩ := hpoint
  refine ⟨⟨.unsigned, ⟨whole, List.all_eq_true.mpr hw⟩, point, exponent.map signedExponent,
    .inl hne⟩, ⟨rfl, htext, ?_⟩, ?_⟩
  · cases exponent with
    | none => rfl
    | some e => exact text_signedExponent e
  · have hvalue : ((exponent.map signedExponent).map NumeralExponent.value).getD 0 =
        exponent.getD 0 := by
      cases exponent with
      | none => rfl
      | some e => exact value_signedExponent e
    simp only [Numeral.decimal, Numeral.fractionDigits, hdigits, hvalue]

theorem readUnsigned?_literal (hne : whole ≠ []) (hw : ∀ c ∈ whole, c.isDigit = true)
    (hf : ∀ c ∈ fraction, c.isDigit = true) :
    readUnsigned? (literal whole fraction exponent) =
      some ⟨ofDigits (whole ++ fraction), exponent.getD 0 - fraction.length⟩ := by
  obtain ⟨n, ⟨hwhole, hpoint, hexponent⟩, hdecimal⟩ := exists_numeral exponent hne hw hf
  rw [literal, ← hdecimal, ← hwhole, ← hpoint, ← hexponent]
  exact readUnsigned?_unsignedText n

/-- The digits of a literal end before its point or its exponent. -/
theorem span_literal (hne : whole ≠ []) (hw : ∀ c ∈ whole, c.isDigit = true)
    (hf : ∀ c ∈ fraction, c.isDigit = true) :
    (literal whole fraction exponent).span Char.isDigit =
      (whole, fractionText fraction ++ exponentText exponent) := by
  obtain ⟨n, ⟨-, hpoint, hexponent⟩, -⟩ := exists_numeral exponent hne hw hf
  rw [literal, ← hpoint, ← hexponent]
  exact span_digits hw _ (head?_pointText n)

end Decimal

namespace Json

/-! ## The rules of JSON numbers -/

theorem isNumberChar_of_isDigit {c : Char} (h : c.isDigit = true) : isNumberChar c = true := by
  simp [isNumberChar, h]

theorem isNumberChar_of_mem_literal {whole fraction : Text} {exponent : Option Int}
    (hw : ∀ c ∈ whole, c.isDigit = true) (hf : ∀ c ∈ fraction, c.isDigit = true) :
    ∀ c ∈ Decimal.literal whole fraction exponent, isNumberChar c = true := by
  intro c hc
  simp only [Decimal.literal, Decimal.fractionText, List.mem_append] at hc
  rcases hc with hc | hc | hc
  · exact isNumberChar_of_isDigit (hw c hc)
  · split at hc
    · simp at hc
    · rcases List.mem_cons.mp hc with rfl | hc
      · rfl
      · exact isNumberChar_of_isDigit (hf c hc)
  · cases exponent with
    | none => simp [Decimal.exponentText] at hc
    | some e =>
      simp only [Decimal.exponentText, List.mem_cons] at hc
      rcases hc with rfl | rfl | hc
      · rfl
      · split <;> rfl
      · exact isNumberChar_of_isDigit (Decimal.isDigit_of_mem_digits hc)

/-- A minus, if there is one. -/
def minus (negative : Bool) : Text :=
  if negative then ['-'] else []

theorem isNumberLiteral_literal (negative : Bool) {whole fraction : Text} {exponent : Option Int}
    (hne : whole ≠ []) (hw : ∀ c ∈ whole, c.isDigit = true)
    (hzero : whole.head? ≠ some '0' ∨ whole.length = 1)
    (hf : ∀ c ∈ fraction, c.isDigit = true) :
    isNumberLiteral (minus negative ++ Decimal.literal whole fraction exponent) = true := by
  have hbody : (if (minus negative ++ Decimal.literal whole fraction exponent).head? = some '-'
      then (minus negative ++ Decimal.literal whole fraction exponent).drop 1
      else minus negative ++ Decimal.literal whole fraction exponent) =
      Decimal.literal whole fraction exponent := by
    cases negative with
    | true => rfl
    | false =>
      obtain ⟨d, ds, rfl⟩ := List.exists_cons_of_ne_nil hne
      have hd : d ≠ '-' := by
        rintro rfl
        simpa using hw '-' (by simp)
      simp [minus, Decimal.literal, hd]
  have hstart : (whole.head? != some '0' || whole.length == 1) = true := by
    rcases hzero with h | h
    · simp [bne_iff_ne.mpr h]
    · simp [h]
  unfold isNumberLiteral
  simp only [hbody]
  rw [Decimal.span_literal hne hw hf]
  simp only [hstart, Bool.and_true, Bool.and_eq_true, Bool.not_eq_true', List.isEmpty_eq_false_iff]
  refine ⟨hne, ?_⟩
  cases fraction with
  | nil => cases exponent <;> rfl
  | cons f fs => exact hf f (by simp)

end Json

/-! ## The text of a number -/

/-- The digits of a number other than zero start with another digit. -/
theorem Decimal.head?_digits {n : Nat} (hn : n ≠ 0) : (digits n).head? ≠ some '0' := by
  induction n using Nat.strongRecOn with
  | ind n ih =>
    by_cases hlt : n < 10
    · have hchar : ∀ m < 10, m ≠ 0 → Nat.digitChar m ≠ '0' := by decide
      rw [digits, Nat.toDigits_of_lt_base hlt]
      simpa using hchar n hlt hn
    · have hhead := ih (n / 10) (by omega) (by omega)
      rw [digits, Nat.toDigits_of_base_le (by decide) (by omega)]
      rwa [List.head?_append, Option.or_of_isSome (List.isSome_head?.mpr Nat.toDigits_ne_nil)]

/-- The parts of a literal that keeps the rules of JSON numbers and reads as a magnitude. -/
structure Writes (whole fraction : Text) (exponent : Option Int) (x : Magnitude) : Prop where
  ne_nil : whole ≠ []
  digits_whole : ∀ c ∈ whole, c.isDigit = true
  lead : whole.head? ≠ some '0' ∨ whole.length = 1
  digits_fraction : ∀ c ∈ fraction, c.isDigit = true
  value : Magnitude.nearest? ⟨Decimal.ofDigits (whole ++ fraction),
    exponent.getD 0 - fraction.length⟩ = some x

section Layout

open Decimal NumberLayout

variable {c : Nat} {e : Int} {x : Magnitude}

theorem isDigit_of_mem_zeros {k : Nat} {d : Char} (h : d ∈ List.replicate k '0') :
    d.isDigit = true := by
  rw [List.eq_of_mem_replicate h]
  rfl

/-- Digits, zeros for the exponent, and a fraction of one zero. -/
theorem writes_whole (hread : Magnitude.nearest? ⟨c, e⟩ = some x) (he : 0 ≤ e)
    (hc : c = 0 → e = 0) : Writes (digits c ++ List.replicate e.toNat '0') ['0'] none x where
  ne_nil := by simp [digits_ne_nil]
  digits_whole d hd := (List.mem_append.mp hd).elim isDigit_of_mem_digits isDigit_of_mem_zeros
  lead := by
    by_cases hzero : c = 0
    · obtain rfl := hc hzero
      subst hzero
      exact .inr rfl
    · left
      rw [List.head?_append, Option.or_of_isSome (List.isSome_head?.mpr (digits_ne_nil c))]
      exact head?_digits hzero
  digits_fraction := by simp
  value := by
    have hvalue : ofDigits (digits c ++ List.replicate e.toNat '0' ++ ['0']) =
        c * Nat.pow 10 e.toNat * 10 := by
      rw [List.append_assoc, ← List.replicate_succ', ofDigits_digits_append_zeros, Nat.mul_assoc]
      rfl
    rw [hvalue]
    calc Magnitude.nearest? ⟨c * Nat.pow 10 e.toNat * 10, -1⟩
        = Magnitude.nearest? ⟨c * Nat.pow 10 e.toNat, 0⟩ := Magnitude.nearest?_zeroFraction _
      _ = Magnitude.nearest? ⟨c, e⟩ := Magnitude.nearest?_writtenOut (d := ⟨c, e⟩) he
      _ = some x := hread

/-- Digits with a point among them. -/
theorem writes_point (hread : Magnitude.nearest? ⟨c, e⟩ = some x) (he : e < 0) (hc : c ≠ 0)
    (hlt : (-e).toNat < (digits c).length) :
    Writes ((digits c).take ((digits c).length - (-e).toNat))
      ((digits c).drop ((digits c).length - (-e).toNat)) none x where
  ne_nil := by
    intro h
    have hlength := congrArg List.length h
    simp only [List.length_take, List.length_nil] at hlength
    omega
  digits_whole d hd := isDigit_of_mem_digits (List.mem_of_mem_take hd)
  lead := by
    left
    rw [List.head?_take, if_neg (by omega)]
    exact head?_digits hc
  digits_fraction d hd := isDigit_of_mem_digits (List.mem_of_mem_drop hd)
  value := by
    have hlength : (none : Option Int).getD 0 -
        ((digits c).drop ((digits c).length - (-e).toNat)).length = e := by
      simp only [List.length_drop, Option.getD_none]
      omega
    rw [List.take_append_drop, ofDigits_digits, hlength]
    exact hread

/-- A zero, and a fraction of zeros and digits. -/
theorem writes_small (hread : Magnitude.nearest? ⟨c, e⟩ = some x) (he : e < 0)
    (hle : (digits c).length ≤ (-e).toNat) :
    Writes ['0'] (List.replicate ((-e).toNat - (digits c).length) '0' ++ digits c) none x where
  ne_nil := List.cons_ne_nil _ _
  digits_whole := by simp
  lead := .inr rfl
  digits_fraction d hd := (List.mem_append.mp hd).elim isDigit_of_mem_zeros isDigit_of_mem_digits
  value := by
    have hzeros : ['0'] ++ (List.replicate ((-e).toNat - (digits c).length) '0' ++ digits c) =
        List.replicate ((-e).toNat - (digits c).length + 1) '0' ++ digits c := by
      rw [List.replicate_succ]
      rfl
    have hlength : (none : Option Int).getD 0 -
        (List.replicate ((-e).toNat - (digits c).length) '0' ++ digits c).length = e := by
      simp only [List.length_append, List.length_replicate, Option.getD_none]
      omega
    rw [hzeros, ofDigits_zeros_append_digits, hlength]
    exact hread

/-- A first digit, a fraction of the others, and an exponent. -/
theorem writes_scientific (hread : Magnitude.nearest? ⟨c, e⟩ = some x) {d : Char} {ds : Text}
    (hdigits : digits c = d :: ds) : Writes [d] ds (some (e + (digits c).length - 1)) x where
  ne_nil := List.cons_ne_nil d []
  digits_whole := by
    have hd : d.isDigit = true := isDigit_of_mem_digits (n := c) (by simp [hdigits])
    simpa using hd
  lead := .inr rfl
  digits_fraction f hf := isDigit_of_mem_digits (n := c) (by simp [hdigits, hf])
  value := by
    have hlength : (some (e + (digits c).length - 1)).getD 0 - ds.length = e := by
      simp only [hdigits, List.length_cons, Option.getD_some]
      omega
    rw [hlength, List.singleton_append, ← hdigits, ofDigits_digits]
    exact hread

theorem setScientific_eq_literal {d : Char} {ds : Text} (first : Int) :
    setScientific (d :: ds) first = literal [d] ds (some first) := by
  cases ds with
  | nil => rfl
  | cons f fs => simp [setScientific, literal, fractionText, exponentText]

/-- The text of a magnitude in a JSON text is a literal that reads as it. -/
theorem exists_writes (x : Magnitude) : ∃ whole fraction exponent,
    json.magnitude x = literal whole fraction exponent ∧ Writes whole fraction exponent x := by
  have hread : Magnitude.nearest? (x.shortest json.tie) = some x :=
    Magnitude.nearest?_shortest json.tie x
  have hzero : (x.shortest json.tie).coefficient = 0 → (x.shortest json.tie).exponent = 0 :=
    fun h => by rw [Magnitude.shortest_of_coefficient_eq_zero h]
  unfold magnitude
  generalize x.shortest json.tie = d at hread hzero
  obtain ⟨c, e⟩ := d
  simp only at hzero ⊢
  split
  · unfold setPlain
    split
    · rename_i he
      refine ⟨_, _, _, ?_, writes_whole hread he hzero⟩
      simp [literal, fractionText, exponentText, json]
    · rename_i he
      have hc : c ≠ 0 := fun h => he (hzero h ▸ Int.le_refl 0)
      simp only
      split
      · rename_i hlt
        refine ⟨_, _, _, ?_, writes_point hread (by omega) hc hlt⟩
        have hne : (digits c).drop ((digits c).length - (-e).toNat) ≠ [] := by
          intro h
          have hlength := congrArg List.length h
          simp only [List.length_drop, List.length_nil] at hlength
          omega
        simp [literal, fractionText, exponentText, hne]
      · rename_i hge
        refine ⟨_, _, _, ?_, writes_small hread (by omega) (by omega)⟩
        simp [literal, fractionText, exponentText, digits_ne_nil]
  · obtain ⟨d, ds, hdigits⟩ := List.exists_cons_of_ne_nil (digits_ne_nil c)
    exact ⟨_, _, _, by rw [hdigits]; exact setScientific_eq_literal _,
      hdigits ▸ writes_scientific hread hdigits⟩

end Layout

/-- A minus stands before the magnitude of a negative number, and nothing before any other. -/
theorem Number.json_eq (negative : Bool) (x : Magnitude) :
    Number.json (.finite negative x) = Json.minus negative ++ NumberLayout.json.magnitude x := by
  cases negative <;> rfl

namespace Json

/-- A sign is taken off a text of digits if there is one. -/
theorem takeSign_minus (negative : Bool) {whole : Text} (hne : whole ≠ [])
    (hw : ∀ c ∈ whole, c.isDigit = true) (rest : Text) :
    Decimal.takeSign (minus negative ++ (whole ++ rest)) = (negative, whole ++ rest) := by
  cases negative with
  | true => rfl
  | false =>
    obtain ⟨d, ds, rfl⟩ := List.exists_cons_of_ne_nil hne
    have hd : d.isDigit = true := hw d (by simp)
    unfold Decimal.takeSign
    split
    · rename_i heq
      obtain ⟨rfl, -⟩ : d = '-' ∧ _ := by simpa [minus] using heq
      simp at hd
    · rename_i heq
      obtain ⟨rfl, -⟩ : d = '+' ∧ _ := by simpa [minus] using heq
      simp at hd
    · rfl

/-- The text of a finite number is a literal that keeps the rules of JSON numbers and reads as it. -/
theorem exists_json {n : Number} (h : n.isFinite = true) :
    ∃ negative x whole fraction exponent, n = .finite negative x ∧
      n.json = minus negative ++ Decimal.literal whole fraction exponent ∧
      Writes whole fraction exponent x := by
  cases n with
  | infinite negative => simp [Number.isFinite] at h
  | nan => simp [Number.isFinite] at h
  | finite negative x =>
    obtain ⟨whole, fraction, exponent, htext, hwrites⟩ := exists_writes x
    exact ⟨negative, x, whole, fraction, exponent, rfl, by rw [Number.json_eq, htext], hwrites⟩

theorem isNumberChar_of_mem_json {n : Number} (h : n.isFinite = true) :
    ∀ c ∈ n.json, isNumberChar c = true := by
  obtain ⟨negative, x, whole, fraction, exponent, -, hjson, hwrites⟩ := exists_json h
  intro c hc
  rw [hjson] at hc
  rcases List.mem_append.mp hc with hc | hc
  · obtain rfl : c = '-' := by cases negative <;> simp_all [minus]
    rfl
  · exact isNumberChar_of_mem_literal hwrites.digits_whole hwrites.digits_fraction c hc

theorem json_ne_nil {n : Number} (h : n.isFinite = true) : n.json ≠ [] := by
  obtain ⟨negative, x, whole, fraction, exponent, -, hjson, hwrites⟩ := exists_json h
  simp [hjson, Decimal.literal, hwrites.ne_nil]

/-- A text that does not go on with a number before it. -/
def EndsNumber (rest : Text) : Prop :=
  ∀ c ∈ rest.head?, isNumberChar c = false

/-- **A finite number is read back from its text in a JSON text.** -/
theorem readNumber?_json {n : Number} (h : n.isFinite = true) {rest : Text}
    (hrest : EndsNumber rest) : readNumber? (n.json ++ rest) = some (n, rest) := by
  have hchars := isNumberChar_of_mem_json h
  have hspan : (n.json ++ rest).span isNumberChar = (n.json, rest) := by
    rw [List.span_eq_takeWhile_dropWhile, List.takeWhile_append_of_pos hchars,
      List.dropWhile_append_of_pos hchars]
    cases rest with
    | nil => simp
    | cons c rest => simp [hrest c rfl]
  obtain ⟨negative, x, whole, fraction, exponent, hn, hjson, hwrites⟩ := exists_json h
  obtain ⟨hne, hw, hlead, hf, hvalue⟩ := hwrites
  have hliteral : isNumberLiteral n.json = true := by
    rw [hjson]
    exact isNumberLiteral_literal negative hne hw hlead hf
  have hread : Number.ofLiteral? n.json = some n := by
    rw [hjson, Number.ofLiteral?, Decimal.read?, Decimal.literal, takeSign_minus negative hne hw]
    simp only
    rw [← Decimal.literal, Decimal.readUnsigned?_literal hne hw hf]
    simp only [Option.map_some, Number.ofDecimal, hvalue, hn]
  unfold readNumber?
  rw [hspan]
  simp only [hliteral, hread, h, if_true]

end Json

end SearchLang
