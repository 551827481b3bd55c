import SearchLang.Number.Layout
import SearchLang.Proofs.Number.Numeral
import SearchLang.Proofs.Number.Rounding

/-!
# Numbers read back

The text of a finite number in a query is a literal of the same number: the
digits are the shortest that round to it, and neither their zeros nor the point
changes their value.
-/

namespace SearchLang

namespace Decimal

/-! ## Digits -/

theorem isDigit_of_mem_digits {n : Nat} {c : Char} (h : c ∈ digits n) : c.isDigit = true :=
  Nat.isDigit_of_mem_toDigits (by decide) (by decide) h

theorem digits_ne_nil (n : Nat) : digits n ≠ [] :=
  Nat.toDigits_ne_nil

theorem ofDigits_digits (n : Nat) : ofDigits (digits n) = n :=
  Nat.ofDigitChars_ten_toDigits

theorem ofDigits_digits_append_zeros (n k : Nat) :
    ofDigits (digits n ++ List.replicate k '0') = n * Nat.pow 10 k := by
  show Nat.ofDigitChars 10 (Nat.toDigits 10 n ++ List.replicate k '0') 0 = n * 10 ^ k
  rw [Nat.ofDigitChars_append, Nat.ofDigitChars_ten_toDigits, Nat.ofDigitChars_replicate_zero,
    Nat.mul_comm]

/-- Zeros in front of digits do not count. -/
theorem ofDigits_zeros_append_digits (k n : Nat) :
    ofDigits (List.replicate k '0' ++ digits n) = n := by
  show Nat.ofDigitChars 10 (List.replicate k '0' ++ Nat.toDigits 10 n) 0 = n
  rw [Nat.ofDigitChars_append, Nat.ofDigitChars_replicate_zero, Nat.mul_zero,
    Nat.ofDigitChars_ten_toDigits]

/-! ## Literals -/

theorem readUnsigned?_whole {ds : Text} (hne : ds ≠ []) (hds : ∀ c ∈ ds, c.isDigit = true) :
    readUnsigned? ds = some ⟨ofDigits ds, 0⟩ := by
  have hread := readUnsigned?_unsignedText
    ⟨.unsigned, ⟨ds, List.all_eq_true.mpr hds⟩, none, none, .inl hne⟩
  simpa [Numeral.unsignedText, Numeral.pointText, Numeral.exponentText, Numeral.decimal,
    Numeral.fractionDigits] using hread

theorem readUnsigned?_point {whole fraction : Text} (hne : whole ≠ [])
    (hw : ∀ c ∈ whole, c.isDigit = true) (hf : ∀ c ∈ fraction, c.isDigit = true) :
    readUnsigned? (whole ++ '.' :: fraction) =
      some ⟨ofDigits (whole ++ fraction), -fraction.length⟩ := by
  have hread := readUnsigned?_unsignedText ⟨.unsigned, ⟨whole, List.all_eq_true.mpr hw⟩,
    some ⟨fraction, List.all_eq_true.mpr hf⟩, none, .inl hne⟩
  simpa [Numeral.unsignedText, Numeral.pointText, Numeral.exponentText, Numeral.decimal,
    Numeral.fractionDigits] using hread

/-- The text of a decimal is a literal of it; a positive exponent is multiplied out. -/
theorem readUnsigned?_setPlain (c : Nat) (e : Int) :
    readUnsigned? (NumberLayout.setPlain [] (digits c) e) =
      some (if 0 ≤ e then ⟨c * Nat.pow 10 e.toNat, 0⟩ else ⟨c, e⟩) := by
  have hdigits : ∀ d ∈ digits c, d.isDigit = true := fun d => isDigit_of_mem_digits
  have hne := digits_ne_nil c
  unfold NumberLayout.setPlain
  split
  · have hall : ∀ d ∈ digits c ++ List.replicate e.toNat '0', d.isDigit = true := by
      intro d hd
      rcases List.mem_append.mp hd with hd | hd
      · exact hdigits d hd
      · rw [List.eq_of_mem_replicate hd]
        rfl
    rw [List.append_nil, readUnsigned?_whole (by simp [hne]) hall, ofDigits_digits_append_zeros]
  · simp only
    split
    · -- the point stands inside the digits
      rename_i hlt
      have hwhole : (digits c).take ((digits c).length - (-e).toNat) ≠ [] := by
        intro h
        have := congrArg List.length h
        simp only [List.length_take, List.length_nil] at this
        omega
      rw [readUnsigned?_point hwhole (fun d hd => hdigits d (List.mem_of_mem_take hd))
        (fun d hd => hdigits d (List.mem_of_mem_drop hd)), List.take_append_drop,
        ofDigits_digits, List.length_drop]
      congr 2
      omega
    · -- the point stands before the digits, with zeros between
      rename_i hge
      have hfraction : ∀ d ∈ List.replicate ((-e).toNat - (digits c).length) '0' ++ digits c,
          d.isDigit = true := by
        intro d hd
        rcases List.mem_append.mp hd with hd | hd
        · rw [List.eq_of_mem_replicate hd]
          rfl
        · exact hdigits d hd
      have hread := readUnsigned?_point (List.cons_ne_nil '0' []) (by simp) hfraction
      have hvalue := ofDigits_zeros_append_digits ((-e).toNat - (digits c).length + 1) c
      rw [List.replicate_succ] at hvalue
      simp only [List.cons_append, List.nil_append] at hread hvalue ⊢
      rw [hread, hvalue]
      congr 2
      simp only [List.length_append, List.length_replicate]
      omega

/-! ## Characters -/

/-- A character that a literal may hold. -/
def isLiteralChar (c : Char) : Bool :=
  c.isDigit || ['.', 'e', 'E', '+', '-'].contains c

theorem isLiteralChar_of_isDigit {c : Char} (h : c.isDigit = true) : isLiteralChar c = true := by
  simp [isLiteralChar, h]

theorem isLiteralChar_of_mem_text (n : Numeral) : ∀ c ∈ n.text, isLiteralChar c = true := by
  have hsign (sign : NumeralSign) : ∀ c ∈ sign.text, isLiteralChar c = true := by
    cases sign <;> exact List.all_eq_true.mp (by decide)
  have hdigits (d : Digits) : ∀ c ∈ d.text, isLiteralChar c = true :=
    fun c hc => isLiteralChar_of_isDigit (d.isDigit c hc)
  have hpoint : ∀ c ∈ n.pointText, isLiteralChar c = true := by
    unfold Numeral.pointText
    cases n.fraction with
    | none => exact List.forall_mem_nil _
    | some d => exact List.forall_mem_cons.mpr ⟨rfl, hdigits d⟩
  have hexponent : ∀ c ∈ n.exponentText, isLiteralChar c = true := by
    unfold Numeral.exponentText
    cases n.exponent with
    | none => exact List.forall_mem_nil _
    | some e =>
      refine List.forall_mem_cons.mpr ⟨by split <;> rfl, ?_⟩
      exact List.forall_mem_append.mpr ⟨hsign e.sign, hdigits e.digits⟩
  simp only [Numeral.text, Numeral.unsignedText, List.forall_mem_append]
  exact ⟨hsign n.sign, hdigits n.whole, hpoint, hexponent⟩

/-- A literal is made of digits, points, signs and the letter of its exponent. -/
theorem isLiteralChar_of_read? {s : Text} (h : (read? s).isSome = true) :
    ∀ c ∈ s, isLiteralChar c = true := by
  obtain ⟨n, rfl⟩ := isLiteral_iff.mp h
  exact isLiteralChar_of_mem_text n

end Decimal

/-! ## Numbers -/

/-- A decimal reads the same with its zeros written out. -/
theorem Magnitude.nearest?_writtenOut {d : Decimal} (he : 0 ≤ d.exponent) :
    nearest? ⟨d.coefficient * Nat.pow 10 d.exponent.toNat, 0⟩ = nearest? d := by
  refine nearest?_congr ?_
  rw [Decimal.value_of_nonneg he, Decimal.value, zpow_zero, mul_one]

namespace Number

/-- A decimal is written with digits, and with a point and digits after them if it needs a
fraction. -/
theorem exists_setPlain (n : Nat) (e : Int) :
    ∃ whole point, NumberLayout.setPlain [] (Decimal.digits n) e = whole ++ point ∧
      (whole ≠ [] ∧ ∀ c ∈ whole, c.isDigit = true) ∧
      (point = [] ∨ ∃ fraction, point = '.' :: fraction ∧
        fraction ≠ [] ∧ ∀ c ∈ fraction, c.isDigit = true) := by
  have hne := Decimal.digits_ne_nil n
  have hdigits : ∀ c ∈ Decimal.digits n, c.isDigit = true := fun c => Decimal.isDigit_of_mem_digits
  have hzeros {k : Nat} : ∀ c ∈ List.replicate k '0', c.isDigit = true := by
    intro c hc
    rw [List.eq_of_mem_replicate hc]
    rfl
  unfold NumberLayout.setPlain
  split
  · refine ⟨_, [], rfl, ⟨by simp [hne], fun c hc => ?_⟩, .inl rfl⟩
    exact (List.mem_append.mp hc).elim (hdigits c) (hzeros c)
  · simp only
    split
    · -- the point stands inside the digits
      rename_i hlt
      refine ⟨_, _, rfl, ⟨fun h => ?_, fun c hc => hdigits c (List.mem_of_mem_take hc)⟩,
        .inr ⟨_, rfl, fun h => ?_, fun c hc => hdigits c (List.mem_of_mem_drop hc)⟩⟩
      · have hlength := congrArg List.length h
        simp only [List.length_take, List.length_nil] at hlength
        omega
      · have hlength := congrArg List.length h
        simp only [List.length_drop, List.length_nil] at hlength
        omega
    · -- the point stands before the digits, with zeros between
      refine ⟨['0'], _, rfl, ⟨by simp, by simp⟩, .inr ⟨_, rfl, by simp [hne], fun c hc => ?_⟩⟩
      exact (List.mem_append.mp hc).elim (hzeros c) (hdigits c)

theorem mem_setPlain (n : Nat) (e : Int) :
    ∀ c ∈ NumberLayout.setPlain [] (Decimal.digits n) e, c.isDigit = true ∨ c = '.' := by
  obtain ⟨whole, point, htext, ⟨-, hwhole⟩, hpoint⟩ := exists_setPlain n e
  intro c hc
  rw [htext] at hc
  rcases List.mem_append.mp hc with hc | hc
  · exact .inl (hwhole c hc)
  · rcases hpoint with rfl | ⟨fraction, rfl, -, hfraction⟩
    · simp at hc
    · exact (List.mem_cons.mp hc).elim .inr fun hc => .inl (hfraction c hc)

/-- The text of a magnitude in a query. -/
theorem magnitude_query (x : Magnitude) :
    NumberLayout.query.magnitude x =
      NumberLayout.setPlain [] (Decimal.digits (x.shortest .up).coefficient)
        (x.shortest .up).exponent := rfl

theorem takeSign_magnitude (x : Magnitude) :
    Decimal.takeSign (NumberLayout.query.magnitude x) = (false, NumberLayout.query.magnitude x) := by
  unfold Decimal.takeSign
  split
  · rename_i heq
    have := mem_setPlain _ _ '-' (by rw [← magnitude_query, heq]; simp)
    simp at this
  · rename_i heq
    have := mem_setPlain _ _ '+' (by rw [← magnitude_query, heq]; simp)
    simp at this
  · rfl

/-- The text of a magnitude is a literal of it. -/
theorem ofDecimal_magnitude (negative : Bool) (x : Magnitude) :
    (Decimal.readUnsigned? (NumberLayout.query.magnitude x)).map (ofDecimal negative) =
      some (.finite negative x) := by
  have hx : Magnitude.nearest? (x.shortest .up) = some x := Magnitude.nearest?_shortest .up x
  rw [magnitude_query, Decimal.readUnsigned?_setPlain]
  split
  · rename_i he
    rw [Option.map_some, ofDecimal, Magnitude.nearest?_writtenOut he, hx]
  · rw [Option.map_some, ofDecimal, hx]

/-- **A finite number is read back from its text.** -/
theorem ofLiteral?_display {n : Number} (h : n.isFinite = true) : ofLiteral? n.display = some n := by
  cases n with
  | infinite negative => simp [isFinite] at h
  | nan => simp [isFinite] at h
  | finite negative x =>
    have hread := ofDecimal_magnitude negative x
    rw [Option.map_eq_some_iff] at hread
    obtain ⟨d, hd, hvalue⟩ := hread
    cases negative with
    | true =>
      show ofLiteral? ('-' :: NumberLayout.query.magnitude x) = _
      simp [ofLiteral?, Decimal.read?, Decimal.takeSign, hd, hvalue]
    | false =>
      show ofLiteral? (NumberLayout.query.magnitude x) = _
      simp [ofLiteral?, Decimal.read?, takeSign_magnitude, hd, hvalue]

/-- The characters that finite numbers are written with in a query. -/
def isDisplayChar (c : Char) : Bool :=
  c.isDigit || c == '.' || c == '-'

theorem isDisplayChar_of_mem_display {n : Number} (h : n.isFinite = true) {c : Char}
    (hc : c ∈ n.display) : isDisplayChar c = true := by
  have hmagnitude (x : Magnitude) (hc : c ∈ NumberLayout.query.magnitude x) :
      isDisplayChar c = true := by
    rcases mem_setPlain _ _ c hc with hd | rfl
    · simp [isDisplayChar, hd]
    · rfl
  cases n with
  | infinite negative => simp [isFinite] at h
  | nan => simp [isFinite] at h
  | finite negative x =>
    cases negative with
    | false => exact hmagnitude x hc
    | true =>
      rcases List.mem_cons.mp hc with rfl | hc
      · rfl
      · exact hmagnitude x hc

theorem display_ne_nil {n : Number} (h : n.isFinite = true) : n.display ≠ [] := by
  intro hnil
  have hread := ofLiteral?_display h
  rw [hnil] at hread
  simp [ofLiteral?, Decimal.read?, Decimal.takeSign, Decimal.readUnsigned?_nil] at hread

end Number

end SearchLang
