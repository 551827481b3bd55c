import SearchLang.Proofs.Scan.Render

/-!
# Scanning numerals

A literal of a number is one chunk in every shape that it may have, and the
number that it writes is tried before anything else that the chunk might be: its
sign is never an operator, and it is never a word. So literals with spaces
between them are scanned to their numbers (`scan_numerals`).
-/

namespace SearchLang.Scan

open Chunk

theorem isTame_of_isLiteralChar {c : Char} (h : Decimal.isLiteralChar c = true) :
    isTame c = true := by
  simp only [Decimal.isLiteralChar, Bool.or_eq_true, List.contains_iff_mem] at h
  rcases h with h | h
  · exact isTame_of_isNameRest (by simp [Pattern.isNameRest, isNameChar_of_isDigit h])
  · exact List.all_eq_true.mp (by decide) c h

theorem number?_text {n : Numeral} (hn : n.value.isFinite = true) : number? n.text = some n.value := by
  refine number?_of_ofLiteral? ?_ hn
  rw [Number.ofLiteral?, Decimal.read?_text]
  rfl

theorem isTame_text (n : Numeral) : ∀ c ∈ n.text, isTame c = true := fun c hc =>
  isTame_of_isLiteralChar (Decimal.isLiteralChar_of_mem_text n c hc)

/-- A numeral is a chunk of its own, and the number in every state. -/
theorem after_numeral (s : Scan) (afterSpace : Bool) {n : Numeral} (hn : n.value.isFinite = true)
    {rest : Text} (hrest : Stops rest) :
    s.after afterSpace (n.text ++ rest) = (s.push [.ofNumber n.value]).after false rest :=
  after_tame afterSpace (Decimal.text_ne_nil n) (isTame_text n) hrest
    (s.chunk_of_number? (number?_text hn)) (by simp [Token.ofNumber])

theorem textScans_numeral {n : Numeral} (hn : n.value.isFinite = true) :
    TextScans n.text [.ofNumber n.value] where
  after := by
    intro s ts hs rest hrest
    refine ⟨_, after_numeral s true hn hrest.stops, ?_, hs.subquery, hs.range, by simp [hs.filter]⟩
    rw [kept_close_push hs.filter hs.subquery, hs.kept]
    rfl
  compact := .of_forall (Decimal.text_ne_nil n) fun c hc => isBlank_of_isTame (isTame_text n c hc)

/-- **Numerals with spaces between them are scanned to their numbers**, whatever their signs, their
points and their exponents. -/
theorem scan_numerals {ns : List Numeral} (hns : ∀ n ∈ ns, n.value.isFinite = true) :
    scan (Text.join [' '] (ns.map Numeral.text)) = ns.map fun n => .ofNumber n.value := by
  rw [scan_join fun n hn => textScans_numeral (hns n hn), ← List.map_eq_flatMap]

/-- Signs, points and exponents in all their places, and a zero, which as a word would be dropped. -/
def numeralSample : List Numeral := [
  { sign := .minus, whole := { text := "5".toList } },
  { sign := .plus, fraction := some { text := "5".toList } },
  { whole := { text := "05".toList }, fraction := some { text := [] } },
  { whole := { text := "1".toList },
    exponent := some { sign := .minus, digits := { text := "3".toList } } },
  { sign := .minus, fraction := some { text := "25".toList },
    exponent := some { upper := true, sign := .plus, digits := { text := "2".toList } } },
  { sign := .plus, whole := { text := "2".toList }, fraction := some { text := [] },
    exponent := some { digits := { text := "10".toList } } },
  { whole := { text := "0".toList } }]

theorem scan_numerals_sample :
    (∀ n ∈ numeralSample, n.value.isFinite = true) ∧
    Text.join [' '] (numeralSample.map Numeral.text) =
      "-5 +.5 05. 1e-3 -.25E+2 +2.e10 0".toList ∧
    scan "-5 +.5 05. 1e-3 -.25E+2 +2.e10 0".toList =
      numeralSample.map fun n => .ofNumber n.value := by
  have hfinite : ∀ n ∈ numeralSample, n.value.isFinite = true := by decide +kernel
  have htext : Text.join [' '] (numeralSample.map Numeral.text) =
      "-5 +.5 05. 1e-3 -.25E+2 +2.e10 0".toList := by decide
  exact ⟨hfinite, htext, htext ▸ scan_numerals hfinite⟩

end SearchLang.Scan
