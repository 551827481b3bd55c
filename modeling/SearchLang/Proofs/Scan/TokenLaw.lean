import SearchLang.Proofs.Text.Ends
import SearchLang.Token.Scan
import SearchLang.Token.WellFormed

/-!
# Laws of tokens

A scan makes its tokens in a few ways: marks, numbers, texts of some form, and
words, which may be glued together. A law that holds of what each of these makes
out of a text (`TokenLaw`) holds of all tokens of a scan (`TokenLaw.of_mem_scan`),
although the texts are parts of other texts: a sign is split off, and a chunk
with two dots in it is scanned in two halves.
-/

namespace SearchLang

/-! ## Parts of texts -/

theorem Scan.infix_takeSign (s : Scan) (value : Text) : (s.takeSign value).2 <:+: value := by
  unfold takeSign
  split
  · exact (List.suffix_cons _ _).isInfix
  · exact (List.suffix_cons _ _).isInfix
  · exact List.infix_refl _

/-! ## What symbols are made of -/

namespace Symbol

theorem sign_mem_of_ofChunk? {value : Text} {sign : Sign}
    (h : ofChunk? value = some (.sign sign)) : '+' ∈ value ∨ '-' ∈ value := by
  rcases of_ofChunk? h with ⟨c, rfl, hc⟩ | h
  · unfold ofChar? at hc
    split at hc <;> simp_all
    split at hc <;> simp at hc
  · simp at h

theorem of_letter {value : Text} {c : Char} (h : ofChunk? value = some (.letter c)) :
    value = [c] ∧ c.isAlpha = true := by
  rcases of_ofChunk? h with ⟨c, rfl, hc⟩ | h
  · unfold ofChar? at hc
    split at hc <;> simp_all
    split at hc <;> simp_all
  · simp at h

theorem of_stray {value : Text} {c : Char} (h : ofChunk? value = some (.stray c)) :
    value = [c] := by
  rcases of_ofChunk? h with ⟨c, rfl, hc⟩ | h
  · unfold ofChar? at hc
    split at hc <;> simp_all
    split at hc <;> simp_all
  · simp at h

end Symbol

namespace Scan

/-! ## Laws -/

/-- A law that every way to make a token keeps, from texts of some class. Fields and phrases are
given with the sign that is split off them: their patterns allow another one. -/
structure TokenLaw (V : Text → Prop) (P : Token → Prop) : Prop where
  part : ∀ {s t}, V s → t <:+: s → V t
  space : P (.mark .whitespace)
  mark : ∀ {k : Kind}, k.isMark = true → (∀ sign, k ≠ .sign sign) → P (.mark k)
  sign : ∀ {value : Text} (sign), V value → '+' ∈ value ∨ '-' ∈ value → P (.mark (.sign sign))
  number : ∀ {n : Number}, n.isFinite = true → P (.ofNumber n)
  ignored : ∀ {value}, V value → P (.ofText .ignored value)
  letter : ∀ {c : Char}, V [c] → c.isAlpha = true → P (.ofText .word [c])
  word : ∀ {value}, V value → Text.trim Pattern.isWordTrimmed value ≠ [] →
    Text.trim Pattern.isWordTrimmed value ≠ ['0'] →
    P (.ofText .word (Text.trim Pattern.isWordTrimmed value))
  glue : ∀ {before value : Text}, P (.ofText .word before) → before.getLast? = some ':' →
    P (.ofText .word value) → P (.ofText .word (before ++ value))
  field : ∀ {s : Scan} {value}, V value → Pattern.isField (s.takeSign value).2 = true →
    P (.ofText .filterStart (Text.trimRight (· == ':') (s.takeSign value).2))
  phrase : ∀ {s : Scan} {value}, V value → Pattern.isPhrase (s.takeSign value).2 = true →
    P (.ofText (.text .phrase) (Text.trimSpace (Text.trim (· == '"') (s.takeSign value).2)))
  standalone : ∀ {value form}, V value → standaloneForm? value = some form →
    P (.ofText (.text form) (Text.trim Pattern.isTrimmed value))
  tagged : ∀ {value form}, V value → taggedForm? value = some form →
    P (.ofText (.text form) (Text.trim Pattern.isTrimmed value))

/-- All tokens so far obey a law. -/
def Obeys (s : Scan) (P : Token → Prop) : Prop :=
  ∀ t ∈ s.tokens, P t

variable {V : Text → Prop} {P : Token → Prop} {s : Scan} {value : Text}

theorem Obeys.add (hs : s.Obeys P) {t : Token} (ht : P t) : (s.add t).Obeys P := by
  intro u hu
  rcases List.mem_cons.mp hu with rfl | hu
  · exact ht
  · exact hs u hu

theorem Obeys.addOnce (hs : s.Obeys P) {k : Kind} (hk : P (.mark k)) :
    (s.addOnce k).Obeys P := by
  unfold Scan.addOnce
  split
  · exact hs
  · exact hs.add hk

namespace TokenLaw

/-! ### Single operations -/

theorem closeFilter (hP : TokenLaw V P) (hs : s.Obeys P) : s.closeFilter.Obeys P :=
  Obeys.addOnce (s := { s with inFilter := false }) hs (hP.mark rfl (by simp))

theorem addWord (hP : TokenLaw V P) (hs : s.Obeys P) {w : Text} (hw : P (.ofText .word w)) :
    (s.addWord w).Obeys P := by
  unfold Scan.addWord
  split
  · rename_i before rest ht
    split
    · rename_i hcolon
      have hbefore : P (.ofText .word before) := hs _ (by simp [ht, Token.ofText])
      intro t hmem
      rcases List.mem_cons.mp hmem with rfl | hmem
      · exact hP.glue hbefore hcolon hw
      · exact hs t (by simp [ht, hmem])
    · exact hs.add hw
  · exact hs.add hw

/-- The symbol that an admitted text stands for. -/
theorem symbol (hP : TokenLaw V P) (hs : s.Obeys P) (hv : V value) {symbol : Symbol}
    (hsymbol : Symbol.ofChunk? value = some symbol) : (s.symbol symbol).Obeys P := by
  have mark {s : Scan} {k : Kind} (hs : s.Obeys P) (hk : k.isMark = true)
      (hsign : ∀ sign, k ≠ .sign sign) : (s.addOnce k).Obeys P :=
    hs.addOnce (hP.mark hk hsign)
  cases symbol with
  | sign sign => exact hs.addOnce (hP.sign sign hv (Symbol.sign_mem_of_ofChunk? hsymbol))
  | greater | less | equals | upTo =>
    simp only [Scan.symbol]
    split
    · exact mark hs rfl (by simp)
    · exact hs
  | modifier m =>
    have hm : m.kind.isMark = true ∧ ∀ sign, m.kind ≠ .sign sign := by
      cases m <;> exact ⟨rfl, by simp [Modifier.kind]⟩
    simp only [Scan.symbol, addModifier]
    split
    · exact hs
    · split
      · exact mark (hP.closeFilter hs) hm.1 hm.2
      · exact mark hs hm.1 hm.2
  | rangeStart b =>
    simp only [Scan.symbol, openRange]
    split
    · exact mark (s := { s with range := some b }) hs rfl (by simp)
    · exact hs
  | rangeEnd =>
    simp only [Scan.symbol, closeRange]
    split
    · exact hs
    · rename_i b _
      have hend : (s.addOnce (.rangeEnd b)).Obeys P := mark hs rfl (by simp)
      exact hP.closeFilter (s := { s.addOnce (.rangeEnd b) with range := none }) hend
  | subqueryStart =>
    simp only [Scan.symbol, openSubquery]
    split
    · exact hs
    · exact Obeys.add (s := { s with inSubquery := true }) hs (hP.mark rfl (by simp))
  | subqueryEnd =>
    have hend : ({ s with inSubquery := false }.add (.mark .subqueryEnd)).Obeys P :=
      Obeys.add (s := { s with inSubquery := false }) hs (hP.mark rfl (by simp))
    simp only [Scan.symbol, closeSubquery]
    split
    · exact hs
    · split
      · exact hP.closeFilter hend
      · exact hend
  | wildcard | or | and => exact mark hs rfl (by simp)
  | letter c =>
    obtain ⟨rfl, halpha⟩ := Symbol.of_letter hsymbol
    exact hP.addWord hs (hP.letter hv halpha)
  | stray c =>
    obtain rfl := Symbol.of_stray hsymbol
    exact hs.add (hP.ignored hv)

theorem takeSign (hP : TokenLaw V P) (hs : s.Obeys P) (hv : V value) :
    (s.takeSign value).1.Obeys P := by
  unfold Scan.takeSign
  split
  · exact hs.addOnce (hP.sign .required hv (by simp))
  · exact hs.addOnce (hP.sign .prohibited hv (by simp))
  · exact hs

theorem addPlain (hP : TokenLaw V P) (hs : s.Obeys P) (hv : V value) :
    (s.addPlain value).Obeys P := by
  unfold Scan.addPlain
  simp only
  split
  · exact hs.add (hP.ignored hv)
  · rename_i hword
    push Not at hword
    have hadd := hP.addWord hs (hP.word hv hword.1 hword.2)
    split
    · exact hadd.addOnce (hP.mark rfl (by simp))
    · exact hadd

/-! ### Chunks and runs -/

/-- A chunk keeps the law. The two halves of a chunk with dots are chunks. -/
theorem chunk (hP : TokenLaw V P) (hs : s.Obeys P) (hv : V value) : (s.chunk value).Obeys P := by
  fun_induction Scan.chunk s value with
  | case1 s => exact hs.addOnce hP.space
  | case2 s value _ n hn =>
    simp only [number?, Option.filter_eq_some_iff] at hn
    exact hs.add (hP.number hn.2)
  | case3 s value _ _ symbol hsymbol => exact hP.symbol hs hv hsymbol
  | case4 s value _ _ _ unsigned form hform =>
    exact (hP.takeSign hs hv).add (hP.standalone (hP.part hv (infix_takeSign s value)) hform)
  | case5 s value _ _ _ unsigned _ hfield =>
    simp only [Bool.and_eq_true] at hfield
    exact Obeys.add (s := { (s.takeSign value).1 with inFilter := true }) (hP.takeSign hs hv)
      (hP.field hv hfield.2)
  | case6 s value _ _ _ unsigned _ _ hphrase =>
    exact (hP.takeSign hs hv).add (hP.phrase hv hphrase)
  -- the half before the dots, the keyword between, the half after them
  | case7 s value _ _ _ unsigned _ _ _ lower upper hdots _ ihLower ihUpper =>
    have hunsigned : V unsigned.2 := hP.part hv (infix_takeSign s value)
    have hvalue := Text.append_of_splitAtDots hdots
    have hlower : V lower := hP.part hunsigned ⟨[], '.' :: '.' :: upper, by simp [hvalue]⟩
    have hkeyword : V ['.', '.'] := hP.part hunsigned ⟨lower, upper, by simp [hvalue]⟩
    have hupper : V upper := hP.part hunsigned ⟨lower ++ ['.', '.'], [], by simp [hvalue]⟩
    exact ihUpper (hP.symbol (ihLower (hP.takeSign hs hv) hlower) hkeyword rfl) hupper
  | case8 s value _ _ _ unsigned _ _ _ _ form hform =>
    exact (hP.takeSign hs hv).add (hP.tagged (hP.part hv (infix_takeSign s value)) hform)
  | case9 s value _ _ _ unsigned _ _ _ _ _ =>
    exact hP.addPlain (hP.takeSign hs hv) (hP.part hv (infix_takeSign s value))

theorem step (hP : TokenLaw V P) (hs : s.Obeys P) (hv : V value) : (s.step value).Obeys P := by
  have hchunk := hP.chunk hs (hP.part hv (Text.infix_trim Text.isPadding value))
  unfold Scan.step Scan.settle
  split
  · exact hP.closeFilter hchunk
  · exact hchunk

theorem run (hP : TokenLaw V P) (hs : s.Obeys P) {pieces : List Text}
    (hv : ∀ piece ∈ pieces, V piece) : (s.run pieces).Obeys P := by
  induction pieces generalizing s with
  | nil => exact hs
  | cons piece rest ih =>
    exact ih (hP.step hs (hv piece (by simp))) fun p hp => hv p (by simp [hp])

theorem close (hP : TokenLaw V P) (hs : s.Obeys P) : s.close.Obeys P := by
  have hend : ({ s with inSubquery := false }.add (.mark .subqueryEnd)).Obeys P :=
    Obeys.add (s := { s with inSubquery := false }) hs (hP.mark rfl (by simp))
  unfold Scan.close
  cases s.inSubquery <;> simp only [Bool.false_eq_true, if_false, if_true]
  · split
    · exact hP.closeFilter hs
    · exact hs
  · split
    · exact hP.closeFilter hend
    · exact hend

/-- All tokens of a scan obey a law if the chunks of the query are admitted. -/
theorem of_mem_scan (hP : TokenLaw V P) {q : Text} (hq : ∀ piece ∈ Chunk.ofQuery q, V piece)
    {t : Token} (ht : t ∈ scan q) : P t := by
  have hinit : ({} : Scan).Obeys P := by simp [Obeys]
  have hmem : t ∈ (Scan.ofQuery q).close.tokens := by
    have hfilter := (List.mem_filter.mp ht).1
    simpa using hfilter
  exact hP.close (hP.run hinit hq) t hmem

end TokenLaw

end Scan

end SearchLang
