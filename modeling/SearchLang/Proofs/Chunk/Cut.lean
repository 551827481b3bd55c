import Mathlib.Data.List.TakeWhile
import SearchLang.Chunk
import SearchLang.Node.Render

/-!
# Cutting pieces

How far the chunk at the front of a text goes, for the pieces that plain trees
are written with: a mark or a space, a word or a number, a phrase, a field. Each
form that is tried before has to fail, whatever text comes after the piece.
-/

namespace SearchLang.Chunk

open Pattern

/-! ## Character classes -/

/-- A property of ASCII characters can be tested on all of them. -/
theorem of_ascii {p : Char → Bool} (h : (List.range 128).all (fun n => p (Char.ofNat n)) = true)
    {c : Char} (hc : c.toNat < 128) : p c = true := by
  have hn := List.all_eq_true.mp h c.toNat (List.mem_range.mpr hc)
  rwa [Char.ofNat_toNat] at hn

/-- Letters and digits are ASCII characters. -/
theorem lt_of_isAlphanum {c : Char} (h : c.isAlphanum = true) : c.toNat < 128 := by
  have hbelow (d : Char) (hd : d.toNat < 128) (h : c.val ≤ d.val) : c.toNat < 128 :=
    Nat.lt_of_le_of_lt (UInt32.le_iff_toNat_le.mp h) hd
  rcases Bool.or_eq_true_iff.mp h with hletter | hdigit
  · rcases Bool.or_eq_true_iff.mp hletter with hupper | hlower
    · exact hbelow 'Z' (by decide) (of_decide_eq_true hupper).2
    · exact hbelow 'z' (by decide) (of_decide_eq_true (Bool.and_eq_true_iff.mp hlower).2)
  · exact hbelow '9' (by decide) (of_decide_eq_true (Bool.and_eq_true_iff.mp hdigit).2)

theorem lt_of_isNameRest {c : Char} (h : isNameRest c = true) : c.toNat < 128 := by
  simp only [isNameRest, isNameChar, Bool.or_eq_true, beq_iff_eq] at h
  rcases h with ((h | rfl) | rfl) | rfl
  · exact lt_of_isAlphanum h
  · decide
  · decide
  · decide

theorem isNameRest_of_isFieldStart {c : Char} (h : isFieldStart c = true) :
    isNameRest c = true := by
  simp only [isFieldStart, Bool.or_eq_true] at h
  rcases h with h | h <;> simp [isNameRest, isNameChar, Char.isAlphanum, h]

/-- A space or a structural character: what may follow the pieces of words and numbers. -/
def isStop (c : Char) : Bool :=
  c == ' ' || isStructural c

/-- A text before which a word or a number ends. -/
def Stops (rest : Text) : Prop :=
  ∀ c ∈ rest.head?, isStop c = true

theorem stops_nil : Stops [] := by
  intro c hc
  cases hc

theorem stops_cons {c : Char} (hc : isStop c = true) (rest : Text) : Stops (c :: rest) := by
  intro d hd
  rwa [← Option.some.inj hd]

/-- A plain character that starts no emoticon, ends no phrase or field name, belongs to no link and
is not trimmed. -/
def isTame (c : Char) : Bool :=
  isPlain c && !([':', ';', '"', '/', '\x00'].contains c)

theorem signLength_le_one (s : Text) : signLength s ≤ 1 := by
  cases s with
  | nil => simp [signLength]
  | cons c cs =>
    simp only [signLength]
    split <;> omega

theorem isTame_iff {c : Char} :
    isTame c = true ↔ isPlain c = true ∧ c ≠ ':' ∧ c ≠ ';' ∧ c ≠ '"' ∧ c ≠ '/' ∧ c ≠ '\x00' := by
  simp [isTame]

theorem startsEmoticon_of_isTame {c : Char} (h : isTame c = true) : startsEmoticon c = false := by
  obtain ⟨hplain, hcolon, hsemicolon, -⟩ := isTame_iff.mp h
  have hstructural := (isPlain_iff.mp hplain).2
  simp_all [startsEmoticon, isStructural]

theorem isTame_of_isNameRest {c : Char} (h : isNameRest c = true) : isTame c = true := by
  have hall := of_ascii (p := fun c => !isNameRest c || isTame c) (by decide) (lt_of_isNameRest h)
  simpa [h] using hall

/-- A property of stops can be tested on all of them. -/
theorem of_isStop {p : Char → Bool}
    (h : [' ', '(', ')', '\\', '^', '<', '>', '[', ']', '{', '}', '~', '='].all p = true) {c : Char}
    (hc : isStop c = true) : p c = true :=
  List.all_eq_true.mp h c (by simpa [isStop, isStructural] using hc)

theorem isSchemeChar_of_isStop {c : Char} (h : isStop c = true) : isSchemeChar c = false := by
  have hall := of_isStop (p := fun c => !isSchemeChar c) (by decide) h
  simpa using hall

theorem isNameRest_of_isStop {c : Char} (h : isStop c = true) :
    isNameRest c = false ∧ isFoldedLetter c = false := by
  have hall := of_isStop (p := fun c => !isNameRest c && !isFoldedLetter c) (by decide) h
  simpa using hall

theorem isFieldStart_of_isStop {c : Char} (h : isStop c = true) :
    (isFieldStart c || isFoldedLetter c) = false := by
  have hall := of_isStop (p := fun c => !(isFieldStart c || isFoldedLetter c)) (by decide) h
  simpa using hall

theorem isPlain_of_isStop {c : Char} (h : isStop c = true) : isPlain c = false := by
  simp only [isStop, Bool.or_eq_true, beq_iff_eq] at h
  rcases h with rfl | h
  · decide
  · simp [isPlain, h]

/-! ## Forms that fail -/

theorem toLower_eq_of_startsEmoticon {c d : Char} (hd : startsEmoticon d = true)
    (h : c.toLower = d.toLower) : c = d := by
  have hall : [':', ';', '<', '=', '>'].all (fun d => d.toLower == d && d.toNat < 97) = true := by
    decide
  have hd := List.all_eq_true.mp hall d (by simpa [startsEmoticon] using hd)
  simp only [Bool.and_eq_true, beq_iff_eq, decide_eq_true_eq] at hd
  obtain ⟨hlow, hlt⟩ := hd
  rw [hlow] at h
  unfold Char.toLower at h
  split at h
  · -- a letter that is lowered comes after all marks
    rename_i hupper
    have hval : (c.val + 32).toNat = d.val.toNat := congrArg (fun c : Char => c.val.toNat) h
    have hd : d.toNat = d.val.toNat := rfl
    have hA : 'A'.val.toNat = 65 := rfl
    have hZ : 'Z'.val.toNat = 90 := rfl
    simp only [ge_iff_le, UInt32.le_iff_toNat_le] at hupper
    rw [UInt32.toNat_add] at hval
    have h32 : (32 : UInt32).toNat = 32 := rfl
    omega
  · exact h

/-- An emoticon starts with one of a few marks, which have no case. -/
theorem emoticonLength?_eq_none {s : Text} (h : ∀ c ∈ s.head?, startsEmoticon c = false) :
    emoticonLength? s = none := by
  have hstart : ∀ e ∈ emoticons, e.head?.any startsEmoticon = true := by decide
  simp only [emoticonLength?, Option.map_eq_none_iff, List.find?_eq_none]
  intro e he heq
  have hd := hstart e he
  cases e with
  | nil => simp at hd
  | cons d ds =>
    replace hd : startsEmoticon d = true := by simpa using hd
    cases s with
    | nil => simp [Text.toLowerAscii] at heq
    | cons c cs =>
      simp only [List.length_cons, List.take_succ_cons, Text.toLowerAscii, List.map_cons,
        beq_iff_eq, List.cons.injEq] at heq
      obtain rfl := toLower_eq_of_startsEmoticon hd heq.1
      simp [h c rfl] at hd

/-- Splitting a text at the end of a run. -/
theorem drop_length_takeWhile (q : Char → Bool) (s : Text) :
    s.drop (s.takeWhile q).length = s.dropWhile q := by
  induction s with
  | nil => rfl
  | cons c cs ih =>
    by_cases hc : q c = true
    · simp [hc, ih]
    · simp [hc]

/-- A run that ends at a colon ends at the first character that can end it. -/
theorem eq_of_dropWhile_eq_colon {q : Char → Bool} {s rest after : Text} (hs : ∀ c ∈ s, c ≠ ':')
    (hrest : ∀ c ∈ rest.head?, q c = false) (h : (s ++ rest).dropWhile q = ':' :: after) :
    rest = ':' :: after := by
  induction s with
  | nil =>
    cases rest with
    | nil => simp at h
    | cons c rest => simpa [hrest c rfl] using h
  | cons c cs ih =>
    rw [List.cons_append] at h
    by_cases hc : q c = true
    · rw [List.dropWhile_cons_of_pos hc] at h
      exact ih (fun d hd => hs d (by simp [hd])) h
    · rw [List.dropWhile_cons_of_neg hc] at h
      obtain ⟨rfl, -⟩ := List.cons.inj h
      exact absurd rfl (hs ':' (by simp))

theorem dropWhile_ne_colon {q : Char → Bool} (hq : ∀ c, isStop c = true → q c = false)
    {s rest : Text} (hs : ∀ c ∈ s, c ≠ ':') (hrest : Stops rest)
    (after : Text) : (s ++ rest).dropWhile q ≠ ':' :: after := by
  intro h
  have hcolon := eq_of_dropWhile_eq_colon hs (fun c hc => hq c (hrest c hc)) h
  have hstop : isStop ':' = true := hrest ':' (by rw [hcolon]; rfl)
  simp [isStop, isStructural] at hstop

/-- No link starts where no run of scheme characters ends before `://`. -/
theorem urlLength?_eq_none {s : Text}
    (h : ∀ k ≤ signLength s, ∀ after,
      (s.drop k).dropWhile isSchemeChar ≠ ':' :: '/' :: '/' :: after) :
    urlLength? s = none := by
  have hstart : (if s.head? = some '+' then 1 else 0) ≤ signLength s := by
    cases s with
    | nil => simp
    | cons c cs =>
      split
      · rename_i hc
        obtain rfl : c = '+' := by simpa using hc
        simp [signLength]
      · simp
  unfold urlLength?
  generalize (if s.head? = some '+' then 1 else 0) = start at hstart
  simp only
  split
  · rfl
  · rw [← List.drop_drop, drop_length_takeWhile]
    split
    · rename_i address heq
      exact absurd heq (h start hstart address)
    · rfl

theorem phraseLength?_eq_none {s : Text} (h : (dropSign s).head? ≠ some '"') :
    phraseLength? s = none := by
  unfold phraseLength?
  split
  · rename_i rest heq
    simp [heq] at h
  · rfl

theorem fieldLength?_eq_none {more : Char → Bool} {s : Text}
    (h : ∀ c rest, dropSign s = c :: rest → (isFieldStart c || more c) = true →
      ∀ after, rest.dropWhile (fun d => isNameRest d || more d) ≠ ':' :: after) :
    fieldLength? more s = none := by
  unfold fieldLength?
  split
  · rename_i c rest heq
    split
    · rename_i hstart
      simp only
      rw [drop_length_takeWhile]
      split
      · rename_i after hafter
        exact absurd hafter (h c rest heq hstart after)
      · rfl
    · rfl
  · rfl

/-! ## Pieces -/

theorem lengthAt_of_none {afterSpace : Bool} {s : Text}
    (he : afterSpace = true → ∀ c ∈ s.head?, startsEmoticon c = false)
    (hu : urlLength? s = none) :
    lengthAt afterSpace s =
      ((phraseLength? s <|> fieldLength? isFoldedLetter s).getD (max 1 (wordLength s))) := by
  have hemoticon : (if afterSpace then emoticonLength? s else none) = none := by
    split
    · rename_i hspace
      exact emoticonLength?_eq_none (he hspace)
    · rfl
  unfold lengthAt
  rw [hemoticon, hu]
  cases h : (phraseLength? s <|> fieldLength? isFoldedLetter s) <;> simp_all

/-- A space or a structural character is a piece of its own, unless it starts an emoticon. -/
theorem lengthAt_stop {afterSpace : Bool} {c : Char} (hc : isStop c = true)
    (he : afterSpace = false ∨ startsEmoticon c = false) (rest : Text) :
    lengthAt afterSpace (c :: rest) = 1 := by
  have hsign : signLength (c :: rest) = 0 := by
    simp only [signLength]
    split
    · rename_i hs
      simp only [Bool.or_eq_true, beq_iff_eq] at hs
      rcases hs with rfl | rfl <;> simp [isStop, isStructural] at hc
    · rfl
  have hdrop : dropSign (c :: rest) = c :: rest := by simp [dropSign, hsign]
  have hurl : urlLength? (c :: rest) = none := by
    apply urlLength?_eq_none
    intro k hk after
    rw [hsign, Nat.le_zero] at hk
    rw [hk, List.drop_zero, List.dropWhile_cons_of_neg (by simp [isSchemeChar_of_isStop hc])]
    rintro ⟨⟩
    simp [isStop, isStructural] at hc
  have hphrase : phraseLength? (c :: rest) = none := by
    apply phraseLength?_eq_none
    rw [hdrop]
    rintro ⟨⟩
    simp [isStop, isStructural] at hc
  have hfield : fieldLength? isFoldedLetter (c :: rest) = none := by
    simp only [fieldLength?, hdrop, isFieldStart_of_isStop hc, Bool.false_eq_true, if_false]
  have hemoticon : afterSpace = true → ∀ d ∈ (c :: rest).head?, startsEmoticon d = false := by
    rintro hspace d ⟨⟩
    exact he.resolve_left (by simp [hspace])
  rw [lengthAt_of_none hemoticon hurl, hphrase, hfield]
  simp [wordLength, isPlain_of_isStop hc]

theorem mem_head?_append {s rest : Text} {c : Char} (h : (s ++ rest).head? = some c) :
    c ∈ s ∨ c ∈ rest.head? := by
  cases s with
  | nil => exact .inr h
  | cons d ds =>
    obtain rfl : d = c := by simpa using h
    exact .inl (by simp)

/-- A run of tame characters before a stop is a piece. -/
theorem lengthAt_tame {afterSpace : Bool} {s rest : Text} (hne : s ≠ [])
    (hs : ∀ c ∈ s, isTame c = true) (hrest : Stops rest) :
    lengthAt afterSpace (s ++ rest) = s.length := by
  have hpos : 1 ≤ s.length := List.length_pos_iff.mpr hne
  have hdrop : ∀ k ≤ 1, (s ++ rest).drop k = s.drop k ++ rest := fun k hk =>
    List.drop_append_of_le_length (by omega)
  have hsign : signLength (s ++ rest) ≤ 1 := signLength_le_one _
  have hcolon : ∀ c ∈ s, c ≠ ':' := by
    intro c hc
    exact (isTame_iff.mp (hs c hc)).2.1
  have hurl : urlLength? (s ++ rest) = none := by
    apply urlLength?_eq_none
    intro k hk after
    rw [hdrop k (by omega)]
    exact dropWhile_ne_colon (fun c => isSchemeChar_of_isStop)
      (fun c hc => hcolon c (List.mem_of_mem_drop hc)) hrest _
  have hphrase : phraseLength? (s ++ rest) = none := by
    apply phraseLength?_eq_none
    rw [dropSign, hdrop _ hsign]
    intro hquote
    rcases mem_head?_append hquote with hc | hc
    · exact (isTame_iff.mp (hs _ (List.mem_of_mem_drop hc))).2.2.2.1 rfl
    · have := hrest _ hc
      simp [isStop, isStructural] at this
  have hfield : fieldLength? isFoldedLetter (s ++ rest) = none := by
    apply fieldLength?_eq_none
    intro c cs heq hstart after
    rw [dropSign, hdrop _ hsign] at heq
    cases hleft : s.drop (signLength (s ++ rest)) with
    | nil =>
      -- a lone sign, which a stop follows
      have hc : isStop c = true := hrest c (by rw [hleft, List.nil_append] at heq; simp [heq])
      simp [isFieldStart_of_isStop hc] at hstart
    | cons d ds =>
      rw [hleft, List.cons_append] at heq
      obtain ⟨rfl, rfl⟩ := List.cons.inj heq
      refine dropWhile_ne_colon (fun c hc => ?_) (fun c hc => hcolon c ?_) hrest after
      · simp [isNameRest_of_isStop hc]
      · exact List.mem_of_mem_drop (hleft ▸ List.mem_cons_of_mem d hc)
  have hword : wordLength (s ++ rest) = s.length := by
    have hplain : ∀ c ∈ s, isPlain c = true := fun c hc => (isTame_iff.mp (hs c hc)).1
    rw [wordLength, List.takeWhile_append_of_pos hplain, List.length_append]
    cases rest with
    | nil => simp
    | cons c rest => simp [isPlain_of_isStop (hrest c rfl)]
  rw [lengthAt_of_none ?_ hurl, hphrase, hfield]
  · simp [hword, hpos]
  · intro _ c hc
    obtain ⟨d, ds, rfl⟩ := List.exists_cons_of_ne_nil hne
    obtain rfl : d = c := by simpa using hc
    exact startsEmoticon_of_isTame (hs d (by simp))

/-! ## Signed pieces -/

theorem lead_cases (m : Modifiers) : m.lead = [] ∨ m.lead = ['+'] ∨ m.lead = ['-'] := by
  unfold Modifiers.lead
  split
  · rename_i sign _
    cases sign
    · exact .inr (.inl rfl)
    · exact .inr (.inr rfl)
  · exact .inl rfl

/-- The sign of a node is what is taken as a sign, if no other follows. -/
theorem dropSign_lead (m : Modifiers) {c : Char} (hc : c ≠ '+' ∧ c ≠ '-') (rest : Text) :
    signLength (m.lead ++ c :: rest) = m.lead.length ∧ dropSign (m.lead ++ c :: rest) = c :: rest := by
  rcases lead_cases m with h | h | h <;> simp [h, signLength, dropSign, hc]

theorem startsEmoticon_lead (m : Modifiers) {c : Char} (hc : startsEmoticon c = false)
    (rest : Text) : ∀ d ∈ (m.lead ++ c :: rest).head?, startsEmoticon d = false := by
  rcases lead_cases m with h | h | h <;> rw [h] <;> simp [hc] <;> rfl

theorem phraseLength?_lead (m : Modifiers) {value : Text} (hne : value ≠ [])
    (hvalue : ∀ c ∈ value, c ≠ '"') (rest : Text) :
    phraseLength? (m.lead ++ '"' :: (value ++ '"' :: rest)) =
      some (m.lead.length + value.length + 2) := by
  obtain ⟨hsign, hdrop⟩ := dropSign_lead m (c := '"') (by decide) (value ++ '"' :: rest)
  have hinner : (value ++ '"' :: rest).takeWhile (· != '"') = value := by
    rw [List.takeWhile_append_of_pos (by simpa using hvalue)]
    simp
  simp [phraseLength?, hdrop, hsign, hinner, hne]

/-- No link starts with a quote. -/
theorem urlLength?_quote (m : Modifiers) (rest : Text) : urlLength? (m.lead ++ '"' :: rest) = none := by
  have hlead : ∀ c ∈ m.lead, c ≠ ':' := by
    rcases lead_cases m with h | h | h <;> simp [h]
  apply urlLength?_eq_none
  intro k hk after hurl
  rw [(dropSign_lead m (by decide) rest).1] at hk
  rw [List.drop_append_of_le_length hk] at hurl
  have hquote : isSchemeChar '"' = false := by decide
  have := eq_of_dropWhile_eq_colon (fun c hc => hlead c (List.mem_of_mem_drop hc))
    (by simp [hquote]) hurl
  simp at this

/-- A phrase is a piece, with the sign before it. -/
theorem lengthAt_phrase (afterSpace : Bool) (m : Modifiers) {value : Text} (hne : value ≠ [])
    (hvalue : ∀ c ∈ value, c ≠ '"') (rest : Text) :
    lengthAt afterSpace (m.lead ++ '"' :: (value ++ '"' :: rest)) =
      m.lead.length + value.length + 2 := by
  rw [lengthAt_of_none (fun _ => startsEmoticon_lead m (by decide) _) (urlLength?_quote m _),
    phraseLength?_lead m hne hvalue rest]
  rfl

section Field

variable (m : Modifiers) {c : Char} {name : Text}

theorem ne_sign_of_isFieldStart (hc : isFieldStart c = true) : c ≠ '+' ∧ c ≠ '-' := by
  constructor <;>
    · rintro rfl
      exact absurd hc (by decide)

theorem isNameRest_of_mem_field (hc : isFieldStart c = true)
    (hname : ∀ d ∈ name, isNameRest d = true) : ∀ d ∈ c :: name, isNameRest d = true := by
  intro d hd
  rcases List.mem_cons.mp hd with rfl | hd
  · exact isNameRest_of_isFieldStart hc
  · exact hname d hd

/-- The colon after a field is the first one, so what follows it must make a link. -/
theorem urlLength?_field (hc : isFieldStart c = true) (hname : ∀ d ∈ name, isNameRest d = true)
    {rest : Text} (hrest : rest.head? ≠ some '/') :
    urlLength? (m.lead ++ c :: (name ++ ':' :: rest)) = none := by
  have hcolon : ∀ d ∈ m.lead ++ c :: name, d ≠ ':' := by
    intro d hd
    rcases List.mem_append.mp hd with hd | hd
    · rcases lead_cases m with h | h | h <;> simp_all
    · exact (isTame_iff.mp (isTame_of_isNameRest (isNameRest_of_mem_field hc hname d hd))).2.1
  apply urlLength?_eq_none
  intro k hk after hurl
  rw [(dropSign_lead m (ne_sign_of_isFieldStart hc) (name ++ ':' :: rest)).1] at hk
  have hk' : k ≤ (m.lead ++ c :: name).length := by
    rw [List.length_append]
    omega
  rw [← List.cons_append, ← List.append_assoc, List.drop_append_of_le_length hk'] at hurl
  have hscheme : isSchemeChar ':' = false := by decide
  have := eq_of_dropWhile_eq_colon (fun d hd => hcolon d (List.mem_of_mem_drop hd))
    (by simp [hscheme]) hurl
  simp [(List.cons.inj this).2] at hrest

theorem fieldLength?_lead (more : Char → Bool) (hmore : more ':' = false)
    (hc : isFieldStart c = true) (hname : ∀ d ∈ name, isNameRest d = true) (rest : Text) :
    fieldLength? more (m.lead ++ c :: (name ++ ':' :: rest)) =
      some (m.lead.length + name.length + 2) := by
  obtain ⟨hsign, hdrop⟩ := dropSign_lead m (ne_sign_of_isFieldStart hc) (name ++ ':' :: rest)
  have hrun : (name ++ ':' :: rest).takeWhile (fun d => isNameRest d || more d) = name := by
    rw [List.takeWhile_append_of_pos (fun d hd => by simp [hname d hd])]
    have hend : isNameRest ':' = false := by decide
    simp [hend, hmore]
  simp only [fieldLength?, hdrop, hc, Bool.true_or, if_true, hrun, List.drop_left, hsign]

/-- A field and its colon are a piece, with the sign before them, unless a link may follow. -/
theorem lengthAt_field (afterSpace : Bool) (hc : isFieldStart c = true)
    (hname : ∀ d ∈ name, isNameRest d = true) {rest : Text} (hrest : rest.head? ≠ some '/') :
    lengthAt afterSpace (m.lead ++ c :: (name ++ ':' :: rest)) =
      m.lead.length + name.length + 2 := by
  have hphrase : phraseLength? (m.lead ++ c :: (name ++ ':' :: rest)) = none := by
    apply phraseLength?_eq_none
    rw [(dropSign_lead m (ne_sign_of_isFieldStart hc) (name ++ ':' :: rest)).2]
    rintro ⟨⟩
    exact absurd hc (by decide)
  have hemoticon : startsEmoticon c = false :=
    startsEmoticon_of_isTame (isTame_of_isNameRest (isNameRest_of_isFieldStart hc))
  rw [lengthAt_of_none (fun _ => startsEmoticon_lead m hemoticon _)
    (urlLength?_field m hc hname hrest), hphrase, fieldLength?_lead m _ rfl hc hname rest]
  rfl

end Field

section Link

variable {scheme run : Text} {c d : Char}

/-- The address that ends a link: a start, any character but a line feed, and a run. -/
def IsAddress (c d : Char) (run : Text) : Prop :=
  isAddressStart c = true ∧ d ≠ '\n' ∧ ∀ e ∈ run, isAddressRest e = true

theorem urlLength?_eq_some {s : Text} (start : Nat)
    (hstart : (if s.head? = some '+' then 1 else 0) = start) (hne : scheme ≠ [])
    (hscheme : ∀ e ∈ scheme, isSchemeChar e = true) (haddress : IsAddress c d run) {rest : Text}
    (hrest : ∀ e ∈ rest.head?, isAddressRest e = false)
    (hs : s.drop start = scheme ++ ':' :: '/' :: '/' :: c :: d :: (run ++ rest)) :
    urlLength? s = some (start + scheme.length + 5 + run.length) := by
  obtain ⟨hc, hd, hrun⟩ := haddress
  have hcolon : isSchemeChar ':' = false := by decide
  have htake : (s.drop start).takeWhile isSchemeChar = scheme := by
    rw [hs, List.takeWhile_append_of_pos hscheme]
    simp [hcolon]
  have hdrop : s.drop (start + scheme.length) = ':' :: '/' :: '/' :: c :: d :: (run ++ rest) := by
    rw [← List.drop_drop, hs, List.drop_left]
  have hend : (run ++ rest).takeWhile isAddressRest = run := by
    rw [List.takeWhile_append_of_pos hrun]
    cases rest with
    | nil => simp
    | cons e es => simp [hrest e rfl]
  have hlength : addressLength? (c :: d :: (run ++ rest)) = some (run.length + 2) := by
    simp [addressLength?, hc, hd, hend]
  simp only [urlLength?, hstart, htake, List.isEmpty_iff, if_neg hne, hdrop, hlength,
    Option.map_some, Option.some.injEq]
  omega

/-- A link without a sign is a scheme and an address. -/
theorem exists_address_of_isUrl {s : Text} (h : isUrl s = true) (hs : s.head? ≠ some '+') :
    ∃ scheme c d run, s = scheme ++ ':' :: '/' :: '/' :: c :: d :: run ∧ scheme ≠ [] ∧
      (∀ e ∈ scheme, isSchemeChar e = true) ∧ IsAddress c d run := by
  rw [isUrl, beq_iff_eq] at h
  simp only [urlLength?, if_neg hs, List.drop_zero, Nat.zero_add] at h
  split at h
  · simp at h
  · rename_i hne
    split at h
    · rename_i address haddress
      have hsplit : s = s.takeWhile isSchemeChar ++ ':' :: '/' :: '/' :: address := by
        rw [← haddress, drop_length_takeWhile, List.takeWhile_append_dropWhile]
      obtain ⟨n, hn, hlength⟩ := Option.map_eq_some_iff.mp h
      unfold addressLength? at hn
      split at hn
      · rename_i c d run
        split at hn
        · rename_i hstart
          simp only [Bool.and_eq_true, bne_iff_ne] at hstart
          refine ⟨_, c, d, run, hsplit, by simpa using hne, fun e he => ?_, hstart.1, hstart.2, ?_⟩
          · exact List.mem_takeWhile_imp he
          · -- the run goes on to the end, because the link does
            have hlen := congrArg List.length hsplit
            cases hn
            simp only [List.length_append, List.length_cons] at hlen
            have hrun : (run.takeWhile isAddressRest).length = run.length := by omega
            have hall := List.takeWhile_eq_self_iff.mp
              ((List.takeWhile_prefix isAddressRest).eq_of_length hrun)
            exact hall
        · simp at hn
      · simp at hn
    · simp at h

/-- A link is a piece, with the sign before it. -/
theorem lengthAt_link (afterSpace : Bool) (m : Modifiers) {s : Text} (h : isUrl s = true)
    (hs : s.head? ≠ some '+') {rest : Text} (hrest : ∀ e ∈ rest.head?, isAddressRest e = false) :
    lengthAt afterSpace (m.lead ++ s ++ rest) = (m.lead ++ s).length := by
  obtain ⟨scheme, c, d, run, rfl, hne, hscheme, haddress⟩ := exists_address_of_isUrl h hs
  obtain ⟨e, es, rfl⟩ := List.exists_cons_of_ne_nil hne
  have he : startsEmoticon e = false ∧ e ≠ '+' := by
    have hall : [':', ';', '<', '=', '>', '+'].all (fun c => !isSchemeChar c) = true := by decide
    have hmem : e ∉ [':', ';', '<', '=', '>', '+'] := fun hmem => by
      have := List.all_eq_true.mp hall e hmem
      simp [hscheme e (by simp)] at this
    simp only [List.mem_cons, not_or] at hmem
    simp [startsEmoticon, hmem]
  have hurl : urlLength? (m.lead ++ (e :: es ++ ':' :: '/' :: '/' :: c :: d :: run) ++ rest) =
      some (m.lead ++ (e :: es ++ ':' :: '/' :: '/' :: c :: d :: run)).length := by
    -- a minus counts as a part of the scheme
    have hminus : ∀ x ∈ '-' :: e :: es, isSchemeChar x = true := by
      intro x hx
      rcases List.mem_cons.mp hx with rfl | hx
      · decide
      · exact hscheme x hx
    rcases lead_cases m with hm | hm | hm <;> rw [hm]
    · rw [urlLength?_eq_some 0 (by simp [he.2]) hne hscheme haddress hrest (by simp)]
      simp
      omega
    · rw [urlLength?_eq_some 1 (by simp) hne hscheme haddress hrest (by simp)]
      simp
      omega
    · rw [urlLength?_eq_some 0 (by simp) (by simp) hminus haddress hrest (by simp)]
      simp
      omega
  have hemoticon : (if afterSpace then emoticonLength? (m.lead ++
      (e :: es ++ ':' :: '/' :: '/' :: c :: d :: run) ++ rest) else none) = none := by
    rw [List.append_assoc, List.cons_append, List.cons_append,
      emoticonLength?_eq_none (startsEmoticon_lead m he.1 _), ite_self]
  unfold lengthAt
  rw [hemoticon, hurl]
  rfl

end Link

theorem endsInSpace_of_isSpace {piece : Text} (hne : piece ≠ [])
    (h : ∀ c ∈ piece, Text.isSpace c = false) : endsInSpace piece = false := by
  unfold endsInSpace
  split
  · rename_i c hc
    exact h c (List.mem_of_getLast? hc)
  · rename_i hnone
    exact absurd (List.getLast?_eq_none_iff.mp hnone) hne

theorem split_append {afterSpace : Bool} {piece rest : Text} (hne : piece ≠ [])
    (h : lengthAt afterSpace (piece ++ rest) = piece.length) :
    split afterSpace (piece ++ rest) = piece :: split (endsInSpace piece) rest := by
  obtain ⟨c, cs, rfl⟩ := List.exists_cons_of_ne_nil hne
  rw [List.cons_append] at h ⊢
  rw [split]
  simp only [h]
  rw [← List.cons_append, List.take_left, List.drop_left]

end SearchLang.Chunk
