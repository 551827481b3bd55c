import SearchLang.Node.Plain

/-!
# Well-formed tokens

What the kind of a token promises about its value: numbers are finite, a few
kinds carry text, and all the others carry nothing. The text of a word or of a
form has the shape that makes it one. The text of a phrase or a field is bare
if the marks around it in the query are not part of it.
-/

namespace SearchLang

/-- Whether a text has a first and a last character, both outside a class. -/
def Text.endsOutside (p : Char → Bool) (s : Text) : Bool :=
  (s.head?.any fun c => !p c) && s.getLast?.any fun c => !p c

/-- The texts of words: there is something besides a lone `0`, and no punctuation at the ends. -/
def Text.isWordText (s : Text) : Bool :=
  s.endsOutside Pattern.isWordTrimmed && s != ['0']

/-- The texts of mentions: a name that may hold dots and hyphens, but not at its ends. -/
def Text.isMentionName (s : Text) : Bool :=
  s.all Pattern.isNameRest && s.endsOutside fun c => !Pattern.isNameChar c

/-- The texts that tokens of a form carry. -/
def TextForm.admits : TextForm → Text → Bool
  | phrase, _ => true
  | url, s | emoticon, s | emoji, s => !s.isEmpty
  | date, s => Pattern.isPlainDate s
  | hashtag, s => s.isPlainName
  | mention, s => s.isMentionName

/-- A kind whose tokens stand for themselves and carry nothing. -/
def Kind.isMark : Kind → Bool
  | whitespace | ignored | number | word | filterStart | text _ => false
  | _ => true

/-- Whether a token is part of a query and carries what its kind promises. -/
def Token.isWellFormed : Token → Bool
  | ⟨.number, some (.number n)⟩ => n.isFinite
  | ⟨.word, some (.text s)⟩ => s.isWordText
  | ⟨.filterStart, some (.text _)⟩ => true
  | ⟨.text form, some (.text s)⟩ => form.admits s
  | ⟨k, none⟩ => k.isMark
  | _ => false

/-! ## Bare texts -/

/-- A sign that may stand before a value. -/
def Pattern.isSign (c : Char) : Bool :=
  c == '+' || c == '-'

/-- Without its sign, a text is itself or what comes after the sign. -/
theorem Pattern.dropSign_cases (s : Text) :
    dropSign s = s ∨ ∃ c, isSign c = true ∧ s = c :: dropSign s := by
  cases s with
  | nil => exact .inl rfl
  | cons c cs =>
    cases hc : isSign c with
    | true => exact .inr ⟨c, hc, by simp_all [dropSign, signLength, isSign]⟩
    | false => exact .inl (by simp_all [dropSign, signLength, isSign])

/-- Whether a phrase carries no quote, and a field nothing but a name. -/
def Token.isBare : Token → Bool
  | ⟨.text .phrase, some (.text s)⟩ => !s.contains '"'
  | ⟨.filterStart, some (.text s)⟩ => Text.isPlainField s
  | _ => true

/-- Whether a phrase carries a sign and its opening quote, or a field a sign before its name. -/
def Token.isBareAfterSign : Token → Bool
  | ⟨.text .phrase, some (.text (c :: '"' :: s))⟩ => Pattern.isSign c && !s.contains '"'
  | ⟨.filterStart, some (.text (c :: s))⟩ => Pattern.isSign c && Text.isPlainField s
  | _ => false

/-- Whether a quote or the start of a name comes after two signs. -/
def Text.doublesSign : Text → Bool
  | a :: b :: c :: rest =>
    Pattern.isSign a && Pattern.isSign b && (c == '"' || Pattern.isFieldStart c) ||
      doublesSign (b :: c :: rest)
  | _ => false

theorem Token.isWellFormed_mark (k : Kind) : (Token.mark k).isWellFormed = k.isMark := by
  cases k <;> rfl

end SearchLang
