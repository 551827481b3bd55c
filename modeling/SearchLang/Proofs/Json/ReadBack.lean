import SearchLang.Json.Print
import SearchLang.Proofs.Number.Json

/-!
# JSON read back

A value is read back from its text, in either style and at every level of
nesting, whatever follows it (`Fits.readValue?_printAt`). The numbers in it must be
finite, the keys of an object must differ, and its arrays and objects must nest
within what the reader allows (`Fits`).
-/

namespace SearchLang.Json

/-! ## Strings -/

theorem hexValue?_hexDigit {n : Nat} (h : n < 16) : hexValue? (hexDigit n) = some n := by
  have hall : ∀ m < 16, hexValue? (hexDigit m) = some m := by decide
  exact hall n h

/-- The four digits of a control character. -/
theorem hexUnit?_control {n : Nat} (h : n < 32) :
    hexUnit? '0' '0' (hexDigit (n / 16)) (hexDigit (n % 16)) = some n := by
  have hzero : hexValue? '0' = some 0 := rfl
  simp only [hexUnit?, hzero, hexValue?_hexDigit (show n / 16 < 16 by omega),
    hexValue?_hexDigit (show n % 16 < 16 by omega), Option.bind_eq_bind, Option.bind_some,
    Option.pure_def]
  congr 1
  omega

/-- The characters that are escaped by a letter of their own, or by themselves. -/
def escaped : Text :=
  ['"', '\\', '\n', '\r', '\t', '\x08', '\x0C']

theorem escape_of_not_mem {c : Char} (h : c ∉ escaped) :
    escape c = if c.toNat < 32 then
      ['\\', 'u', '0', '0', hexDigit (c.toNat / 16), hexDigit (c.toNat % 16)] else [c] := by
  simp only [escaped, List.mem_cons, List.not_mem_nil, or_false, not_or] at h
  simp only [escape, h, if_false]

/-- A character is read back from its text in a string. -/
theorem readString?_escape (c : Char) (rest : Text) :
    readString? (escape c ++ rest) = (readString? rest).map fun (s, rest) => (c :: s, rest) := by
  by_cases hmem : c ∈ escaped
  · simp only [escaped, List.mem_cons, List.not_mem_nil, or_false] at hmem
    rcases hmem with rfl | rfl | rfl | rfl | rfl | rfl | rfl <;> rfl
  · rw [escape_of_not_mem hmem]
    simp only [escaped, List.mem_cons, List.not_mem_nil, or_false, not_or] at hmem
    split
    · rename_i hcontrol
      have hchar : ofUnit? c.toNat = some c := by
        rw [ofUnit?, if_neg (by omega), Char.ofNat_toNat]
      simp only [List.cons_append, List.nil_append]
      rw [readString?]
      simp only [hexUnit?_control hcontrol, hchar]
    · rename_i hplain
      have hkept : ¬ (c.toNat < 32 || c == '\\') = true := by simp [hplain, hmem]
      rw [List.singleton_append, readString?.eq_def]
      split
      case h_5 =>
        rename_i heq
        obtain ⟨rfl, rfl⟩ := List.cons.inj heq
        exact if_neg hkept
      all_goals simp_all

theorem readString?_flatMap_escape (s rest : Text) :
    readString? (s.flatMap escape ++ '"' :: rest) = some (s, rest) := by
  induction s with
  | nil => rfl
  | cons c s ih =>
    rw [List.flatMap_cons, List.append_assoc, readString?_escape, ih]
    rfl

/-- A string is read back after its opening quote. -/
theorem quote_append (s rest : Text) :
    quote s ++ rest = '"' :: (s.flatMap escape ++ '"' :: rest) := by
  simp [quote]

/-! ## Gaps -/

/-- A text of gap characters. -/
def IsGapText (gap : Text) : Prop :=
  ∀ c ∈ gap, isGap c = true

theorem isGapText_nil : IsGapText [] :=
  List.forall_mem_nil _

theorem isGapText_lineStart (style : Style) (level : Nat) : IsGapText (style.lineStart level) := by
  cases style with
  | compact => exact isGapText_nil
  | pretty =>
    intro c hc
    rcases List.mem_cons.mp hc with rfl | hc
    · rfl
    · rw [List.eq_of_mem_replicate hc]
      rfl

theorem skipGap_append {gap : Text} (h : IsGapText gap) (s : Text) :
    skipGap (gap ++ s) = skipGap s :=
  List.dropWhile_append_of_pos h

theorem skipGap_cons {c : Char} (h : isGap c = false) (s : Text) :
    skipGap (c :: s) = c :: s :=
  List.dropWhile_cons_of_neg (by simp [h])

theorem readValue?_gap {gap : Text} (h : IsGapText gap) (depth : Nat) (s : Text) :
    readValue? depth (gap ++ s) = readValue? depth s := by
  unfold readValue?
  simp only [skipGap_append h]

theorem not_isNumberChar_of_isGap {c : Char} (h : isGap c = true) : isNumberChar c = false := by
  simp only [isGap, Bool.or_eq_true, beq_iff_eq] at h
  rcases h with ((rfl | rfl) | rfl) | rfl <;> rfl

theorem isGap_of_isNumberChar {c : Char} (h : isNumberChar c = true) : isGap c = false := by
  by_contra hgap
  simp [not_isNumberChar_of_isGap (by simpa using hgap)] at h

theorem exists_json_cons {n : Number} (h : n.isFinite = true) :
    ∃ c cs, n.json = c :: cs ∧ isNumberChar c = true := by
  obtain ⟨c, cs, hjson⟩ := List.exists_cons_of_ne_nil (json_ne_nil h)
  exact ⟨c, cs, hjson, isNumberChar_of_mem_json h c (by simp [hjson])⟩

theorem endsNumber_cons {c : Char} (h : isNumberChar c = false) (s : Text) :
    EndsNumber (c :: s) := by
  simpa [EndsNumber] using h

theorem endsNumber_gap {gap : Text} (h : IsGapText gap) {s : Text} (hs : EndsNumber s) :
    EndsNumber (gap ++ s) := by
  cases gap with
  | nil => exact hs
  | cons c gap => exact endsNumber_cons (not_isNumberChar_of_isGap (h c (by simp))) _

/-! ## Lists -/

/-- What the texts of items have in common: the reader takes each one, after a gap, from whatever
does not go on with a number, and none starts with a gap or with what closes the list. -/
structure ReadsItems (item : Text → Option (α × Text)) (close : Char) (text : α → Text)
    (xs : List α) : Prop where
  reads : ∀ x ∈ xs, ∀ gap rest, IsGapText gap → EndsNumber rest →
    item (gap ++ (text x ++ rest)) = some (x, rest)
  starts : ∀ x ∈ xs, ∃ c cs, text x = c :: cs ∧ isGap c = false ∧ c ≠ close

/-- The items after the first, each on a line of its own. -/
def itemsText (text : α → Text) (gap : Text) (xs : List α) : Text :=
  xs.flatMap fun x => ',' :: (gap ++ text x)

/-- A character that closes a list. -/
def Closing (close : Char) : Prop :=
  close = ']' ∨ close = '}'

theorem Closing.facts {close : Char} (h : Closing close) :
    isGap close = false ∧ isNumberChar close = false ∧ close ≠ ',' := by
  rcases h with rfl | rfl <;> decide

variable {α : Type} {item : Text → Option (α × Text)} {close : Char} {text : α → Text}

theorem readItems?_itemsText (hclose : Closing close) {gap last : Text} (hgap : IsGapText gap)
    (hlast : IsGapText last) {x : α} {xs : List α}
    (h : ReadsItems item close text (x :: xs)) {fuel : Nat} (hfuel : xs.length < fuel)
    {front : Text} (hfront : IsGapText front) (rest : Text) :
    readItems? item close fuel
        (front ++ (text x ++ (itemsText text gap xs ++ (last ++ close :: rest)))) =
      some (x :: xs, rest) := by
  obtain ⟨hcgap, hcnumber, hccomma⟩ := hclose.facts
  have hend : EndsNumber (last ++ close :: rest) :=
    endsNumber_gap hlast (endsNumber_cons hcnumber rest)
  induction xs generalizing x fuel front with
  | nil =>
    obtain ⟨fuel, rfl⟩ := Nat.exists_eq_add_one_of_ne_zero (Nat.ne_zero_of_lt hfuel)
    have hitems : itemsText text gap [] ++ (last ++ close :: rest) = last ++ close :: rest := rfl
    rw [readItems?, hitems, h.reads x (by simp) front _ hfront hend]
    simp only [skipGap_append hlast, skipGap_cons hcgap, if_true]
  | cons y ys ih =>
    obtain ⟨fuel, rfl⟩ := Nat.exists_eq_add_one_of_ne_zero (Nat.ne_zero_of_lt hfuel)
    have hcomma : isGap ',' = false ∧ isNumberChar ',' = false := by decide
    have htail : ReadsItems item close text (y :: ys) :=
      ⟨fun z hz => h.reads z (.tail _ hz), fun z hz => h.starts z (.tail _ hz)⟩
    have hread := ih htail (Nat.lt_of_succ_lt_succ hfuel) hgap
    have hitems : itemsText text gap (y :: ys) ++ (last ++ close :: rest) =
        ',' :: (gap ++ (text y ++ (itemsText text gap ys ++ (last ++ close :: rest)))) := by
      simp [itemsText]
    rw [readItems?, hitems, h.reads x (by simp) front _ hfront (endsNumber_cons hcomma.2 _)]
    simp only [skipGap_cons hcomma.1, hread, Option.map_some]

theorem length_le_length_itemsText (text : α → Text) (gap : Text) (xs : List α) :
    xs.length ≤ (itemsText text gap xs).length := by
  induction xs with
  | nil => exact Nat.le_refl 0
  | cons x xs ih =>
    simp only [itemsText, List.flatMap_cons, List.length_append, List.length_cons] at ih ⊢
    omega

/-- Items are read back after the opening character. -/
theorem readList?_itemsText (hclose : Closing close) {gap last : Text} (hgap : IsGapText gap)
    (hlast : IsGapText last) {x : α} {xs : List α}
    (h : ReadsItems item close text (x :: xs)) (rest : Text) :
    readList? item close
        (gap ++ (text x ++ (itemsText text gap xs ++ (last ++ close :: rest)))) =
      some (x :: xs, rest) := by
  obtain ⟨c, cs, htext, hcgap, hne⟩ := h.starts x (by simp)
  have hfuel : xs.length <
      (gap ++ (text x ++ (itemsText text gap xs ++ (last ++ close :: rest)))).length := by
    have hitems := length_le_length_itemsText text gap xs
    simp only [List.length_append, List.length_cons]
    omega
  have hread := readItems?_itemsText hclose hgap hlast h hfuel isGapText_nil rest
  rw [readList?, skipGap_append hgap]
  rw [htext] at hread ⊢
  simp only [List.cons_append, List.nil_append, skipGap_cons hcgap, if_neg hne] at hread ⊢
  exact hread

theorem readList?_close (hclose : Closing close) (rest : Text) :
    readList? item close (close :: rest) = some ([], rest) := by
  simp only [readList?, skipGap_cons hclose.facts.1, if_true]

theorem printItems_eq_itemsText (style : Style) (level : Nat) (items : List Json) :
    printItems style level items =
      itemsText (printAt style level) (style.lineStart level) items := by
  induction items with
  | nil => rw [printItems]; rfl
  | cons item rest ih => rw [printItems, ih]; simp [itemsText]

theorem printFields_eq_itemsText (style : Style) (level : Nat) (fields : List (Text × Json)) :
    printFields style level fields =
      itemsText (printField style level) (style.lineStart level) fields := by
  induction fields with
  | nil => rw [printFields]; rfl
  | cons field rest ih => rw [printFields, ih]; simp [itemsText]

/-! ## Values -/

/-- What can be read back with some levels of nesting left: numbers are finite, keys differ, and
arrays and objects use up a level. -/
inductive Fits : Nat → Json → Prop where
  | null {depth} : Fits depth .null
  | bool {depth} (b) : Fits depth (.bool b)
  | number {depth n} : n.isFinite = true → Fits depth (.number n)
  | string {depth} (s) : Fits depth (.string s)
  | array {depth items} : (∀ item ∈ items, Fits depth item) → Fits (depth + 1) (.array items)
  | object {depth} {fields : List (Text × Json)} : (fields.map Prod.fst).Nodup →
    (∀ field ∈ fields, Fits depth field.2) → Fits (depth + 1) (.object fields)

/-- The text of a value starts neither with a gap nor with the end of an array. -/
theorem Fits.starts {depth : Nat} {j : Json} (h : Fits depth j) (style : Style) (level : Nat) :
    ∃ c cs, printAt style level j = c :: cs ∧ isGap c = false ∧ c ≠ ']' := by
  cases h with
  | null => exact ⟨'n', "ull".toList, by rw [printAt]; rfl, rfl, by decide⟩
  | bool b =>
    cases b with
    | true => exact ⟨'t', "rue".toList, by rw [printAt]; rfl, rfl, by decide⟩
    | false => exact ⟨'f', "alse".toList, by rw [printAt]; rfl, rfl, by decide⟩
  | number hfinite =>
    obtain ⟨c, cs, hjson, hc⟩ := exists_json_cons hfinite
    refine ⟨c, cs, by rw [printAt, hjson], isGap_of_isNumberChar hc, ?_⟩
    rintro rfl
    simp [isNumberChar] at hc
  | string s => exact ⟨'"', _, by rw [printAt, quote]; rfl, rfl, by decide⟩
  | @array depth items _ =>
    cases items with
    | nil => exact ⟨'[', _, by rw [printAt], rfl, by decide⟩
    | cons item rest => exact ⟨'[', _, by rw [printAt]; rfl, rfl, by decide⟩
  | @object depth fields _ _ =>
    cases fields with
    | nil => exact ⟨'{', _, by rw [printAt], rfl, by decide⟩
    | cons field rest => exact ⟨'{', _, by rw [printAt]; rfl, rfl, by decide⟩

theorem exists_afterKey (style : Style) : ∃ gap, IsGapText gap ∧ style.afterKey = ':' :: gap := by
  cases style with
  | compact => exact ⟨[], isGapText_nil, rfl⟩
  | pretty => exact ⟨[' '], by simp [IsGapText, isGap], rfl⟩

/-- A field is read back if its value is. -/
theorem readField?_printField {depth : Nat} {style : Style} {level : Nat} {field : Text × Json}
    {gap rest : Text} (hgap : IsGapText gap)
    (hvalue : readValue? depth (printAt style level field.2 ++ rest) = some (field.2, rest)) :
    readField? (readValue? depth) (gap ++ (printField style level field ++ rest)) =
      some (field, rest) := by
  obtain ⟨key, value⟩ := field
  obtain ⟨after, hafter, hkey⟩ := exists_afterKey style
  have htext : printField style level (key, value) ++ rest =
      '"' :: (key.flatMap escape ++
        '"' :: ':' :: (after ++ (printAt style level value ++ rest))) := by
    rw [printField, hkey, List.append_assoc, List.append_assoc, quote_append]
    simp
  have hquote : isGap '"' = false := rfl
  have hcolon : isGap ':' = false := rfl
  rw [readField?, skipGap_append hgap, htext]
  simp only [skipGap_cons hquote, readString?_flatMap_escape, skipGap_cons hcolon,
    readValue?_gap hafter, hvalue, Option.map_some]

/-! ### One case for each kind of value -/

section

variable {depth : Nat} {style : Style} {level : Nat}

/-- No other value starts with a character of a number. -/
theorem readValue?_number {n : Number} (h : n.isFinite = true) {rest : Text}
    (hrest : EndsNumber rest) :
    readValue? depth (n.json ++ rest) = some (.number n, rest) := by
  obtain ⟨c, cs, hjson, hc⟩ := exists_json_cons h
  have hread := readNumber?_json h hrest
  rw [readValue?.eq_def]
  rw [hjson, List.cons_append] at hread ⊢
  simp only [skipGap_cons (isGap_of_isNumberChar hc)]
  split
  case h_7 => rw [hread, Option.map_some]
  all_goals
    rename_i heq
    obtain ⟨rfl, -⟩ := List.cons.inj heq
    simp [isNumberChar] at hc

theorem readValue?_string (s rest : Text) :
    readValue? depth (quote s ++ rest) = some (.string s, rest) := by
  have hquote : isGap '"' = false := rfl
  rw [quote_append, readValue?.eq_def]
  simp only [skipGap_cons hquote, readString?_flatMap_escape, Option.map_some]

theorem readValue?_array {items : List Json}
    (h : ReadsItems (readValue? depth) ']' (printAt style (level + 1)) items) (rest : Text) :
    readValue? (depth + 1) (printAt style level (.array items) ++ rest) =
      some (.array items, rest) := by
  have hopen : isGap '[' = false := rfl
  have hclose : Closing ']' := .inl rfl
  rw [readValue?.eq_def]
  cases items with
  | nil =>
    simp only [printAt, List.cons_append, List.nil_append, skipGap_cons hopen,
      readList?_close hclose, Option.map_some]
  | cons item items =>
    have hread := readList?_itemsText hclose (isGapText_lineStart style (level + 1))
      (isGapText_lineStart style level) h rest
    simp only [printAt, printItems_eq_itemsText, List.cons_append, List.append_assoc,
      List.nil_append, skipGap_cons hopen, hread, Option.map_some]

theorem readValue?_object {fields : List (Text × Json)} (hkeys : (fields.map Prod.fst).Nodup)
    (h : ReadsItems (readField? (readValue? depth)) '}' (printField style (level + 1)) fields)
    (rest : Text) :
    readValue? (depth + 1) (printAt style level (.object fields) ++ rest) =
      some (.object fields, rest) := by
  have hopen : isGap '{' = false := rfl
  have hclose : Closing '}' := .inr rfl
  rw [readValue?.eq_def]
  cases fields with
  | nil =>
    simp only [printAt, List.cons_append, List.nil_append, skipGap_cons hopen,
      readList?_close hclose, Option.map_some, lastOfEachKey]
  | cons field fields =>
    have hread := readList?_itemsText hclose (isGapText_lineStart style (level + 1))
      (isGapText_lineStart style level) h rest
    simp only [printAt, printFields_eq_itemsText, List.cons_append, List.append_assoc,
      List.nil_append, skipGap_cons hopen, hread, Option.map_some, lastOfEachKey_of_nodup hkeys]

end

/-- **A value is read back from its text**, whatever follows it. -/
theorem Fits.readValue?_printAt {depth : Nat} {j : Json} (h : Fits depth j) (style : Style)
    (level : Nat) {rest : Text} (hrest : EndsNumber rest) :
    readValue? depth (printAt style level j ++ rest) = some (j, rest) := by
  induction h generalizing level rest with
  | null =>
    rw [printAt, readValue?.eq_def]
    rfl
  | bool b =>
    cases b <;>
    · rw [printAt, readValue?.eq_def]
      rfl
  | number hfinite =>
    rw [printAt]
    exact readValue?_number hfinite hrest
  | string s =>
    rw [printAt]
    exact readValue?_string s rest
  | array hitems ih =>
    refine readValue?_array ⟨fun x hx gap rest hgap hend => ?_, fun x hx => ?_⟩ rest
    · rw [readValue?_gap hgap, ih x hx (level + 1) hend]
    · exact (hitems x hx).starts style (level + 1)
  | object hkeys hfields ih =>
    refine readValue?_object hkeys ⟨fun x hx gap rest hgap hend => ?_, fun x hx => ?_⟩ rest
    · exact readField?_printField hgap (ih x hx (level + 1) hend)
    · exact ⟨'"', _, by rw [printField, quote]; rfl, rfl, by decide⟩

/-- **A JSON text is read back**, in either style. -/
theorem Fits.read?_print {j : Json} (h : Fits maxDepth j) (style : Style) :
    read? (j.print style) = some j := by
  have hend : EndsNumber [] := by simp [EndsNumber]
  have hread := h.readValue?_printAt style 0 hend
  rw [List.append_nil] at hread
  simp [read?, print, hread, skipGap]

/-! ## Depth -/

/-- A value that is read back wherever it may nest as deep as it does. -/
def IsReadable (j : Json) : Prop :=
  ∀ depth, j.depth ≤ depth → Fits depth j

theorem isReadable_bool (b : Bool) : IsReadable (.bool b) := fun _ _ => .bool b

theorem isReadable_number {n : Number} (h : n.isFinite = true) : IsReadable (.number n) :=
  fun _ _ => .number h

theorem isReadable_string (s : Text) : IsReadable (.string s) := fun _ _ => .string s

theorem isReadable_array {items : List Json} (h : ∀ item ∈ items, IsReadable item) :
    IsReadable (.array items) := by
  intro k hk
  rw [depth] at hk
  obtain ⟨k, rfl⟩ := Nat.exists_eq_add_one_of_ne_zero (Nat.ne_zero_of_lt hk)
  have hitems := itemsDepth_le_iff.mp (Nat.le_of_succ_le_succ hk)
  exact .array fun item hi => h item hi k (hitems item hi)

theorem isReadable_object {fields : List (Text × Json)} (hkeys : (fields.map Prod.fst).Nodup)
    (h : ∀ field ∈ fields, IsReadable field.2) : IsReadable (.object fields) := by
  intro k hk
  rw [depth] at hk
  obtain ⟨k, rfl⟩ := Nat.exists_eq_add_one_of_ne_zero (Nat.ne_zero_of_lt hk)
  have hfields := fieldsDepth_le_iff.mp (Nat.le_of_succ_le_succ hk)
  exact .object hkeys fun field hf => h field hf k (hfields field hf)

end SearchLang.Json
