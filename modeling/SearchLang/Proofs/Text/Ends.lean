import Mathlib.Data.List.TakeDrop
import Mathlib.Data.List.TakeWhile
import SearchLang.Text.Space

/-!
# Ends of texts

When trimming takes nothing, or just what was put around a text, and which texts
are not changed when runs of blanks are collapsed.
-/

namespace SearchLang.Text

variable {p : Char → Bool} {s : Text}

/-! ## Trimming -/

/-- A text whose ends are outside a class of characters. -/
structure IsTrim (p : Char → Bool) (s : Text) : Prop where
  ne_nil : s ≠ []
  head : ∀ c ∈ s.head?, p c = false
  last : ∀ c ∈ s.getLast?, p c = false

theorem IsTrim.of_forall (hne : s ≠ []) (h : ∀ c ∈ s, p c = false) : IsTrim p s where
  ne_nil := hne
  head := fun c hc => h c (List.mem_of_mem_head? hc)
  last := fun c hc => h c (List.mem_of_mem_getLast? hc)

theorem prefix_trimRight (p : Char → Bool) (s : Text) : trimRight p s <+: s := by
  induction s with
  | nil => exact List.nil_prefix
  | cons c cs ih =>
    rw [trimRight]
    split
    · split
      · exact List.nil_prefix
      · exact (List.prefix_cons_inj c).mpr List.nil_prefix
    · exact (List.prefix_cons_inj c).mpr ih

theorem infix_trim (p : Char → Bool) (s : Text) : trim p s <:+: s :=
  (prefix_trimRight p _).isInfix.trans (List.dropWhile_suffix p).isInfix

/-- What is trimmed off the end of a text is of the class. -/
theorem exists_append_trimRight (p : Char → Bool) (s : Text) :
    ∃ after, s = trimRight p s ++ after ∧ ∀ c ∈ after, p c = true := by
  induction s with
  | nil => exact ⟨[], rfl, List.forall_mem_nil _⟩
  | cons c cs ih =>
    obtain ⟨after, hcs, hafter⟩ := ih
    rw [trimRight]
    split
    · rename_i hnil
      rw [hnil, List.nil_append] at hcs
      split
      · rename_i hc
        exact ⟨c :: after, by rw [← hcs]; rfl, by simpa [hc] using hafter⟩
      · exact ⟨after, by rw [← hcs]; rfl, hafter⟩
    · rename_i kept hkept
      exact ⟨after, by rw [List.cons_append, ← hcs], hafter⟩

/-- Trimming at the end goes past no character outside the class. -/
theorem trimRight_cons {c : Char} (hc : p c = false) (s : Text) :
    trimRight p (c :: s) = c :: trimRight p s := by
  rw [trimRight]
  split
  · simp_all
  · rfl

theorem trimRight_of_forall (h : ∀ c ∈ s, p c = true) : trimRight p s = [] := by
  induction s with
  | nil => rfl
  | cons c cs ih => simp [trimRight, ih fun d hd => h d (by simp [hd]), h c (by simp)]

/-- What ends a text in a class goes, and the rest stays if it ends outside of it. -/
theorem trimRight_append {after : Text} (hs : s ≠ []) (hlast : ∀ c ∈ s.getLast?, p c = false)
    (hafter : ∀ c ∈ after, p c = true) : trimRight p (s ++ after) = s := by
  induction s with
  | nil => exact absurd rfl hs
  | cons c cs ih =>
    rw [List.cons_append, trimRight]
    cases cs with
    | nil =>
      have hc : p c = false := hlast c rfl
      simp [trimRight_of_forall hafter, hc]
    | cons d ds =>
      have htail : trimRight p (d :: ds ++ after) = d :: ds :=
        ih (by simp) (by simpa [List.getLast?_cons_cons] using hlast)
      rw [htail]

theorem IsTrim.trimRight_append (h : IsTrim p s) {after : Text}
    (hafter : ∀ c ∈ after, p c = true) : trimRight p (s ++ after) = s :=
  Text.trimRight_append h.ne_nil h.last hafter

/-- What is put around a text in a class is trimmed off again. -/
theorem IsTrim.trim_surrounded (h : IsTrim p s) (before after : Text)
    (hbefore : ∀ c ∈ before, p c = true) (hafter : ∀ c ∈ after, p c = true) :
    trim p (before ++ (s ++ after)) = s := by
  obtain ⟨c, cs, rfl⟩ := List.exists_cons_of_ne_nil h.ne_nil
  have hc : p c = false := h.head c rfl
  have hleft : trimLeft p (before ++ (c :: cs ++ after)) = c :: cs ++ after := by
    rw [trimLeft, List.dropWhile_append_of_pos hbefore, List.cons_append,
      List.dropWhile_cons_of_neg (by simp [hc])]
  rw [trim, hleft, h.trimRight_append hafter]

theorem IsTrim.trim_eq (h : IsTrim p s) : trim p s = s := by
  have htrim := h.trim_surrounded [] [] (List.forall_mem_nil _) (List.forall_mem_nil _)
  simpa using htrim

/-- What is put in front of a text takes over its start. -/
theorem IsTrim.prepend {before : Text} (h : IsTrim p s) (hbefore : ∀ c ∈ before.head?, p c = false) :
    IsTrim p (before ++ s) := by
  refine ⟨by simp [h.ne_nil], fun c hc => ?_, fun c hc => ?_⟩
  · cases before with
    | nil => exact h.head c hc
    | cons d ds => exact hbefore c hc
  · have hlast : s.getLast? = some (s.getLast h.ne_nil) := List.getLast?_eq_some_getLast h.ne_nil
    rw [List.getLast?_append, hlast] at hc
    exact h.last c (hlast ▸ hc)

/-- A text off which nothing is trimmed. -/
theorem IsTrim.of_trim_eq (hne : s ≠ []) (h : trim p s = s) : IsTrim p s := by
  have hle := length_trimRight_le p (trimLeft p s)
  have hleft : trimLeft p s = s := by
    refine (List.dropWhile_suffix p).eq_of_length_le ?_
    rw [trim] at h
    rwa [h] at hle
  rw [trim, hleft] at h
  refine ⟨hne, fun c hc => ?_, fun c hc => ?_⟩
  swap
  · exact getLast?_trimRight p s c (by rwa [h])
  obtain ⟨d, ds, rfl⟩ := List.exists_cons_of_ne_nil hne
  obtain rfl : d = c := by simpa using hc
  rw [Bool.eq_false_iff]
  intro hd
  rw [trimLeft, List.dropWhile_cons_of_pos hd] at hleft
  have hlen := congrArg List.length hleft
  have hdrop := (List.dropWhile_sublist p (l := ds)).length_le
  simp only [List.length_cons] at hlen
  omega

/-- What trimming leaves, if anything, ends outside the class. -/
theorem isTrim_trim (h : trim p s ≠ []) : IsTrim p (trim p s) where
  ne_nil := h
  last := getLast?_trimRight p _
  head := by
    intro c hc
    have hleft : (trimLeft p s).head? = some c := by
      obtain ⟨after, hafter⟩ := prefix_trimRight p (trimLeft p s)
      obtain ⟨d, ds, hd⟩ := List.exists_cons_of_ne_nil h
      have htrim : trimRight p (trimLeft p s) = d :: ds := hd
      rw [htrim] at hafter
      rw [hd] at hc
      rw [← hafter]
      exact hc
    have hnot := List.head?_dropWhile_not p s
    rw [show s.dropWhile p = trimLeft p s from rfl, hleft] at hnot
    simpa using hnot

/-- Trimming keeps the characters outside the class. -/
theorem mem_trim {c : Char} (hc : c ∈ s) (hp : p c = false) : c ∈ trim p s := by
  have hleft : c ∈ trimLeft p s := by
    rw [← List.takeWhile_append_dropWhile (p := p) (l := s)] at hc
    refine (List.mem_append.mp hc).resolve_left fun hc => ?_
    simp [List.mem_takeWhile_imp hc] at hp
  obtain ⟨after, hs, hafter⟩ := exists_append_trimRight p (trimLeft p s)
  rw [hs] at hleft
  refine (List.mem_append.mp hleft).resolve_right fun hc => ?_
  simp [hafter c hc] at hp

/-- Trimming leaves something of a text with a character outside the class. -/
theorem trim_ne_nil {c : Char} (hc : c ∈ s) (hp : p c = false) : trim p s ≠ [] :=
  List.ne_nil_of_mem (mem_trim hc hp)

/-! ## Collapsing -/

/-- A text that collapsing keeps as it is, whatever comes after it. -/
def IsCollapsed (s : Text) : Prop :=
  ∀ rest, collapseBlanks (s ++ rest) = s ++ collapseBlanks rest

theorem isCollapsed_nil : IsCollapsed [] :=
  fun _ => rfl

theorem IsCollapsed.cons {c : Char} (hc : isBlank c = false) (h : IsCollapsed s) :
    IsCollapsed (c :: s) := by
  intro rest
  rw [List.cons_append, collapseBlanks.eq_def]
  simp only [hc, Bool.false_eq_true, if_false, h rest, List.cons_append]

theorem IsCollapsed.append {t : Text} (hs : IsCollapsed s) (ht : IsCollapsed t) :
    IsCollapsed (s ++ t) := by
  intro rest
  rw [List.append_assoc, hs, ht, List.append_assoc]

/-- A space before a text that starts with something else stays one space. -/
theorem IsCollapsed.space (h : IsCollapsed s) (hs : s ≠ [])
    (hhead : ∀ c ∈ s.head?, isBlank c = false) : IsCollapsed (' ' :: s) := by
  obtain ⟨c, cs, rfl⟩ := List.exists_cons_of_ne_nil hs
  have hc : isBlank c = false := hhead c rfl
  intro rest
  have hspace : isBlank ' ' = true := rfl
  rw [List.cons_append, collapseBlanks.eq_def]
  simp only [hspace, List.cons_append, hc, Bool.false_eq_true, if_true, if_false]
  rw [← List.cons_append, h rest]
  rfl

theorem IsCollapsed.of_forall (h : ∀ c ∈ s, isBlank c = false) : IsCollapsed s := by
  induction s with
  | nil => exact isCollapsed_nil
  | cons c cs ih => exact .cons (h c (by simp)) (ih fun d hd => h d (by simp [hd]))

theorem IsCollapsed.collapseBlanks_eq (h : IsCollapsed s) : collapseBlanks s = s := by
  have hs := h []
  simpa [collapseBlanks] using hs

/-- A collapsed text that starts with no blank, so that a space may stand before it. -/
structure IsCompact (s : Text) : Prop where
  collapsed : IsCollapsed s
  ne_nil : s ≠ []
  head : ∀ c ∈ s.head?, isBlank c = false

theorem IsCompact.space (h : IsCompact s) : IsCollapsed (' ' :: s) :=
  h.collapsed.space h.ne_nil h.head

theorem IsCompact.cons {c : Char} (hc : isBlank c = false) (h : IsCollapsed s) :
    IsCompact (c :: s) :=
  ⟨h.cons hc, List.cons_ne_nil c s, by simpa using hc⟩

theorem IsCompact.append {t : Text} (hs : IsCompact s) (ht : IsCollapsed t) : IsCompact (s ++ t) := by
  obtain ⟨c, cs, rfl⟩ := List.exists_cons_of_ne_nil hs.ne_nil
  exact ⟨hs.collapsed.append ht, by simp, by simpa using hs.head c rfl⟩

theorem IsCompact.of_forall (hne : s ≠ []) (h : ∀ c ∈ s, isBlank c = false) : IsCompact s :=
  ⟨.of_forall h, hne, fun c hc => h c (List.mem_of_mem_head? hc)⟩

/-- Texts may be joined with spaces between them. -/
theorem IsCompact.join {texts : List Text} (hne : texts ≠ []) (h : ∀ s ∈ texts, IsCompact s) :
    IsCompact (join [' '] texts) := by
  induction texts with
  | nil => exact absurd rfl hne
  | cons s rest ih =>
    cases rest with
    | nil => exact h s List.mem_cons_self
    | cons t rest =>
      have hrest : IsCompact (Text.join [' '] (t :: rest)) :=
        ih (List.cons_ne_nil t rest) fun u hu => h u (List.mem_cons_of_mem s hu)
      rw [join_cons_cons]
      exact (h s List.mem_cons_self).append hrest.space

/-- Characters that are no blanks may be put in front. -/
theorem IsCompact.prepend {before : Text} (hbefore : ∀ c ∈ before, isBlank c = false)
    (hs : IsCompact s) : IsCompact (before ++ s) := by
  induction before with
  | nil => exact hs
  | cons c cs ih =>
    exact .cons (hbefore c (by simp)) (ih fun d hd => hbefore d (by simp [hd])).collapsed

end SearchLang.Text
