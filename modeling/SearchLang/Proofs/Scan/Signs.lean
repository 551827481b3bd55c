import SearchLang.Proofs.Chunk.Join
import SearchLang.Proofs.Scan.TokenLaw

/-!
# Signs of a scan

A scan makes sign tokens of the characters `+` and `-` only: a query without
them has no signs.
-/

namespace SearchLang

namespace Scan

/-- A text without signs. -/
def UnsignedText (value : Text) : Prop :=
  '+' ∉ value ∧ '-' ∉ value

theorem UnsignedText.subset {s t : Text} (h : UnsignedText s) (hsub : t ⊆ s) : UnsignedText t :=
  ⟨fun hc => h.1 (hsub hc), fun hc => h.2 (hsub hc)⟩

/-- No way to make a token out of an unsigned text gives a sign. -/
theorem tokenLaw_ne_sign : TokenLaw UnsignedText fun t => ∀ sign, t.kind ≠ .sign sign where
  part := fun hs ht => hs.subset ht.subset
  space := by simp
  mark := fun _ hsign => hsign
  sign := fun _ hs hmem => hmem.elim (absurd · hs.1) (absurd · hs.2)
  number := by simp
  ignored := by simp
  letter := by simp
  word := by simp
  glue := by simp
  field := by simp
  phrase := by simp
  standalone := by simp
  tagged := by simp

end Scan

open Scan in
/-- **A query without `+` and `-` has no signs.** -/
theorem kind_ne_sign_of_mem_scan {q : Text} (hq : UnsignedText q) {t : Token} (ht : t ∈ scan q)
    (sign : Sign) : t.kind ≠ .sign sign := by
  have hpieces : ∀ piece ∈ Chunk.ofQuery q, UnsignedText piece := by
    intro piece hpiece
    have hunsigned : UnsignedText (Text.collapseBlanks (' ' :: q)) := by
      constructor <;>
      · intro hc
        rcases Text.mem_collapseBlanks hc with hc | hc
        · simp_all [UnsignedText]
        · simp at hc
    refine hunsigned.subset fun c hc => ?_
    rw [← Chunk.flatten_split true (Text.collapseBlanks (' ' :: q))]
    exact List.mem_flatten.mpr ⟨piece, hpiece, hc⟩
  exact tokenLaw_ne_sign.of_mem_scan hpieces ht sign

end SearchLang
