import SearchLang.Proofs.Parse.Amounts
import SearchLang.Proofs.Parse.Shape
import SearchLang.Proofs.Parse.TokenForm
import SearchLang.Proofs.Query.RoundTrip
import SearchLang.Proofs.Scan.Alone

/-!
# The canonical text of a query

The trees of a query are canonical, so that their token form stands for them. The
text they are rendered as does so too if its scan is the token form, and the leaves
alone decide that. A word may be left of a chunk that reads as something else when
it stands alone, and a sign may come to stand before a number: then the text means
something else than the query.
-/

namespace SearchLang.Query

/-- **Parsed trees are canonical.** -/
theorem all_isCanonical_parseTokens (l : Limits) (ts : List Token) :
    (parseTokens l.validate ts).all (Node.isCanonical l.validate) = true := by
  have hwithin := areWithin_parseTokens l ts
  rw [Node.areWithin_eq_all, List.all_eq_true] at hwithin
  rw [List.all_eq_true]
  intro n hn
  have hsound : Sound ts false n :=
    sound_sequence (bodySound_parseBody l.validate ts) none (List.Subset.refl ts) n hn
  rw [Node.isCanonical, hsound.shaped, hwithin n hn, Bool.and_self]

/-- The token form of a query stands for the query, whatever its tokens were. -/
theorem parseTokens_tokensList_parseTokens (l : Limits) (quoted : Text → Bool) (ts : List Token) :
    parseTokens l.validate (Node.tokensList quoted (parseTokens l.validate ts)) =
      parseTokens l.validate ts :=
  parseTokens_tokensList l quoted (all_isCanonical_parseTokens l ts)

/-- **The canonical text of a query means the same as the query if its leaves are read back where
they stand in it.** -/
theorem parse_render_parse (l : Limits) (q : Text)
    (h : (parse l.validate q).all Node.isReadable = true) :
    parse l.validate (render (parse l.validate q)) = parse l.validate q := by
  have hcanonical := all_isCanonical_parseTokens l (scan q)
  rw [List.all_eq_true] at h hcanonical
  have hscan : scan (render (parse l.validate q)) =
      Node.tokensList Scan.isQuotedBound (parse l.validate q) :=
    scan_renderList_of_scans (isFinite_validate l) fun n hn =>
      ⟨hcanonical n hn, Scan.nodeScans_of_isReadable (h n hn)⟩
  rw [parse, hscan]
  exact parseTokens_tokensList_parseTokens l Scan.isQuotedBound (scan q)

/-- Leaves of all forms, with signs and amounts, in filters and in subqueries. -/
def canonicalSample : Text :=
  ("+f:>=3 g:[\"to\" TO b]^ 🍦 (a* -\"b  c\"~1 @d)^3 http://e.f/(g), -#h 2015-12-18 it's:) :D " ++
    "i:(http://j.k l :) m :D)").toList

theorem parse_render_parse_canonicalSample :
    (parse ({} : Limits).validate canonicalSample).all Node.isReadable = true ∧
      parse ({} : Limits).validate (render (parse ({} : Limits).validate canonicalSample)) =
        parse ({} : Limits).validate canonicalSample := by
  have hreadable : (parse ({} : Limits).validate canonicalSample).all Node.isReadable = true := by
    decide +kernel
  exact ⟨hreadable, parse_render_parse {} canonicalSample hreadable⟩

/-- The dot keeps a word from being a keyword; the word is written without it. -/
theorem parse_render_parse_keyword :
    ¬ ∀ q : Text, parse {} (render (parse {} q)) = parse {} q := by
  intro h
  have hword : parse {} "to.".toList = [.leaf (.word "to".toList false) {}] := by decide +kernel
  have hagain : parse {} "to".toList = [] := by decide +kernel
  have hq := h "to.".toList
  have hrender : render [.leaf (.word "to".toList false) {}] = "to".toList := by decide +kernel
  rw [hword, hrender, hagain] at hq
  simp at hq

end SearchLang.Query
