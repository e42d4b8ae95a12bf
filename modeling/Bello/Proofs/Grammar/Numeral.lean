import Bello.Proofs.Decimal.Format
import Bello.Proofs.Grammar.Render
import Bello.Proofs.Token.Context

/- Shown numbers as source.

   What is shown for a number is itself a number of the language: it is one token, the
   expression that it stands for is the number that was shown, and showing that number
   again changes nothing (`format_reads_back`). -/
namespace Bello

theorem Token.tokenize_plain (d : Decimal) :
    tokenize d.plain = [⟨.number, d.plain, ⟨0, d.plain.toList.length⟩⟩,
      endOfInput d.plain.toList.length] := by
  have hscans : (ofNumber d).Scans [] := (writable_number d).stands [] .nil
  rw [String.length_toList]
  exact hscans.tokenize_eq (writable_number d).no_return

/-- Plain digits are read as the number that they denote. -/
theorem Expr.ofSource_plain (d : Decimal) : ∃ span, ofSource d.plain = .ok (.number d span) := by
  have htokens : Token.placeless d.plain = [.ofNumber d] := by
    have hspell := Token.tokenize_spell (.singleton (Token.writable_number d))
    rwa [show String.ofList (Token.spell [.ofNumber d]) = d.plain from String.ofList_toList]
      at hspell
  have hphrase : Grammar.Phrase .primary [.ofNumber d] (.number d .blank) 0 :=
    .number rfl (Decimal.ofPlain?_plain d)
  have hderives : Grammar.Expression (Token.placeless d.plain) (.number d .blank) 1 := by
    rw [htokens]
    exact .mk hphrase.to_or
  obtain ⟨e, he, hbare⟩ := ofSource_of_derives hderives (by decide)
  cases e with
  | number v span =>
    cases hbare
    exact ⟨span, he⟩
  | _ => cases hbare

/-- **Shown numbers are canonical and read back.** The text of a number with `p` places is in
    canonical form and is one number token. It denotes the number rounded to `p` places,
    which is the number itself if it has no more, and as an expression it is that number.
    Any decimal of this value is shown by the same text. -/
theorem Expr.format_reads_back (p : Nat) (v : Decimal) :
    Decimal.Canonical p (v.format p).toList ∧
    Token.tokenize (v.format p) =
      [⟨.number, v.format p, ⟨0, (v.format p).toList.length⟩⟩,
        .endOfInput (v.format p).toList.length] ∧
    ∃ d, Decimal.ofString? (v.format p) = some d ∧
      Decimal.RoundsTo p v.value d.value ∧
      ((∃ s ≤ p, ∃ k : Int, v.value = k / tenPow s) → d.value = v.value) ∧
      (∃ span, ofSource (v.format p) = .ok (.number d span)) ∧
      ∀ e : Decimal, e.value = d.value → e.format p = v.format p := by
  have hrounds := v.shown_value p
  rw [v.format_eq_plain p]
  refine ⟨v.canonical_shown p, Token.tokenize_plain _, v.shown p, Decimal.ofString?_plain _,
    hrounds, ?_, ofSource_plain _, ?_⟩
  · rintro ⟨s, hs, k, hk⟩
    have hplaces : ∃ k : Int, v.value = k / tenPow p := by
      rw [← Decimal.value_normalize]
      exact Decimal.value_places ((Decimal.normalize_scale_le hk).trans hs)
    exact hrounds.unique (.refl hplaces)
  · intro e he
    have hself : Decimal.RoundsTo p e.value (v.shown p).value := by
      rw [he]
      exact .refl hrounds.places
    rw [e.format_eq_plain, Decimal.shown_congr p hself hrounds]

end Bello
