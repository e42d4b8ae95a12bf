import Bello.Proofs.Token.Context

/- Tokens one on each line.

   Glued tokens stay apart when a line feed is put between them, and nothing else changes:
   `onLines` writes the significant tokens of a source one on each line, and cutting this
   gives the tokens back, with the line feeds as the only trivia
   (`tokens_survive_respacing`). `Lined ts` says of each token of `ts` what makes this work,
   that it is cut off by a line feed, or by the end if it is the last one. The tokens of a
   source are so by `Scans.elsewhere`: of those that something follows only a text that is a
   bang alone would take in the line feed. -/
namespace Bello.Token

open Text

/-- The lexemes, one on each line. -/
def onLines (ts : List Token) : String := "\n".intercalate (ts.map (·.lexeme))

theorem onLines_singleton (t : Token) : onLines [t] = t.lexeme := String.intercalate_singleton

theorem onLines_cons_cons (t u : Token) (ts : List Token) :
    (onLines (t :: u :: ts)).toList =
      t.lexeme.toList ++ ("\n".toList ++ (onLines (u :: ts)).toList) := by
  unfold onLines
  rw [List.map_cons, List.map_cons, String.intercalate_cons_cons, String.toList_append,
    String.toList_append, List.append_assoc]

/-- The first lexeme comes first. -/
theorem onLines_cons (t : Token) (ts : List Token) :
    ∃ more, (onLines (t :: ts)).toList = t.lexeme.toList ++ more := by
  cases ts with
  | nil => exact ⟨[], by rw [onLines_singleton, List.append_nil]⟩
  | cons u ts => exact ⟨_, onLines_cons_cons t u ts⟩

/-- Significant tokens that can be written one on each line. -/
inductive Lined : List Token → Prop where
  | nil : Lined []
  | last {t : Token} : t.isTrivia = false → Scans t [] → Lined [t]
  | cons {t u : Token} {ts : List Token} : t.isTrivia = false →
      (∀ rest, Scans t ('\n' :: rest)) → Lined (u :: ts) → Lined (t :: u :: ts)

namespace Lined

theorem head {t : Token} {ts : List Token} (h : Lined (t :: ts)) :
    ∀ c ∈ (onLines (t :: ts)).toList.head?, isBlank c = false := by
  obtain ⟨more, hmore⟩ := onLines_cons t ts
  rw [hmore]
  cases h with
  | last ht hscans => exact hscans.head ht more
  | cons ht hscans _ => exact (hscans []).head ht more

/-- Wherever they stand, the lines are cut into the tokens and the line feeds between them. -/
theorem cut {ts : List Token} (h : Lined ts) : ∀ offset, ∃ us,
    Cut offset (onLines ts).toList us ∧
    us.map (fun t => (t.kind, t.lexeme)) =
      (ts.map fun t => (t.kind, t.lexeme)).intersperse (.blank, "\n") ++ [(.endOfInput, "")] := by
  induction h with
  | nil =>
    intro offset
    exact ⟨[endOfInput offset], .nil offset, rfl⟩
  | @last t _ hscans =>
    intro offset
    have hone : Cut offset (t.lexeme.toList ++ []) _ := .token hscans (.nil _)
    rw [List.append_nil, ← onLines_singleton] at hone
    exact ⟨_, hone, rfl⟩
  | @cons t u ts _ hscans hrest ih =>
    intro offset
    have hfeed : Scans ⟨.blank, "\n", .point 0⟩ (onLines (u :: ts)).toList := by
      refine ⟨'\n', [], rfl, ?_⟩
      show (Kind.blank, runLength isBlank ([] ++ (onLines (u :: ts)).toList)) = (.blank, 0)
      rw [runLength_append (by simp) hrest.head]
      rfl
    obtain ⟨us, hcut, hus⟩ := ih (offset + t.lexeme.length + "\n".length)
    have hlines : Cut offset (t.lexeme.toList ++ ("\n".toList ++ (onLines (u :: ts)).toList)) _ :=
      .token (hscans _) (.token hfeed hcut)
    rw [← onLines_cons_cons] at hlines
    refine ⟨_, hlines, ?_⟩
    simp only [List.map_cons, List.intersperse_cons_cons, List.cons_append] at hus ⊢
    rw [hus]

theorem no_return {ts : List Token} (h : ∀ t ∈ ts, '\r' ∉ t.lexeme.toList) :
    '\r' ∉ (onLines ts).toList := by
  induction ts with
  | nil => exact List.not_mem_nil
  | cons t ts ih =>
    have ht := h t List.mem_cons_self
    have hts := ih fun u hu => h u (List.mem_cons_of_mem t hu)
    cases ts with
    | nil =>
      rw [onLines_singleton]
      exact ht
    | cons u ts =>
      rw [onLines_cons_cons, List.mem_append, List.mem_append, not_or, not_or]
      exact ⟨ht, by decide, hts⟩

end Lined

/-- Tokens of a text can be written one on each line, unless something follows a bang alone. -/
theorem Cut.lined {offset : Nat} {cs : List Char} {ts : List Token} (h : Cut offset cs ts)
    (hbang : ∀ t ∈ (significant ts).dropLast, t.kind = .text → t.lexeme ≠ "!") :
    Lined (significant ts) := by
  induction h with
  | nil offset => exact .nil
  | @cons offset c cs kind n ts hscan hrest ih =>
    have hscans := scans_of_scan hscan ⟨offset, offset + (c :: cs.take n).length⟩
    generalize (⟨kind, String.ofList (c :: cs.take n), _⟩ : Token) = t at hscans hbang ⊢
    cases ht : t.isTrivia with
    | true =>
      rw [significant_cons_trivia ht] at hbang ⊢
      exact ih hbang
    | false =>
      rw [significant_cons ht hscans.isEnd] at hbang ⊢
      cases hts : significant ts with
      | nil => exact .last ht (hscans.elsewhere (.inl rfl))
      | cons u us =>
        rw [hts] at hbang ih
        rw [List.dropLast_cons_cons] at hbang
        refine .cons ht (fun rest => ?_) (ih fun v hv => hbang v (List.mem_cons_of_mem t hv))
        apply hscans.elsewhere
        refine .inr ⟨.feed rest, ht, fun htext => ⟨?_, hbang t List.mem_cons_self htext⟩⟩
        -- At the end of the text no other token would follow.
        intro hnil
        rw [hnil] at hrest
        cases hrest
        cases hts

/-- **Tokens survive respacing.** Let no text that is a bang alone come before another
    significant token of a source. Then its significant tokens, written one on each line, are
    cut into the same tokens again, with the line feeds between them and the end after them. -/
theorem tokens_survive_respacing (source : String)
    (hbang : ∀ t ∈ (significant (tokenize source)).dropLast, t.kind = .text → t.lexeme ≠ "!") :
    (tokenize (onLines (significant (tokenize source)))).map (fun t => (t.kind, t.lexeme)) =
      ((significant (tokenize source)).map fun t => (t.kind, t.lexeme)).intersperse
        (.blank, "\n") ++ [(.endOfInput, "")] := by
  have hlined := (tokenize_cut source).lined hbang
  have hreturn : '\r' ∉ (onLines (significant (tokenize source))).toList := by
    apply Lined.no_return
    intro t ht
    apply tokenize_no_return
    exact (List.filter_sublist.subset ((List.takeWhile_sublist _).subset ht))
  obtain ⟨us, hcut, hus⟩ := hlined.cut 0
  have htokens := tokenize_cut (onLines (significant (tokenize source)))
  rw [normalize_of_no_return hreturn] at htokens
  rw [hcut.unique htokens]
  exact hus

/-- Words and numbers that are glued to texts, symbols and each other come apart. -/
theorem tokens_survive_respacing_glued :
    (∀ t ∈ (significant (tokenize "x!hi!5-3=-5_x!")).dropLast,
      t.kind = .text → t.lexeme ≠ "!") ∧
    (tokenize (onLines (significant (tokenize "x!hi!5-3=-5_x!")))).map
        (fun t => (t.kind, t.lexeme)) =
      ((significant (tokenize "x!hi!5-3=-5_x!")).map fun t => (t.kind, t.lexeme)).intersperse
        (.blank, "\n") ++ [(.endOfInput, "")] := by
  have hall : (significant (tokenize "x!hi!5-3=-5_x!")).dropLast.all
      (fun t => t.kind != .text || t.lexeme != "!") = true := by decide +kernel
  have hbang : ∀ t ∈ (significant (tokenize "x!hi!5-3=-5_x!")).dropLast,
      t.kind = .text → t.lexeme ≠ "!" := by
    intro t ht htext
    simpa [htext] using List.all_eq_true.1 hall t ht
  exact ⟨hbang, tokens_survive_respacing _ hbang⟩

end Bello.Token
