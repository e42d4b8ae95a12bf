import Bello.Proofs.Layout.Basic
import Bello.Proofs.Parse.Steps
import Bello.Proofs.Token.Scanning

/- Writing tokens as text.

   `spell` writes tokens one after another with a space between them. After a text there is
   none: a text that is a bang alone is one only before a parenthesis. `Legible ts` says
   that each token of `ts` can stand like that, and then cutting the text gives back the
   tokens (`tokenize_spell`). The names and texts of a source can be written again, wherever
   they come from (`tokenize_reusable`). -/
namespace Bello.Token

open Text

/-- Tokens as text. -/
def spell : List Token → List Char
  | [] => []
  | [t] => t.lexeme.toList
  | t :: u :: ts => t.lexeme.toList ++ ((if t.kind = .text then [] else [' ']) ++ spell (u :: ts))

/-- A token without a place that can be written where a space or the end follows. -/
structure Writable (t : Token) : Prop where
  stands : Stands t
  kind : t.kind ≠ .text
  significant : t.isTrivia = false
  no_return : '\r' ∉ t.lexeme.toList
  span : t.span = .blank

/-- Tokens that can be written one after another: texts stand before a parenthesis only. -/
inductive Legible : List Token → Prop where
  | nil : Legible []
  | cons {t : Token} {ts : List Token} : Writable t → Legible ts → Legible (t :: ts)
  | text {t close : Token} {ts : List Token} : t.kind = .text → (∀ rest, Scans t (')' :: rest)) →
      '\r' ∉ t.lexeme.toList → t.span = .blank → close.lexeme = ")" → Legible (close :: ts) →
      Legible (t :: close :: ts)

namespace Legible

theorem singleton {t : Token} (h : Writable t) : Legible [t] := .cons h .nil

theorem append {ts us : List Token} (h : Legible ts) (hus : Legible us) : Legible (ts ++ us) := by
  induction h with
  | nil => exact hus
  | cons ht _ ih => exact .cons ht ih
  | text hkind hscans hreturn hspan hclose _ ih =>
    exact .text hkind hscans hreturn hspan hclose ih

theorem concat {ts : List Token} {t : Token} (h : Legible ts) (ht : Writable t) :
    Legible (ts ++ [t]) := h.append (singleton ht)

theorem no_return {ts : List Token} (h : Legible ts) : '\r' ∉ spell ts := by
  have hcons : ∀ (t : Token) (ts : List Token), '\r' ∉ t.lexeme.toList → '\r' ∉ spell ts →
      '\r' ∉ spell (t :: ts) := by
    intro t ts ht hts
    cases ts with
    | nil => exact ht
    | cons u ts =>
      have hgap : '\r' ∉ (if t.kind = .text then [] else [' ']) := by
        split <;> decide
      simp only [spell, List.mem_append, not_or]
      exact ⟨ht, hgap, hts⟩
  induction h with
  | nil => exact List.not_mem_nil
  | cons ht _ ih => exact hcons _ _ ht.no_return ih
  | text _ _ hreturn _ _ _ ih => exact hcons _ _ hreturn ih

theorem bare_eq {ts : List Token} (h : Legible ts) : Spanned.bare ts = ts := by
  have hbare : ∀ t : Token, t.span = .blank → Spanned.bare t = t := by
    rintro ⟨kind, lexeme, span⟩ rfl
    rfl
  induction h with
  | nil => rfl
  | @cons t ts ht _ ih =>
    show Spanned.bare t :: Spanned.bare ts = t :: ts
    rw [hbare t ht.span, ih]
  | @text t close ts _ _ _ hspan _ _ ih =>
    show Spanned.bare t :: Spanned.bare (close :: ts) = t :: close :: ts
    rw [hbare t hspan, ih]

end Legible

/-! ## Cutting what was written -/

/-- A token in front of a text that is cut off by it. -/
theorem Cut.token {t : Token} {offset : Nat} {rest : List Char} {ts : List Token}
    (h : Scans t rest) (hrest : Cut (offset + t.lexeme.length) rest ts) :
    Cut offset (t.lexeme.toList ++ rest)
      (⟨t.kind, t.lexeme, ⟨offset, offset + t.lexeme.length⟩⟩ :: ts) := by
  obtain ⟨c, w, hlexeme, hscan⟩ := h
  have hstring : t.lexeme = String.ofList (c :: w) := by rw [← hlexeme, String.ofList_toList]
  rw [hstring, String.length_ofList] at hrest ⊢
  have hcut : Cut (offset + (c :: (w ++ rest).take w.length).length) ((w ++ rest).drop w.length)
      ts := by
    rwa [List.take_left, List.drop_left]
  have hcons := Cut.cons hscan hcut
  rw [List.take_left] at hcons
  rwa [String.toList_ofList]

theorem significant_cons {t : Token} {ts : List Token} (ht : t.isTrivia = false)
    (hend : t.isEnd = false) : significant (t :: ts) = t :: significant ts := by
  simp [significant, ht, hend]

theorem significant_cons_trivia {t : Token} {ts : List Token} (ht : t.isTrivia = true) :
    significant (t :: ts) = significant ts := by
  simp [significant, ht]

/-- Wherever the characters stand, the significant tokens that they are cut into are these. -/
def Yields (cs : List Char) (ts : List Token) : Prop :=
  ∀ offset, ∃ us, Cut offset cs us ∧ Same (significant us) ts

namespace Yields

theorem nil : Yields [] [] := fun offset => ⟨[endOfInput offset], .nil offset, rfl⟩

theorem token {t : Token} {rest : List Char} {ts : List Token} (hscans : Scans t rest)
    (ht : t.isTrivia = false) (h : Yields rest ts) :
    Yields (t.lexeme.toList ++ rest) (t :: ts) := by
  intro offset
  obtain ⟨us, hcut, hus⟩ := h (offset + t.lexeme.length)
  refine ⟨_, .token hscans hcut, ?_⟩
  have hfirst : ∀ s : Span, significant (⟨t.kind, t.lexeme, s⟩ :: us) =
      ⟨t.kind, t.lexeme, s⟩ :: significant us := fun _ => significant_cons ht hscans.isEnd
  rw [hfirst]
  exact .cons rfl hus

theorem space {rest : List Char} {ts : List Token} (hrest : ∀ c ∈ rest.head?, isBlank c = false)
    (h : Yields rest ts) : Yields (' ' :: rest) ts := by
  intro offset
  obtain ⟨us, hcut, hus⟩ := h (offset + 1)
  have hrun : runLength isBlank rest = 0 := runLength_append (w := []) (by simp) hrest
  have hscan : scan ' ' rest = (.blank, 0) := by
    show (Kind.blank, runLength isBlank rest) = (.blank, 0)
    rw [hrun]
  exact ⟨_, .cons hscan hcut, hus⟩

end Yields

/-- What is significant does not begin with a blank. -/
theorem Scans.head {t : Token} {rest : List Char} (h : Scans t rest) (ht : t.isTrivia = false)
    (more : List Char) : ∀ c ∈ (t.lexeme.toList ++ more).head?, isBlank c = false := by
  obtain ⟨c, w, hlexeme, hscan⟩ := h
  intro d hd
  rw [hlexeme] at hd
  cases hd
  cases hblank : isBlank c with
  | false => rfl
  | true =>
    simp only [scan, hblank, if_true] at hscan
    obtain ⟨hkind, -⟩ := Prod.mk.inj hscan
    simp [isTrivia, ← hkind, Kind.isTrivia] at ht

namespace Legible

theorem head {ts : List Token} (h : Legible ts) : ∀ c ∈ (spell ts).head?, isBlank c = false := by
  have hcons : ∀ (t : Token) (ts : List Token),
      ∃ more, spell (t :: ts) = t.lexeme.toList ++ more := by
    intro t ts
    cases ts with
    | nil => exact ⟨[], (List.append_nil _).symm⟩
    | cons u ts => exact ⟨_, rfl⟩
  cases h with
  | nil => intro c hc; cases hc
  | @cons t ts ht _ =>
    obtain ⟨more, hmore⟩ := hcons t ts
    rw [hmore]
    exact (ht.stands [] .nil).head ht.significant more
  | @text t close ts hkind hscans _ _ _ _ =>
    obtain ⟨more, hmore⟩ := hcons t (close :: ts)
    rw [hmore]
    exact (hscans []).head (by rw [isTrivia, hkind]; rfl) more

/-- Cutting written tokens gives them back. -/
theorem yields {ts : List Token} (h : Legible ts) : Yields (spell ts) ts := by
  induction h with
  | nil => exact .nil
  | @cons t ts ht hts ih =>
    cases ts with
    | nil =>
      have hone := Yields.token (ht.stands [] .nil) ht.significant .nil
      rwa [List.append_nil] at hone
    | cons u ts =>
      rw [spell, if_neg ht.kind, List.singleton_append]
      exact .token (ht.stands _ (.space _)) ht.significant (.space hts.head ih)
  | @text t close ts hkind hscans _ _ hclose _ ih =>
    have hparenthesis : ∃ more, spell (close :: ts) = ')' :: more := by
      cases ts with
      | nil => exact ⟨[], by rw [spell, hclose]; rfl⟩
      | cons u ts => exact ⟨_, by rw [spell, hclose]; rfl⟩
    obtain ⟨more, hmore⟩ := hparenthesis
    rw [spell, if_pos hkind, List.nil_append]
    refine .token ?_ (by rw [isTrivia, hkind]; rfl) ih
    rw [hmore]
    exact hscans more

end Legible

/-- There is one way to cut a text. -/
theorem Cut.unique {offset : Nat} {cs : List Char} {ts : List Token} (h : Cut offset cs ts) :
    ∀ {us}, Cut offset cs us → us = ts := by
  induction h with
  | nil offset =>
    intro us hus
    cases hus
    rfl
  | cons hscan _ ih =>
    intro us hus
    cases hus with
    | cons hscan' hrest' =>
      cases hscan.symm.trans hscan'
      rw [ih hrest']

/-- The significant tokens of written tokens are those tokens, places apart. -/
theorem tokenize_spell {ts : List Token} (h : Legible ts) :
    Spanned.bare (significant (tokenize (String.ofList (spell ts)))) = ts := by
  obtain ⟨us, hcut, hus⟩ := h.yields 0
  have htokens := tokenize_cut (String.ofList (spell ts))
  rw [String.toList_ofList, normalize_of_no_return h.no_return] at htokens
  rw [← hcut.unique htokens] at hus
  rw [hus, h.bare_eq]

/-! ## Names and texts of a source -/

theorem tokenize_no_return {source : String} {t : Token} (ht : t ∈ tokenize source) :
    '\r' ∉ t.lexeme.toList := by
  intro hreturn
  apply (normalize_unified source.toList).no_return
  rw [← (tokenize_tiles source).lexemes]
  exact List.mem_flatMap.2 ⟨t, ht, hreturn⟩

/-- A name or text that can be written again. -/
structure Reusable (t : Token) : Prop where
  name : t.kind = .identifier → isWord .identifier t.lexeme.toList = true
  text : t.kind = .text → ∀ rest, Scans t (')' :: rest)
  no_return : '\r' ∉ t.lexeme.toList

theorem Reusable.bare {t : Token} (h : Reusable t) : Reusable (Spanned.bare t) := ⟨h.1, h.2, h.3⟩

/-- The names and texts of a source can be written again, unless it ends in a text: that
    may be open. -/
theorem tokenize_reusable {source : String}
    (hlast : ∀ t, (significant (tokenize source)).getLast? = some t → t.kind ≠ .text) :
    ∀ t ∈ significant (tokenize source), Reusable t := by
  intro t ht
  have hcut := tokenize_cut source
  obtain ⟨body, hbody, hinner⟩ := (tokenize_tiles source).ends
  have hsignificant : significant (tokenize source) = body.filter (!·.isTrivia) := by
    rw [hbody, Cursor.significant_concat_end body rfl,
      Cursor.significant_of_inner (fun t ht => (hinner t ht).2)]
  rw [hsignificant] at ht hlast
  obtain ⟨hmem, htrivia⟩ := List.mem_filter.1 ht
  obtain ⟨rest, hscans, hopen⟩ :=
    hcut.scans t (by rw [hbody]; exact List.mem_append_left _ hmem) (hinner t hmem).2
  obtain ⟨c, w, hlexeme, hscan⟩ := hscans
  refine ⟨fun hkind => ?_, fun hkind rest' => ?_,
    tokenize_no_return (by rw [hbody]; exact List.mem_append_left _ hmem)⟩
  · rw [hkind] at hscan
    rw [hlexeme]
    exact isWord_of_identifier hscan
  · have hrest : rest ≠ [] := by
      intro hnil
      obtain ⟨before, stop, hend⟩ := hopen hnil
      -- A text up to the end of the source would be the last significant token.
      have hinit : body = before ++ [t] := by
        have hsplit : before ++ [t, endOfInput stop] = (before ++ [t]) ++ [endOfInput stop] := by
          simp
        rw [hbody, hsplit] at hend
        exact (List.append_inj_left' hend rfl)
      refine hlast t ?_ hkind
      rw [hinit, List.filter_append, List.filter_cons, if_pos htrivia, List.filter_nil,
        List.getLast?_concat]
    rw [hkind] at hscan
    exact ⟨c, w, hlexeme, by rw [hkind]; exact scan_text_parenthesis hscan hrest rest'⟩

end Bello.Token
