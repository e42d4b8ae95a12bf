import Bello.Proofs.Token.Spelling

/- A token is what its lexeme says, wherever it stands.

   The first two characters of a token decide its class (`Opening.of`), the class how far it
   goes and of what kind it is. Each class looks a little beyond the lexeme, to see where that
   ends. `Scans.elsewhere` says that none of this matters once the lexeme is cut out: if
   nothing follows it, or a space or a line feed that it would not take in, it is cut off
   as the same token. So a lexeme by itself is one token of its kind (`tokenize_lexeme`), and
   the kind can be read off the lexeme, for words from the tables of words. -/
namespace Bello.Token

open Text

/-! ## Classes of tokens -/

/-- The ways in which a token can begin. -/
inductive Opening where
  | blank
  | line
  | block
  | word
  | number
  | bang
  | quote
  | parenthesis
  | symbols

namespace Opening

/-- The class of a token by its first character and the one after it. -/
def of (c : Char) (next : Option Char) : Opening :=
  if isBlank c then .blank
  else if c = '/' ∧ next = some '/' then .line
  else if c = '/' ∧ next = some '*' then .block
  else if isAlphabetic c || c == '_' then .word
  else if c.isDigit || (c == '-' && next.any Char.isDigit) then .number
  else if c = '!' then .bang
  else if c = '"' then .quote
  else if c = '(' ∨ c = ')' then .parenthesis
  else .symbols

/-- The kind of a token of a class, and how far it goes after its first character. -/
def extent (c : Char) (cs : List Char) : Opening → Kind × Nat
  | .blank => (.blank, runLength isBlank cs)
  | .line => (.comment, runLength (· != '\n') cs)
  | .block => (.comment, blockCommentLength 1 (cs.drop 1))
  | .word => scanWord c cs
  | .number => scanNumber cs
  | .bang => (.text, if cs.head? = some ')' then 0 else bangTextLength 0 cs)
  | .quote => (.text, quotedTextLength 0 cs)
  | .parenthesis => (.delimiter, 0)
  | .symbols => (.delimiter, symbolsLength 0 cs)

/-- The second character takes part in the choice of the class. -/
def LooksAhead (c : Char) (next : Option Char) : Prop :=
  (c = '/' ∧ (next = some '/' ∨ next = some '*')) ∨ (c = '-' ∧ next.any Char.isDigit = true)

/-- Otherwise the first one is enough. -/
theorem of_congr {c : Char} {next next' : Option Char} (h : ¬ LooksAhead c next)
    (h' : ¬ LooksAhead c next') : of c next' = of c next := by
  have hcomment : ∀ {n : Option Char}, ¬ LooksAhead c n →
      ¬ (c = '/' ∧ n = some '/') ∧ ¬ (c = '/' ∧ n = some '*') ∧
        (c == '-' && n.any Char.isDigit) = false := by
    intro n hn
    refine ⟨fun hl => hn (.inl ⟨hl.1, .inl hl.2⟩), fun hb => hn (.inl ⟨hb.1, .inr hb.2⟩), ?_⟩
    rw [Bool.eq_false_iff]
    intro hm
    rw [Bool.and_eq_true, beq_iff_eq] at hm
    exact hn (.inr hm)
  obtain ⟨hline, hblock, hminus⟩ := hcomment h
  obtain ⟨hline', hblock', hminus'⟩ := hcomment h'
  simp only [of, hline, hblock, hminus, hline', hblock', hminus']

end Opening

theorem scan_eq_extent (c : Char) (cs : List Char) :
    scan c cs = (Opening.of c cs.head?).extent c cs := by
  unfold scan Opening.of
  iterate 8
    split
    · rfl
  rfl

theorem le_blockCommentLength (n : Nat) (cs : List Char) : n ≤ blockCommentLength n cs := by
  fun_induction blockCommentLength n cs with
  | case1 n => exact Nat.le_refl n
  | case2 n cs => omega
  | case3 n c cs _ ih => omega

/-- A second character that takes part in the choice belongs to the token. -/
theorem Opening.LooksAhead.taken {c : Char} {cs : List Char} (h : LooksAhead c cs.head?) :
    0 < (scan c cs).2 := by
  rcases h with ⟨rfl, hnext⟩ | ⟨rfl, hdigit⟩
  · rcases hnext with hnext | hnext
    · obtain ⟨rest, rfl⟩ := List.head?_eq_some_iff.1 hnext
      show 0 < runLength (· != '\n') ('/' :: rest)
      simp [runLength]
    · obtain ⟨rest, rfl⟩ := List.head?_eq_some_iff.1 hnext
      exact le_blockCommentLength 1 rest
  · rw [scan_of_minus hdigit]
    cases cs with
    | nil => cases hdigit
    | cons d cs =>
      have hd : d.isDigit = true := hdigit
      have hnumeral : 0 < numeralLength (d :: cs) := by
        simp only [numeralLength, runLength, List.takeWhile_cons, hd, if_true, List.length_cons]
        omega
      rcases scanNumber_cases (d :: cs) with ⟨hscan, -⟩ | ⟨_, _, -, -, hscan⟩
      · rw [hscan]
        exact hnumeral
      · rw [hscan]
        exact Nat.lt_of_lt_of_le hnumeral (Nat.le_add_right _ _)

theorem Clear.not_looksAhead {rest : List Char} (h : Clear rest) (c : Char) :
    ¬ Opening.LooksAhead c rest.head? := by
  rintro (⟨-, hnext | hnext⟩ | ⟨-, hdigit⟩)
  · rcases h _ hnext with h | h <;> cases h
  · rcases h _ hnext with h | h <;> cases h
  · cases rest with
    | nil => cases hdigit
    | cons d rest =>
      have hnone := h.head (p := Char.isDigit) (by decide) (by decide) d rfl
      rw [List.head?_cons, Option.any_some, hnone] at hdigit
      cases hdigit

/-- The class of a token stays the same when something clear follows in place of `rest`. -/
theorem Opening.of_elsewhere {c : Char} {w rest rest' : List Char}
    (h : (scan c (w ++ rest)).2 = w.length) (hclear : Clear rest') :
    Opening.of c (w ++ rest').head? = Opening.of c (w ++ rest).head? := by
  cases w with
  | cons d w => rfl
  | nil =>
    refine of_congr (fun hlooks => ?_) (hclear.not_looksAhead c)
    have htaken := hlooks.taken
    rw [h] at htaken
    exact Nat.lt_irrefl 0 htaken

/-! ## How far each class goes -/

theorem runLength_elsewhere {p : Char → Bool} {w rest rest' : List Char}
    (h : runLength p (w ++ rest) = w.length) (hrest' : ∀ c ∈ rest'.head?, p c = false) :
    runLength p (w ++ rest') = w.length :=
  runLength_append (all_of_runLength h) hrest'

/-- A comment is closed within its characters, or open to the end. -/
theorem blockCommentLength_alone {rest : List Char} : ∀ (w : List Char) (n : Nat),
    blockCommentLength n (w ++ rest) = n + w.length → blockCommentLength n w = n + w.length := by
  intro w n h
  generalize hcs : w ++ rest = cs at h
  fun_induction blockCommentLength n cs generalizing w with
  | case1 n =>
    rw [(List.append_eq_nil_iff.1 hcs).1]
    rfl
  | case2 n cs =>
    have hlength : w.length = 2 := by omega
    obtain ⟨a, w, rfl⟩ := List.exists_cons_of_length_eq_add_one hlength
    obtain ⟨b, rfl⟩ := List.length_eq_one_iff.1 (Nat.succ.inj hlength)
    cases hcs
    rfl
  | case3 n c cs hclose ih =>
    cases w with
    | nil => rfl
    | cons a w =>
      obtain ⟨rfl, rfl⟩ := List.cons.inj hcs
      have hstep : blockCommentLength n (a :: w) = blockCommentLength (n + 1) w := by
        rw [blockCommentLength]
        intro tail ha hw
        exact hclose (tail ++ rest) ha (by rw [hw]; rfl)
      rw [hstep, ih w rfl (by simp only [List.length_cons] at h; omega), List.length_cons]
      omega

theorem startsComment_cons (c : Char) (cs : List Char) :
    startsComment (c :: cs) = true ↔ c = '/' ∧ (cs.head? = some '/' ∨ cs.head? = some '*') := by
  cases cs with
  | nil => simp [startsComment]
  | cons d cs =>
    by_cases hc : c = '/'
    · subst hc
      by_cases hslash : d = '/'
      · simp [startsComment, hslash]
      · by_cases hstar : d = '*'
        · simp [startsComment, hstar]
        · simp [startsComment, hslash, hstar]
    · simp [startsComment, hc]

/-- Symbols go on to something that is none. -/
theorem symbolsLength_elsewhere {rest rest' : List Char} (hclear : Clear rest') :
    ∀ (w : List Char) (n : Nat), symbolsLength n (w ++ rest) = n + w.length →
      symbolsLength n (w ++ rest') = n + w.length := by
  intro w
  induction w with
  | nil =>
    intro n _
    cases rest' with
    | nil => rfl
    | cons c rest' =>
      have hends : endsSymbols c = true := by
        rcases hclear c rfl with rfl | rfl
        · decide
        · decide
      simp [symbolsLength, hends]
  | cons c w ih =>
    intro n h
    have hle := symbolsLength_le n (c :: w ++ rest)
    rw [List.cons_append, symbolsLength] at h
    split at h
    · rw [List.length_cons] at h
      omega
    · next hgoes =>
      rw [Bool.or_eq_true, not_or] at hgoes
      have hcomment : ¬ startsComment (c :: (w ++ rest')) = true := by
        intro hcomment
        rw [startsComment_cons] at hcomment
        cases w with
        | nil => exact hclear.not_looksAhead c (.inl hcomment)
        | cons d w => exact hgoes.2 ((startsComment_cons c _).2 hcomment)
      have hlength := ih (n + 1) (by rw [h, List.length_cons]; omega)
      rw [List.cons_append, symbolsLength, if_neg (by simp [hgoes.1, hcomment]), hlength,
        List.length_cons]
      omega

/-! ## Words and numbers -/

/-- A word is a keyword with its bang, or it ends where no word goes on. -/
theorem scanWord_cases {c : Char} {w rest : List Char} {kind : Kind}
    (h : scanWord c (w ++ rest) = (kind, w.length)) :
    (∃ v k, w = v ++ ['!'] ∧ kind = .keyword k ∧ (∀ d ∈ v, isWordChar d = true) ∧
      Keyword.ofWord? (String.ofList (c :: v) ++ "!") = some k) ∨
    ((∀ d ∈ w, isWordChar d = true) ∧ kind = wordKind (String.ofList (c :: w))) := by
  unfold scanWord at h
  simp only at h
  generalize hn : runLength isWordChar (w ++ rest) = n at h
  have hle : n ≤ (w ++ rest).length := hn ▸ runLength_le isWordChar (w ++ rest)
  split at h
  · next k hbang hk =>
    obtain ⟨hkind, hlength⟩ := Prod.mk.inj h
    obtain ⟨more, hmore⟩ := List.head?_eq_some_iff.1 hbang
    -- The characters of the word, then the bang, then what follows.
    have hv : ((w ++ rest).take n).length = n := by
      rw [List.length_take, Nat.min_eq_left hle]
    have hsplit : w ++ rest = ((w ++ rest).take n ++ ['!']) ++ more := by
      rw [List.append_assoc, List.singleton_append, ← hmore, List.take_append_drop]
    have hw : w = (w ++ rest).take n ++ ['!'] := by
      refine (List.append_inj hsplit ?_).1
      rw [List.length_append, hv, ← hlength]
      rfl
    have hrun : runLength isWordChar ((w ++ rest).take n ++ '!' :: more) =
        ((w ++ rest).take n).length := by
      rw [← hmore, List.take_append_drop, hn, hv]
    exact .inl ⟨(w ++ rest).take n, k, hw, hkind.symm, all_of_runLength hrun, hk⟩
  · obtain ⟨hkind, hlength⟩ := Prod.mk.inj h
    subst hlength
    rw [List.take_left] at hkind
    exact .inr ⟨all_of_runLength hn, hkind.symm⟩

theorem scanWord_elsewhere {c : Char} {w rest rest' : List Char} {kind : Kind}
    (h : scanWord c (w ++ rest) = (kind, w.length)) (hclear : Clear rest') :
    scanWord c (w ++ rest') = (kind, w.length) := by
  rcases scanWord_cases h with ⟨v, k, rfl, rfl, hv, hk⟩ | ⟨hw, rfl⟩
  · rw [List.append_assoc, List.singleton_append, scanWord_bang rest' hv hk, List.length_append]
    rfl
  · apply scanWord_plain hw (hclear.head (by decide) (by decide))
    intro hbang
    rcases hclear '!' hbang with h | h <;> cases h

theorem isFraction_of_length {fs rest : List Char}
    (h : fractionLength (fs ++ rest) = fs.length) : IsFraction fs := by
  match fs with
  | [] => exact .inl rfl
  | [a] =>
    unfold fractionLength at h
    split at h
    · split at h <;> simp only [List.length_singleton] at h <;> omega
    · simp at h
  | a :: b :: gs =>
    unfold fractionLength at h
    split at h
    · next c cs hcs =>
      simp only [List.cons_append, List.cons.injEq] at hcs
      obtain ⟨rfl, rfl, rfl⟩ := hcs
      split at h
      · next hb =>
        have hrun : runLength Char.isDigit (gs ++ rest) = gs.length := by
          simp only [List.length_cons] at h
          omega
        have hgs := all_of_runLength hrun
        refine .inr ⟨b, gs, rfl, ?_⟩
        intro d hd
        rcases List.mem_cons.1 hd with rfl | hd
        · exact hb
        · exact hgs d hd
      · simp at h
    · simp at h

/-- What makes up the digits of a number. -/
theorem numeral_of_length {u rest : List Char} (h : numeralLength (u ++ rest) = u.length) :
    ∃ ds fs, u = ds ++ fs ∧ (∀ c ∈ ds, c.isDigit = true) ∧ IsFraction fs := by
  unfold numeralLength at h
  generalize hk : runLength Char.isDigit (u ++ rest) = k at h
  have hsplit : u ++ rest = u.take k ++ (u.drop k ++ rest) := by
    rw [← List.append_assoc, List.take_append_drop]
  have hlength : (u.take k).length = k := by
    rw [List.length_take]
    omega
  have hdrop : (u ++ rest).drop k = u.drop k ++ rest := by
    rw [hsplit, List.drop_append, hlength]
    simp
  have hdigits : runLength Char.isDigit (u.take k ++ (u.drop k ++ rest)) = (u.take k).length := by
    rw [← hsplit, hk, hlength]
  have hfraction : fractionLength (u.drop k ++ rest) = (u.drop k).length := by
    rw [hdrop] at h
    rw [List.length_drop]
    omega
  exact ⟨u.take k, u.drop k, (List.take_append_drop k u).symm, all_of_runLength hdigits,
    isFraction_of_length hfraction⟩

theorem numeralLength_elsewhere {u rest rest' : List Char}
    (h : numeralLength (u ++ rest) = u.length)
    (hrest' : ∀ c ∈ rest'.head?, c.isDigit = false ∧ c ≠ '.') :
    numeralLength (u ++ rest') = u.length := by
  obtain ⟨ds, fs, rfl, hds, hfs⟩ := numeral_of_length h
  rw [List.append_assoc]
  exact numeralLength_append hds hfs hrest'

/-- A letter is neither a digit nor a point, and it can go on with a word. -/
theorem letter_class {c : Char} (h : isAlphabetic c = true) :
    (c.isDigit = false ∧ c ≠ '.') ∧ isWordChar c = true := by
  refine ⟨⟨?_, ?_⟩, by simp [isWordChar, isAlphanumeric, h]⟩
  · rw [Bool.eq_false_iff]
    intro hdigit
    have hdigits : ['0', '1', '2', '3', '4', '5', '6', '7', '8', '9'].all
        (fun c => !isAlphabetic c) = true := by decide
    have hc := List.all_eq_true.1 hdigits c (digit_cases hdigit)
    rw [h] at hc
    cases hc
  · rintro rfl
    revert h
    decide

/-- A number is its digits, or it is spoiled by a letter and the word that this begins. -/
theorem scanNumber_shape {w rest : List Char} {kind : Kind}
    (h : scanNumber (w ++ rest) = (kind, w.length)) :
    (kind = .number ∧ numeralLength (w ++ rest) = w.length) ∨
    ∃ u a v, w = u ++ a :: v ∧ kind = .malformed ∧ isAlphabetic a = true ∧
      numeralLength (u ++ (a :: v ++ rest)) = u.length ∧ ∀ c ∈ a :: v, isWordChar c = true := by
  rcases scanNumber_cases (w ++ rest) with ⟨hscan, -⟩ | ⟨a, more, hmore, ha, hscan⟩
  · rw [hscan] at h
    obtain ⟨rfl, hlength⟩ := Prod.mk.inj h
    exact .inl ⟨rfl, hlength⟩
  · rw [hscan] at h
    obtain ⟨rfl, hlength⟩ := Prod.mk.inj h
    generalize hn : numeralLength (w ++ rest) = n at hmore hlength
    have hrun : 0 < runLength isWordChar (a :: more) := by
      simp [runLength, (letter_class ha).2]
    have hu : (w.take n).length = n := by
      rw [List.length_take]
      omega
    have hafter : w.drop n ++ rest = a :: more := by
      rw [← hmore, List.drop_append_of_le_length (by omega)]
    have hword : runLength isWordChar (w.drop n ++ rest) = (w.drop n).length := by
      rw [hafter, List.length_drop]
      omega
    cases hdrop : w.drop n with
    | nil =>
      rw [hafter, hdrop, List.length_nil] at hword
      omega
    | cons b v =>
      rw [hdrop] at hafter hword
      have hb : b = a := (List.cons.inj hafter).1
      subst hb
      have hw : w = w.take n ++ b :: v := by rw [← hdrop, List.take_append_drop]
      refine .inr ⟨w.take n, b, v, hw, rfl, ha, ?_, all_of_runLength hword⟩
      rw [← List.append_assoc, ← hw, hn, hu]

/-- A letter after the digits of a number spoils it. -/
theorem scanNumber_malformed {u v rest : List Char} {a : Char}
    (hu : numeralLength (u ++ (a :: v ++ rest)) = u.length) (ha : isAlphabetic a = true)
    (hv : ∀ c ∈ a :: v, isWordChar c = true) (hr : ∀ c ∈ rest.head?, isWordChar c = false) :
    scanNumber (u ++ (a :: v ++ rest)) = (.malformed, (u ++ a :: v).length) := by
  rcases scanNumber_cases (u ++ (a :: v ++ rest)) with ⟨-, hnone⟩ | ⟨b, more, hmore, -, hscan⟩
  · rw [hu, List.drop_left] at hnone
    have hletter := hnone a rfl
    rw [ha] at hletter
    cases hletter
  · rw [hu, List.drop_left] at hmore
    rw [hscan, hu, ← hmore, runLength_append hv hr, List.length_append]

theorem scanNumber_elsewhere {w rest rest' : List Char} {kind : Kind}
    (h : scanNumber (w ++ rest) = (kind, w.length)) (hclear : Clear rest') :
    scanNumber (w ++ rest') = (kind, w.length) := by
  rcases scanNumber_shape h with ⟨rfl, hlength⟩ | ⟨u, a, v, rfl, rfl, ha, hu, hv⟩
  · obtain ⟨ds, fs, rfl, hds, hfs⟩ := numeral_of_length hlength
    rw [List.append_assoc]
    exact scanNumber_digits hds hfs hclear
  · have hletter : ∀ c ∈ (a :: v ++ rest').head?, c.isDigit = false ∧ c ≠ '.' := by
      intro c hc
      cases hc
      exact (letter_class ha).1
    rw [List.append_assoc]
    exact scanNumber_malformed (numeralLength_elsewhere hu hletter) ha hv
      (hclear.head (by decide) (by decide))

/-! ## Elsewhere -/

/-- A text that is closed, and not a bang alone, takes in nothing that is clear. -/
theorem scan_text_elsewhere {c : Char} {w rest rest' : List Char}
    (h : scan c (w ++ rest) = (.text, w.length))
    (hfollows : rest' = [] ∨ Clear rest' ∧ rest ≠ [] ∧ c :: w ≠ ['!']) :
    scan c (w ++ rest') = (.text, w.length) := by
  by_cases hrest : rest = []
  · rcases hfollows with hnil | ⟨-, hne, -⟩
    · rw [hnil, ← hrest]
      exact h
    · exact absurd hrest hne
  · rcases scan_text h with rfl | rfl
    · cases w with
      | nil =>
        rcases hfollows with rfl | ⟨-, -, hlone⟩
        · rfl
        · exact absurd rfl hlone
      | cons a w =>
        refine scan_bang_closed hrest ?_ h
        intro hbang
        rcases hfollows with rfl | ⟨hclear, -, -⟩
        · cases hbang
        · rcases hclear '!' hbang with h | h <;> cases h
    · exact scan_quote_closed rest' hrest h

theorem Opening.extent_elsewhere {o : Opening} {c : Char} {w rest rest' : List Char} {kind : Kind}
    (h : o.extent c (w ++ rest) = (kind, w.length)) (htext : kind ≠ .text) (hclear : Clear rest')
    (hfollows : rest' = [] ∨ kind.isTrivia = false) :
    o.extent c (w ++ rest') = (kind, w.length) := by
  cases o with
  | word => exact scanWord_elsewhere h hclear
  | number => exact scanNumber_elsewhere h hclear
  | parenthesis => exact h
  | symbols =>
    obtain ⟨rfl, hlength⟩ := Prod.mk.inj h
    have hsymbols := symbolsLength_elsewhere hclear w 0 (by rw [hlength, Nat.zero_add])
    rw [extent, hsymbols, Nat.zero_add]
  | bang => exact absurd (Prod.mk.inj h).1.symm htext
  | quote => exact absurd (Prod.mk.inj h).1.symm htext
  | blank =>
    obtain ⟨rfl, hlength⟩ := Prod.mk.inj h
    rcases hfollows with rfl | htrivia
    · rw [extent, runLength_elsewhere hlength (by simp)]
    · cases htrivia
  | line =>
    obtain ⟨rfl, hlength⟩ := Prod.mk.inj h
    rcases hfollows with rfl | htrivia
    · rw [extent, runLength_elsewhere hlength (by simp)]
    · cases htrivia
  | block =>
    obtain ⟨rfl, hlength⟩ := Prod.mk.inj h
    rcases hfollows with rfl | htrivia
    · cases w with
      | nil =>
        have hone := le_blockCommentLength 1 (([] ++ rest).drop 1)
        rw [hlength, List.length_nil] at hone
        omega
      | cons d w =>
        have hblock : blockCommentLength 1 (w ++ rest) = 1 + w.length := by
          rw [Nat.add_comm]
          exact hlength
        rw [List.append_nil, extent, List.drop_one, List.tail_cons,
          blockCommentLength_alone w 1 hblock, List.length_cons, Nat.add_comm]
    · cases htrivia

/-- What may follow a token in place of `rest`: nothing; or a space or a line feed, unless the
    token is trivia, or a text that goes on with them. -/
def MayFollow (t : Token) (rest rest' : List Char) : Prop :=
  rest' = [] ∨
    Clear rest' ∧ t.isTrivia = false ∧ (t.kind = .text → rest ≠ [] ∧ t.lexeme ≠ "!")

/-- A lexeme is cut off as the same token, whatever may follow it. -/
theorem Scans.elsewhere {t : Token} {rest rest' : List Char} (h : Scans t rest)
    (hfollows : MayFollow t rest rest') : Scans t rest' := by
  obtain ⟨c, w, hlexeme, hscan⟩ := h
  refine ⟨c, w, hlexeme, ?_⟩
  by_cases htext : t.kind = .text
  · rw [htext] at hscan ⊢
    apply scan_text_elsewhere hscan
    rcases hfollows with hnil | ⟨hclear, -, hclosed⟩
    · exact .inl hnil
    · obtain ⟨hrest, hlone⟩ := hclosed htext
      refine .inr ⟨hclear, hrest, fun hw => hlone ?_⟩
      rw [← String.toList_inj, hlexeme, hw]
      rfl
  · have hclear : Clear rest' := by
      rcases hfollows with rfl | ⟨hclear, -, -⟩
      · exact .nil
      · exact hclear
    have hclass := Opening.of_elsewhere (by rw [hscan]) hclear
    rw [scan_eq_extent] at hscan
    rw [scan_eq_extent, hclass]
    exact Opening.extent_elsewhere hscan htext hclear (hfollows.imp_right fun hf => hf.2.1)

/-! ## Lexemes by themselves -/

/-- A lexeme by itself is one token, the one that it was cut off as. -/
theorem Scans.tokenize_eq {t : Token} {rest : List Char} (h : Scans t rest)
    (hreturn : '\r' ∉ t.lexeme.toList) :
    tokenize t.lexeme =
      [⟨t.kind, t.lexeme, ⟨0, t.lexeme.length⟩⟩, endOfInput t.lexeme.length] := by
  have halone : Scans t [] := h.elsewhere (.inl rfl)
  have hcut : Cut 0 (t.lexeme.toList ++ []) _ := .token halone (.nil _)
  rw [List.append_nil, Nat.zero_add] at hcut
  have htokens := tokenize_cut t.lexeme
  rw [normalize_of_no_return hreturn] at htokens
  exact hcut.unique htokens

theorem tokenize_lexeme {source : String} {t : Token} (ht : t ∈ tokenize source)
    (hend : t.kind ≠ .endOfInput) :
    tokenize t.lexeme =
      [⟨t.kind, t.lexeme, ⟨0, t.lexeme.length⟩⟩, endOfInput t.lexeme.length] := by
  obtain ⟨rest, hscans, -⟩ := (tokenize_cut source).scans t ht (by simpa [isEnd] using hend)
  exact hscans.tokenize_eq (tokenize_no_return ht)

/-- The kind of the first token of the lexeme is the kind of the token; so it is with the end
    of the input, which has no characters. -/
theorem kind_of_tokenize_lexeme {source : String} {t : Token} (ht : t ∈ tokenize source) :
    (tokenize t.lexeme).head?.map (·.kind) = some t.kind := by
  by_cases hend : t.kind = .endOfInput
  · obtain ⟨body, hbody, hinner⟩ := (tokenize_tiles source).ends
    rw [hbody] at ht
    rcases List.mem_append.1 ht with hmem | hlast
    · have hnot := (hinner t hmem).2
      simp [isEnd, hend] at hnot
    · rw [List.mem_singleton.1 hlast]
      show (tokenize "").head?.map (·.kind) = some .endOfInput
      decide +kernel
  · rw [tokenize_lexeme ht hend]
    rfl

/-! ## The tables of words -/

theorem keyword_of_wordKind {word : String} {k : Keyword} (h : wordKind word = .keyword k) :
    Keyword.ofWord? word = some k := by
  unfold wordKind at h
  split at h
  · next k' hk =>
    cases h
    exact hk
  · split at h <;> cases h

theorem operator_of_wordKind {word : String} {o : Operator} (h : wordKind word = .operator o) :
    Operator.ofWord? word = some o := by
  unfold wordKind at h
  split at h
  · cases h
  · split at h
    · next o' ho =>
      cases h
      exact ho
    · cases h

/-- Keywords and operators are scanned as words. -/
theorem scanWord_of_scan {c : Char} {cs : List Char} {kind : Kind} {n : Nat}
    (h : scan c cs = (kind, n))
    (hkind : (∃ k, kind = .keyword k) ∨ ∃ o, kind = .operator o) :
    scanWord c cs = (kind, n) := by
  have hscanned := scan_scanned c cs
  rw [h] at hscanned
  cases hscanned with
  | word _ _ e => exact e.symm
  | number _ e =>
    rcases scanNumber_kind cs with hn | hn <;> rw [← e] at hn <;> cases hn <;>
      rcases hkind with ⟨k, hk⟩ | ⟨o, ho⟩ <;> contradiction
  | blank _ e | line _ _ e | block _ _ e | bang _ e | quote _ e | parenthesis _ e | symbols e =>
    cases e
    rcases hkind with ⟨k, hk⟩ | ⟨o, ho⟩ <;> contradiction

theorem Scans.keyword {t : Token} {rest : List Char} {k : Keyword} (h : Scans t rest)
    (hk : t.kind = .keyword k) : Keyword.ofWord? t.lexeme = some k := by
  obtain ⟨c, w, hlexeme, hscan⟩ := h
  have hstring : t.lexeme = String.ofList (c :: w) := by rw [← hlexeme, String.ofList_toList]
  rw [hk] at hscan
  rcases scanWord_cases (scanWord_of_scan hscan (.inl ⟨k, rfl⟩)) with
    ⟨v, k', rfl, hkind, -, hword⟩ | ⟨-, hkind⟩
  · cases hkind
    have hbang : String.ofList (c :: (v ++ ['!'])) = String.ofList (c :: v) ++ "!" := by
      rw [← String.toList_inj, String.toList_append]
      simp
    rw [hstring, hbang]
    exact hword
  · rw [hstring]
    exact keyword_of_wordKind hkind.symm

theorem Scans.operator {t : Token} {rest : List Char} {o : Operator} (h : Scans t rest)
    (ho : t.kind = .operator o) : Operator.ofWord? t.lexeme = some o := by
  obtain ⟨c, w, hlexeme, hscan⟩ := h
  have hstring : t.lexeme = String.ofList (c :: w) := by rw [← hlexeme, String.ofList_toList]
  rw [ho] at hscan
  rcases scanWord_cases (scanWord_of_scan hscan (.inr ⟨o, rfl⟩)) with
    ⟨v, k', -, hkind, -, -⟩ | ⟨-, hkind⟩
  · cases hkind
  · rw [hstring]
    exact operator_of_wordKind hkind.symm

/-- What is found in a table is there. -/
theorem mem_of_lookup {α β : Type} [BEq α] [LawfulBEq α] {a : α} {b : β} {table : List (α × β)}
    (h : table.lookup a = some b) : (a, b) ∈ table := by
  obtain ⟨before, after, htable, -⟩ := List.lookup_eq_some_iff.1 h
  rw [htable]
  simp

theorem tokenize_keyword {word : String} {k : Keyword} (h : (word, k) ∈ Keyword.table) :
    (tokenize word).head?.map (·.kind) = some (.keyword k) := by
  have hall : Keyword.table.all (fun p =>
      (tokenize p.1).head?.map (·.kind) == some (.keyword p.2)) = true := by decide +kernel
  simpa using List.all_eq_true.1 hall (word, k) h

theorem tokenize_operator {word : String} {o : Operator} (h : (word, o) ∈ Operator.table) :
    (tokenize word).head?.map (·.kind) = some (.operator o) := by
  have hall : Operator.table.all (fun p =>
      (tokenize p.1).head?.map (·.kind) == some (.operator p.2)) = true := by decide +kernel
  simpa using List.all_eq_true.1 hall (word, o) h

/-- **The lexeme of a token says what it is.** By itself it is one token of the same kind, so
    tokens of any two sources with the same lexeme are of the same kind; and the keywords and
    the operators are the words of their tables. -/
theorem lexeme_decides_kind (source : String) (t : Token) (ht : t ∈ tokenize source) :
    (t.kind ≠ .endOfInput →
      tokenize t.lexeme =
        [⟨t.kind, t.lexeme, ⟨0, t.lexeme.length⟩⟩, endOfInput t.lexeme.length]) ∧
    (∀ (source' : String) (u : Token), u ∈ tokenize source' → u.lexeme = t.lexeme →
      u.kind = t.kind) ∧
    (∀ k, t.kind = .keyword k ↔ (t.lexeme, k) ∈ Keyword.table) ∧
    (∀ o, t.kind = .operator o ↔ (t.lexeme, o) ∈ Operator.table) := by
  have hkind := kind_of_tokenize_lexeme ht
  have hscans : t.kind ≠ .endOfInput → ∃ rest, Scans t rest := by
    intro hend
    obtain ⟨rest, hscans, -⟩ := (tokenize_cut source).scans t ht (by simpa [isEnd] using hend)
    exact ⟨rest, hscans⟩
  refine ⟨tokenize_lexeme ht, fun source' u hu hlexeme => ?_, fun k => ⟨fun hk => ?_, fun hk => ?_⟩,
    fun o => ⟨fun ho => ?_, fun ho => ?_⟩⟩
  · have hkind' := kind_of_tokenize_lexeme hu
    rw [hlexeme, hkind] at hkind'
    exact (Option.some.inj hkind').symm
  · obtain ⟨rest, hscan⟩ := hscans (by rw [hk]; simp)
    exact mem_of_lookup (hscan.keyword hk)
  · rw [tokenize_keyword hk] at hkind
    exact (Option.some.inj hkind).symm
  · obtain ⟨rest, hscan⟩ := hscans (by rw [ho]; simp)
    exact mem_of_lookup (hscan.operator ho)
  · rw [tokenize_operator ho] at hkind
    exact (Option.some.inj hkind).symm

/-- Of `no-5!)` the bang is a text, which it is only before a parenthesis and at the end. -/
theorem lexeme_decides_kind_lone_bang :
    (⟨.text, "!", ⟨4, 5⟩⟩ : Token) ∈ tokenize "no-5!)" ∧
      tokenize "!" = [⟨.text, "!", ⟨0, 1⟩⟩, endOfInput 1] := by
  have ht : (⟨.text, "!", ⟨4, 5⟩⟩ : Token) ∈ tokenize "no-5!)" := by decide +kernel
  exact ⟨ht, (lexeme_decides_kind "no-5!)" _ ht).1 (by decide)⟩

end Bello.Token
