import Bello.Proofs.Token.Lossless

/- How far tokens go.

   `scan` says of a token's first character and the characters after it which kind the token is
   of and how many of these characters belong to it, without a position that moves. It is
   what the lexer does: each of its movements goes as far as the matching length says, and so
   do its routines (`readFrom_extends`). `Cut offset cs ts` follows the cutting of the characters
   `cs` token by token, each as long as `scan` says; the tokens of a source are such a cut of
   its normalized text (`tokenize_cut`). -/
namespace Bello

namespace Text

/-- How many characters at the front satisfy `p`. -/
def runLength (p : Char → Bool) (cs : List Char) : Nat := (cs.takeWhile p).length

end Text

namespace Token

open Text

/-! ## How far a token goes

The functions of this section get the text after the opening characters of a token. -/

/-- Up to and with the end of a block comment; `n` characters are behind. -/
def blockCommentLength (n : Nat) : List Char → Nat
  | [] => n
  | '*' :: '/' :: _ => n + 2
  | _ :: cs => blockCommentLength (n + 1) cs

/-- Up to and with the closing bang. Two bangs in a row do not close. -/
def bangTextLength (n : Nat) : List Char → Nat
  | [] => n
  | '!' :: '!' :: cs => bangTextLength (n + 2) cs
  | '!' :: _ => n + 1
  | _ :: cs => bangTextLength (n + 1) cs

/-- Up to and with the closing quote. -/
def quotedTextLength (n : Nat) : List Char → Nat
  | [] => n
  | '"' :: _ => n + 1
  | _ :: cs => quotedTextLength (n + 1) cs

/-- Whether a comment starts here. -/
def startsComment : List Char → Bool
  | '/' :: '/' :: _ => true
  | '/' :: '*' :: _ => true
  | _ => false

/-- The rest of a run of symbols. -/
def symbolsLength (n : Nat) : List Char → Nat
  | [] => n
  | c :: cs => if endsSymbols c || startsComment (c :: cs) then n else symbolsLength (n + 1) cs

/-- A point and the digits after it, if there is a digit. -/
def fractionLength : List Char → Nat
  | '.' :: c :: cs => if c.isDigit then 2 + runLength Char.isDigit cs else 0
  | _ => 0

/-- The kind of a number and how far it goes after its first character. Letters right
    after the digits belong to the token and spoil it. -/
def scanNumber (cs : List Char) : Kind × Nat :=
  let whole := runLength Char.isDigit cs
  let digits := whole + fractionLength (cs.drop whole)
  match cs.drop digits with
  | c :: rest =>
    if isAlphabetic c then (.malformed, digits + runLength isWordChar (c :: rest))
    else (.number, digits)
  | [] => (.number, digits)

/-- The kind of a word that starts with `c` and how far it goes after that. A bang
    belongs to the word only if it makes a keyword. -/
def scanWord (c : Char) (cs : List Char) : Kind × Nat :=
  let n := runLength isWordChar cs
  let word := String.ofList (c :: cs.take n)
  match (cs.drop n).head?, Keyword.ofWord? (word ++ "!") with
  | some '!', some k => (.keyword k, n + 1)
  | _, _ => (wordKind word, n)

/-- The kind of the token that starts with `c`, and how many of the following characters
    belong to it. -/
def scan (c : Char) (cs : List Char) : Kind × Nat :=
  if isBlank c then (.blank, runLength isBlank cs)
  else if c = '/' ∧ cs.head? = some '/' then (.comment, runLength (· != '\n') cs)
  else if c = '/' ∧ cs.head? = some '*' then (.comment, blockCommentLength 1 (cs.drop 1))
  else if isAlphabetic c || c == '_' then scanWord c cs
  else if c.isDigit || (c == '-' && cs.head?.any Char.isDigit) then scanNumber cs
  else if c = '!' then (.text, if cs.head? = some ')' then 0 else bangTextLength 0 cs)
  else if c = '"' then (.text, quotedTextLength 0 cs)
  else if c = '(' ∨ c = ')' then (.delimiter, 0)
  else (.delimiter, symbolsLength 0 cs)

/-! ## The cut of a text -/

/-- `ts` are the tokens that the characters are cut into, from the given offset on. -/
inductive Cut : Nat → List Char → List Token → Prop where
  | nil (offset : Nat) : Cut offset [] [endOfInput offset]
  | cons {offset : Nat} {c : Char} {cs : List Char} {kind : Kind} {n : Nat} {ts : List Token} :
      scan c cs = (kind, n) →
      Cut (offset + (c :: cs.take n).length) (cs.drop n) ts →
      Cut offset (c :: cs)
        (⟨kind, String.ofList (c :: cs.take n),
          ⟨offset, offset + (c :: cs.take n).length⟩⟩ :: ts)

/-- The classes of tokens: what each begins with, and its kind and extent `r`. -/
inductive Scanned (c : Char) (cs : List Char) (r : Kind × Nat) : Prop where
  | blank : isBlank c = true → r = (.blank, runLength isBlank cs) → Scanned c cs r
  | line : c = '/' → cs.head? = some '/' → r = (.comment, runLength (· != '\n') cs) →
      Scanned c cs r
  | block : c = '/' → cs.head? = some '*' → r = (.comment, blockCommentLength 1 (cs.drop 1)) →
      Scanned c cs r
  | word : isBlank c = false → (isAlphabetic c || c == '_') = true → r = scanWord c cs →
      Scanned c cs r
  | number : (c.isDigit || (c == '-' && cs.head?.any Char.isDigit)) = true → r = scanNumber cs →
      Scanned c cs r
  | bang : c = '!' → r = (.text, if cs.head? = some ')' then 0 else bangTextLength 0 cs) →
      Scanned c cs r
  | quote : c = '"' → r = (.text, quotedTextLength 0 cs) → Scanned c cs r
  | parenthesis : c = '(' ∨ c = ')' → r = (.delimiter, 0) → Scanned c cs r
  | symbols : r = (.delimiter, symbolsLength 0 cs) → Scanned c cs r

theorem scan_scanned (c : Char) (cs : List Char) : Scanned c cs (scan c cs) := by
  unfold scan
  split
  · next hc => exact .blank hc rfl
  next hblank =>
  split
  · next hc => exact .line hc.1 hc.2 rfl
  split
  · next hc => exact .block hc.1 hc.2 rfl
  split
  · next hc => exact .word (by simpa using hblank) hc rfl
  split
  · next hc => exact .number hc rfl
  split
  · next hc => exact .bang hc rfl
  split
  · next hc => exact .quote hc rfl
  split
  · next hc => exact .parenthesis hc rfl
  · exact .symbols rfl

/-- A number is one, or spoiled. -/
theorem scanNumber_kind (cs : List Char) :
    (scanNumber cs).1 = .number ∨ (scanNumber cs).1 = .malformed := by
  unfold scanNumber
  simp only
  split
  · split
    · exact .inr rfl
    · exact .inl rfl
  · exact .inl rfl

/-- A word is a keyword, an operator or a name. -/
theorem scanWord_kind (c : Char) (cs : List Char) :
    (∃ k, (scanWord c cs).1 = .keyword k) ∨ (∃ o, (scanWord c cs).1 = .operator o) ∨
      (scanWord c cs).1 = .identifier := by
  unfold scanWord wordKind
  simp only
  split
  · exact .inl ⟨_, rfl⟩
  · split
    · exact .inl ⟨_, rfl⟩
    · split
      · exact .inr (.inl ⟨_, rfl⟩)
      · exact .inr (.inr rfl)

/-- Only the end of the text is an end. -/
theorem scan_ne_endOfInput (c : Char) (cs : List Char) : (scan c cs).1 ≠ .endOfInput := by
  intro hend
  cases scan_scanned c cs with
  | word _ _ e =>
    rw [e] at hend
    rcases scanWord_kind c cs with ⟨k, h⟩ | ⟨o, h⟩ | h <;> rw [h] at hend <;> cases hend
  | number _ e =>
    rw [e] at hend
    rcases scanNumber_kind cs with h | h <;> rw [h] at hend <;> cases hend
  | blank _ e | line _ _ e | block _ _ e | bang _ e | quote _ e | parenthesis _ e | symbols e =>
    rw [e] at hend
    cases hend

end Token

/-! ## How far the lexer moves -/

namespace Lexer

open Text Token

variable {l : Lexer} {c : Char} {cs : List Char}

theorem peek_of_rest (h : l.rest = c :: cs) : l.peek = some c := by
  rw [peek_eq, h]
  rfl

theorem peekNext_of_rest (h : l.rest = c :: cs) : l.peekNext = cs.head? := by
  have htail : l.source.toList.drop (l.pos + 1) = cs := by
    rw [← List.tail_drop]
    show l.rest.tail = cs
    rw [h]
    rfl
  rw [← htail, List.head?_drop, Array.getElem?_toList]
  rfl

theorem rest_advance (h : l.rest = c :: cs) : l.advance.rest = cs := by
  rw [(Ahead.advance l).rest (pos_advance (peek_of_rest h)), h]
  rfl

theorem exists_rest (h : ¬ l.isAtEnd = true) : ∃ c cs, l.rest = c :: cs := by
  have hpos := pos_lt_of_not_isAtEnd h
  exact ⟨_, _, List.drop_eq_getElem_cons (by rwa [Array.length_toList])⟩

theorem rest_of_isAtEnd (h : l.isAtEnd = true) : l.rest = [] := by
  rw [rest, List.drop_eq_nil_iff, Array.length_toList]
  simpa [isAtEnd] using h

theorem pos_advanceWhile (p : Char → Bool) (l : Lexer) :
    (l.advanceWhile p).pos = l.pos + runLength p l.rest := by
  fun_induction advanceWhile p l with
  | case1 l hany ih =>
    obtain ⟨c, cs, hrest⟩ : ∃ c cs, l.rest = c :: cs := by
      refine exists_rest fun hend => ?_
      rw [peek_eq, rest_of_isAtEnd hend] at hany
      cases hany
    have hc : p c = true := by rwa [peek_of_rest hrest] at hany
    rw [pos_advance (peek_of_rest hrest), rest_advance hrest] at ih
    rw [ih, hrest, runLength, runLength, List.takeWhile_cons_of_pos hc, List.length_cons]
    omega
  | case2 l hany =>
    cases hrest : l.rest with
    | nil => rfl
    | cons c cs =>
      rw [peek_of_rest hrest, Option.any_some] at hany
      rw [runLength, List.takeWhile_cons_of_neg hany]
      rfl

theorem pos_toCommentEnd (l : Lexer) : ∀ n,
    l.toCommentEnd.pos + n = l.pos + blockCommentLength n l.rest := by
  fun_induction toCommentEnd l with
  | case1 l hend =>
    intro n
    rw [rest_of_isAtEnd hend]
    rfl
  | case2 l hend hclose =>
    intro n
    obtain ⟨c, cs, hrest⟩ := exists_rest hend
    rw [peek_of_rest hrest, peekNext_of_rest hrest] at hclose
    obtain ⟨hc, hnext⟩ := hclose
    obtain ⟨more, rfl⟩ := List.head?_eq_some_iff.1 hnext
    cases hc
    rw [pos_advance (peek_of_rest (rest_advance hrest)), pos_advance (peek_of_rest hrest), hrest,
      blockCommentLength]
    omega
  | case3 l hend hclose ih =>
    intro n
    obtain ⟨c, cs, hrest⟩ := exists_rest hend
    have hmore := ih (n + 1)
    rw [pos_advance (peek_of_rest hrest), rest_advance hrest] at hmore
    rw [hrest, blockCommentLength]
    · omega
    · rintro more rfl rfl
      exact hclose ⟨peek_of_rest hrest, peekNext_of_rest hrest⟩

theorem pos_toClosingBang (l : Lexer) : ∀ n,
    l.toClosingBang.pos + n = l.pos + bangTextLength n l.rest := by
  fun_induction toClosingBang l with
  | case1 l hend =>
    intro n
    rw [rest_of_isAtEnd hend]
    rfl
  | case2 l hend hbang hnext ih =>
    intro n
    obtain ⟨c, cs, hrest⟩ := exists_rest hend
    rw [peek_of_rest hrest] at hbang
    rw [peekNext_of_rest hrest] at hnext
    obtain ⟨more, rfl⟩ := List.head?_eq_some_iff.1 hnext
    cases hbang
    have hmore := ih (n + 2)
    rw [pos_advance (peek_of_rest (rest_advance hrest)), pos_advance (peek_of_rest hrest),
      rest_advance (rest_advance hrest)] at hmore
    rw [hrest, bangTextLength]
    omega
  | case3 l hend hbang hnext =>
    intro n
    obtain ⟨c, cs, hrest⟩ := exists_rest hend
    rw [peek_of_rest hrest] at hbang
    rw [peekNext_of_rest hrest] at hnext
    cases hbang
    rw [pos_advance (peek_of_rest hrest), hrest, bangTextLength]
    · omega
    · rintro more rfl
      exact hnext rfl
  | case4 l hend hbang ih =>
    intro n
    obtain ⟨c, cs, hrest⟩ := exists_rest hend
    rw [peek_of_rest hrest] at hbang
    have hmore := ih (n + 1)
    rw [pos_advance (peek_of_rest hrest), rest_advance hrest] at hmore
    rw [hrest, bangTextLength]
    · omega
    · rintro more rfl rfl
      exact hbang rfl
    · rintro rfl
      exact hbang rfl

theorem pos_toClosingQuote (l : Lexer) : ∀ n,
    l.toClosingQuote.pos + n = l.pos + quotedTextLength n l.rest := by
  fun_induction toClosingQuote l with
  | case1 l hend =>
    intro n
    rw [rest_of_isAtEnd hend]
    rfl
  | case2 l hend hquote =>
    intro n
    obtain ⟨c, cs, hrest⟩ := exists_rest hend
    rw [peek_of_rest hrest] at hquote
    cases hquote
    rw [pos_advance (peek_of_rest hrest), hrest, quotedTextLength]
    omega
  | case3 l hend hquote ih =>
    intro n
    obtain ⟨c, cs, hrest⟩ := exists_rest hend
    rw [peek_of_rest hrest] at hquote
    have hmore := ih (n + 1)
    rw [pos_advance (peek_of_rest hrest), rest_advance hrest] at hmore
    rw [hrest, quotedTextLength]
    · omega
    · rintro rfl
      exact hquote rfl

theorem isCommentStart_eq (h : l.rest = c :: cs) : l.isCommentStart = startsComment (c :: cs) := by
  rw [isCommentStart, peek_of_rest h, peekNext_of_rest h]
  unfold startsComment
  split
  · next more hmore =>
    cases hmore
    rfl
  · next more hmore =>
    cases hmore
    rfl
  · next hline hblock =>
    cases cs with
    | nil => simp
    | cons d more =>
      by_cases hc : c = '/'
      · subst hc
        have hd : d ≠ '/' ∧ d ≠ '*' := by
          constructor
          · rintro rfl
            exact hline more rfl
          · rintro rfl
            exact hblock more rfl
        simp [hd]
      · simp [hc]

theorem pos_overSymbols (l : Lexer) : ∀ n,
    l.overSymbols.pos + n = l.pos + symbolsLength n l.rest := by
  fun_induction overSymbols l with
  | case1 l hend =>
    intro n
    rw [rest_of_isAtEnd hend]
    rfl
  | case2 l hend hstop =>
    intro n
    obtain ⟨c, cs, hrest⟩ := exists_rest hend
    rw [peek_of_rest hrest, Option.any_some, isCommentStart_eq hrest] at hstop
    rw [hrest, symbolsLength, if_pos hstop]
  | case3 l hend hstop ih =>
    intro n
    obtain ⟨c, cs, hrest⟩ := exists_rest hend
    rw [peek_of_rest hrest, Option.any_some, isCommentStart_eq hrest] at hstop
    have hmore := ih (n + 1)
    rw [pos_advance (peek_of_rest hrest), rest_advance hrest] at hmore
    rw [hrest, symbolsLength, if_neg hstop]
    omega

/-! ## How far its routines go -/

/-- The token is of the kind and has that many characters after its first one. -/
def Extends (l : Lexer) (r : Token × Lexer) (extent : Kind × Nat) : Prop :=
  r.1.kind = extent.1 ∧ r.2.pos = l.pos + (extent.2 + 1)

theorem runLength_cons {p : Char → Bool} (hc : p c = true) :
    runLength p (c :: cs) = runLength p cs + 1 := by
  rw [runLength, List.takeWhile_cons_of_pos hc]
  rfl

/-- A run that has the first character. -/
theorem run_extends {p : Char → Bool} (h : l.rest = c :: cs) (hc : p c = true) (kind : Kind) :
    l.Extends ((l.advanceWhile p).emit kind) (kind, runLength p cs) := by
  refine ⟨rfl, ?_⟩
  show (l.advanceWhile p).pos = _
  rw [pos_advanceWhile, h, runLength_cons hc]

theorem readBlockComment_extends (h : l.rest = '/' :: '*' :: cs) :
    l.Extends l.readBlockComment (.comment, blockCommentLength 1 cs) := by
  refine ⟨rfl, ?_⟩
  show l.advance.advance.toCommentEnd.pos = _
  have hmore := pos_toCommentEnd l.advance.advance 1
  rw [pos_advance (peek_of_rest (rest_advance h)), pos_advance (peek_of_rest h),
    rest_advance (rest_advance h)] at hmore
  omega

/-- The word so far is what the lexeme shows. -/
theorem readWord_extends (hstart : l.start = l.pos) (h : l.rest = c :: cs)
    (hc : (isAlphabetic c || c == '_') = true) : l.Extends l.readWord (scanWord c cs) := by
  have hpos : (l.advanceWhile isWordChar).pos = l.pos + (runLength isWordChar cs + 1) := by
    rw [pos_advanceWhile, h, runLength_cons (isWordChar_of_first hc)]
  have hrest : (l.advanceWhile isWordChar).rest = cs.drop (runLength isWordChar cs) := by
    rw [(Ahead.advanceWhile _ l).rest hpos, h]
    rfl
  have hlexeme : (l.advanceWhile isWordChar).lexeme =
      String.ofList (c :: cs.take (runLength isWordChar cs)) := by
    rw [(Ahead.advanceWhile _ l).lexeme hpos hstart, h]
    rfl
  unfold readWord scanWord
  simp only [hlexeme, peek_eq, hrest]
  by_cases hbang : (cs.drop (runLength isWordChar cs)).head? = some '!'
  · cases hk : Keyword.ofWord? (String.ofList (c :: cs.take (runLength isWordChar cs)) ++ "!") with
    | none =>
      simp only [hbang, if_true]
      exact ⟨rfl, hpos⟩
    | some k =>
      simp only [hbang, if_true]
      refine ⟨rfl, ?_⟩
      show (l.advanceWhile isWordChar).advance.pos = _
      rw [pos_advance (by rw [peek_eq, hrest, hbang]), hpos]
      rfl
  · simp only [hbang, if_false]
    split
    · next h _ => exact absurd h hbang
    · exact ⟨rfl, hpos⟩

theorem overSign_rest (h : l.rest = c :: cs)
    (hc : (c.isDigit || (c == '-' && l.peekNext.any Char.isDigit)) = true) :
    (l.overSign.advanceWhile Char.isDigit).pos = l.pos + (runLength Char.isDigit cs + 1) := by
  by_cases hsign : c = '-'
  · rw [overSign, if_pos (by rw [peek_of_rest h, hsign]), pos_advanceWhile, rest_advance h,
      pos_advance (peek_of_rest h)]
    omega
  · have hdigit : c.isDigit = true := by simpa [hsign] using hc
    rw [overSign, if_neg (by rw [peek_of_rest h]; simpa using hsign), pos_advanceWhile, h,
      runLength_cons hdigit]

theorem pos_overFraction (l : Lexer) : l.overFraction.pos = l.pos + fractionLength l.rest := by
  unfold overFraction
  split
  · next hpoint =>
    obtain ⟨hpeek, hnext⟩ := hpoint
    cases hrest : l.rest with
    | nil =>
      rw [peek_eq, hrest] at hpeek
      cases hpeek
    | cons c cs =>
      rw [peek_of_rest hrest] at hpeek
      rw [peekNext_of_rest hrest] at hnext
      cases hpeek
      cases cs with
      | nil => cases hnext
      | cons d more =>
        have hd : d.isDigit = true := hnext
        rw [pos_advanceWhile, rest_advance hrest, pos_advance (peek_of_rest hrest),
          runLength_cons hd, fractionLength, if_pos hd]
        omega
  · next hpoint =>
    unfold fractionLength
    split
    · next d more hrest =>
      rw [peek_of_rest hrest, peekNext_of_rest hrest, List.head?_cons, Option.any_some] at hpoint
      rw [if_neg fun hd => hpoint ⟨rfl, hd⟩]
      rfl
    · rfl

theorem readNumber_extends (h : l.rest = c :: cs)
    (hc : (c.isDigit || (c == '-' && l.peekNext.any Char.isDigit)) = true) :
    l.Extends l.readNumber (scanNumber cs) := by
  have hwhole := overSign_rest h hc
  have hahead : l.Ahead (l.overSign.advanceWhile Char.isDigit) :=
    (Ahead.overSign l).trans (.advanceWhile _ _)
  have hwholeRest := hahead.rest hwhole
  rw [h, List.drop_succ_cons] at hwholeRest
  have hpos := pos_overFraction (l.overSign.advanceWhile Char.isDigit)
  rw [hwhole, hwholeRest] at hpos
  have hrest := (hahead.trans (.overFraction _)).rest (hpos.trans (Nat.add_assoc ..))
  rw [h, Nat.add_right_comm, List.drop_succ_cons] at hrest
  have hnumeral : (l.overSign.advanceWhile Char.isDigit).overFraction.pos = l.pos +
      (runLength Char.isDigit cs + fractionLength (cs.drop (runLength Char.isDigit cs)) + 1) := by
    omega
  unfold readNumber scanNumber
  simp only [peek_eq, hrest]
  split
  · next hletter =>
    split
    · next d more hmore =>
      rw [hmore] at hletter hrest
      rw [List.head?_cons, Option.any_some] at hletter
      rw [if_pos hletter]
      refine ⟨rfl, ?_⟩
      show (Lexer.advanceWhile _ _).pos = _
      rw [pos_advanceWhile, hpos, hrest]
      show _ = _ + (_ + _ + 1)
      omega
    · next hmore =>
      rw [hmore] at hletter
      cases hletter
  · next hletter =>
    split
    · next d more hmore =>
      rw [hmore, List.head?_cons, Option.any_some] at hletter
      rw [if_neg hletter]
      exact ⟨rfl, hnumeral⟩
    · exact ⟨rfl, hnumeral⟩

theorem readBangText_extends (h : l.rest = c :: cs) :
    l.Extends l.readBangText (.text, if cs.head? = some ')' then 0 else bangTextLength 0 cs) := by
  have hpos := pos_advance (peek_of_rest h)
  unfold readBangText
  simp only [peek_eq, rest_advance h]
  split
  · exact ⟨rfl, hpos⟩
  · refine ⟨rfl, ?_⟩
    show l.advance.toClosingBang.pos = _
    have hmore := pos_toClosingBang l.advance 0
    rw [hpos, rest_advance h] at hmore
    omega

theorem readQuotedText_extends (h : l.rest = c :: cs) :
    l.Extends l.readQuotedText (.text, quotedTextLength 0 cs) := by
  refine ⟨rfl, ?_⟩
  show l.advance.toClosingQuote.pos = _
  have hmore := pos_toClosingQuote l.advance 0
  rw [pos_advance (peek_of_rest h), rest_advance h] at hmore
  omega

theorem readDelimiter_extends (h : l.rest = c :: cs) :
    l.Extends l.readDelimiter
      (if c = '(' ∨ c = ')' then (.delimiter, 0) else (.delimiter, symbolsLength 0 cs)) := by
  have hpos := pos_advance (peek_of_rest h)
  unfold readDelimiter
  simp only [peek_of_rest h, Option.some.injEq]
  split
  · exact ⟨rfl, hpos⟩
  · refine ⟨rfl, ?_⟩
    show l.advance.overSymbols.pos = _
    have hmore := pos_overSymbols l.advance 0
    rw [hpos, rest_advance h] at hmore
    omega

/-- A token goes as far as `scan` says. -/
theorem readFrom_extends (hstart : l.start = l.pos) (h : l.rest = c :: cs) :
    l.Extends (l.readFrom c) (scan c cs) := by
  unfold readFrom scan
  rw [peekNext_of_rest h]
  split
  · next hc => exact run_extends h hc .blank
  split
  · next hc =>
    exact run_extends h (by rw [hc.1]; decide) .comment
  split
  · next hc =>
    obtain ⟨rfl, hnext⟩ := hc
    obtain ⟨more, rfl⟩ := List.head?_eq_some_iff.1 hnext
    exact readBlockComment_extends h
  split
  · next hc => exact readWord_extends hstart h hc
  split
  · next hc => exact readNumber_extends h (by rwa [peekNext_of_rest h])
  split
  · exact readBangText_extends h
  split
  · exact readQuotedText_extends h
  · exact readDelimiter_extends h

/-- So the answers of the lexer are a cut. -/
theorem Lexed.cut {ts : List Token} (h : l.Lexed ts) : Cut l.pos l.rest ts := by
  induction h with
  | @last l hpeek =>
    rw [peek_eq, List.head?_eq_none_iff] at hpeek
    rw [hpeek]
    exact .nil l.pos
  | @call l ts hreads _ ih =>
    cases hrest : l.rest with
    | nil =>
      have hend : l.nextToken = (endOfInput l.pos, l.begin) := by rw [nextToken, peek_eq, hrest]; rfl
      have hprogress : l.pos < l.nextToken.2.pos := hreads.progress
      rw [hend] at hprogress
      exact absurd hprogress (Nat.lt_irrefl _)
    | cons c cs =>
      have hnext : l.nextToken = l.begin.readFrom c := by rw [nextToken, peek_of_rest hrest]
      have hextends := readFrom_extends (l := l.begin) rfl hrest
      rw [← hnext] at hextends
      obtain ⟨hkind, hpos⟩ := hextends
      have hleft : l.nextToken.2.rest = cs.drop (scan c cs).2 := by
        rw [hreads.ahead.rest hpos]
        show l.rest.drop _ = _
        rw [hrest, List.drop_succ_cons]
      have hlength := hreads.ahead.length_take hpos
      have htaken : l.begin.rest.take ((scan c cs).2 + 1) = c :: cs.take (scan c cs).2 := by
        show l.rest.take _ = _
        rw [hrest, List.take_succ_cons]
      have hlexeme := hreads.ahead.lexeme hpos rfl
      rw [htaken] at hlength hlexeme
      have hstop : l.nextToken.2.pos = l.pos + (c :: cs.take (scan c cs).2).length := by
        rw [hlength]
        exact hpos
      obtain ⟨kind, -, htoken⟩ := hreads.token
      have htoken' : l.nextToken.1 = ⟨(scan c cs).1, String.ofList (c :: cs.take (scan c cs).2),
          ⟨l.pos, l.pos + (c :: cs.take (scan c cs).2).length⟩⟩ := by
        rw [← hkind, ← hlexeme, ← hstop, htoken]
        show Token.mk _ _ ⟨l.nextToken.2.start, _⟩ = _
        rw [hreads.ahead.start]
        rfl
      rw [hleft, hstop] at ih
      rw [htoken']
      exact .cons rfl ih

end Lexer

theorem Token.tokenize_cut (source : String) :
    Cut 0 (Text.normalize source.toList) (tokenize source) := (tokenize_lexed source).cut

end Bello
