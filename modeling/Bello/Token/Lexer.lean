import Bello.Text
import Bello.Token.Basic

/- Cutting a source into tokens.

   Every text can be cut: what cannot be a token of the language becomes a malformed or a
   delimiter token, and it is left to the grammar to refuse it. The lexer goes over the
   characters of the source with one position. Each of its routines begins at the first
   character of a token, moves the position to where the token ends and makes the token of
   what it moved over. All of them move the position (`Reads`), and so the loop over all
   tokens comes to an end. -/
namespace Bello

namespace Text

def isAlphanumeric (c : Char) : Bool := isAlphabetic c || isNumeric c

/-- Characters that can go on a word. -/
def isWordChar (c : Char) : Bool := isAlphanumeric c || c == '_' || c == '-'

end Text

namespace Token

/-- The kind of a word without a bang. -/
def wordKind (word : String) : Kind :=
  match Keyword.ofWord? word with
  | some k => .keyword k
  | none =>
    match Operator.ofWord? word with
    | some o => .operator o
    | none => .identifier

/-- Characters that end a run of symbols. -/
def endsSymbols (c : Char) : Bool :=
  Text.isAlphanumeric c || Text.isBlank c || c == '(' || c == ')' || c == '_'

end Token

/-- The characters of a source with its line endings normalized, where the current token
    starts, and how far it is read. -/
structure Lexer where
  source : Array Char
  start : Nat
  pos : Nat
  start_le : start ≤ pos
  pos_le : pos ≤ source.size

namespace Lexer

open Text Token

def ofSource (source : String) : Lexer :=
  ⟨(normalize source.toList).toArray, 0, 0, Nat.le_refl 0, Nat.zero_le _⟩

/-! ## Moving -/

/-- The current character. -/
def peek (l : Lexer) : Option Char := l.source[l.pos]?

/-- The character after the current one. -/
def peekNext (l : Lexer) : Option Char := l.source[l.pos + 1]?

def isAtEnd (l : Lexer) : Bool := l.source.size ≤ l.pos

/-- How many characters are left. -/
def left (l : Lexer) : Nat := l.source.size - l.pos

/-- Moves over the current character, if there is one. -/
def advance (l : Lexer) : Lexer :=
  if h : l.pos < l.source.size then
    { l with pos := l.pos + 1, start_le := Nat.le_succ_of_le l.start_le, pos_le := h }
  else l

theorem pos_lt_of_peek {l : Lexer} {c : Char} (h : l.peek = some c) : l.pos < l.source.size :=
  (Array.getElem?_eq_some_iff.1 h).1

theorem pos_lt_of_any {l : Lexer} {p : Char → Bool} (h : l.peek.any p = true) :
    l.pos < l.source.size := by
  cases hc : l.peek with
  | none =>
    rw [hc] at h
    cases h
  | some c => exact pos_lt_of_peek hc

theorem pos_lt_of_not_isAtEnd {l : Lexer} (h : ¬ l.isAtEnd = true) : l.pos < l.source.size := by
  simpa [isAtEnd] using h

theorem left_advance_lt {l : Lexer} (h : l.pos < l.source.size) : l.advance.left < l.left := by
  rw [advance, dif_pos h]
  show l.source.size - (l.pos + 1) < l.source.size - l.pos
  omega

/-- Moves on while the characters satisfy `p`. -/
def advanceWhile (p : Char → Bool) (l : Lexer) : Lexer :=
  if l.peek.any p then advanceWhile p l.advance else l
termination_by l.left
decreasing_by exact left_advance_lt (pos_lt_of_any ‹_›)

/-- Whether a comment starts here. -/
def isCommentStart (l : Lexer) : Bool :=
  l.peek == some '/' && (l.peekNext == some '/' || l.peekNext == some '*')

/-! ## Making tokens -/

def lexeme (l : Lexer) : String := String.ofList (l.source.extract l.start l.pos).toList

/-- The token from the start to the current position. -/
def makeToken (l : Lexer) (kind : Kind) : Token := ⟨kind, l.lexeme, ⟨l.start, l.pos⟩⟩

/-- A token that ends here, and the lexer there. -/
def emit (l : Lexer) (kind : Kind) : Token × Lexer := (l.makeToken kind, l)

/-! ## The routines -/

def readBlank (l : Lexer) : Token × Lexer := (l.advanceWhile isBlank).emit .blank

def readLineComment (l : Lexer) : Token × Lexer := (l.advanceWhile (· != '\n')).emit .comment

/-- Moves behind the end of a block comment, or to the end of the source. -/
def toCommentEnd (l : Lexer) : Lexer :=
  if l.isAtEnd then l
  else if l.peek = some '*' ∧ l.peekNext = some '/' then l.advance.advance
  else l.advance.toCommentEnd
termination_by l.left
decreasing_by exact left_advance_lt (pos_lt_of_not_isAtEnd ‹_›)

def readBlockComment (l : Lexer) : Token × Lexer := l.advance.advance.toCommentEnd.emit .comment

/-- A keyword, an operator or a name. A bang belongs to the word only if it makes a
    keyword. -/
def readWord (l : Lexer) : Token × Lexer :=
  let l := l.advanceWhile isWordChar
  match if l.peek = some '!' then Keyword.ofWord? (l.lexeme ++ "!") else none with
  | some k => l.advance.emit (.keyword k)
  | none => l.emit (wordKind l.lexeme)

/-- Moves over a minus, if there is one. -/
def overSign (l : Lexer) : Lexer := if l.peek = some '-' then l.advance else l

/-- Moves over a point and the digits after it, if there is a digit. -/
def overFraction (l : Lexer) : Lexer :=
  if l.peek = some '.' ∧ l.peekNext.any Char.isDigit then l.advance.advanceWhile Char.isDigit
  else l

/-- Digits, perhaps with a sign and a fraction. Letters right after them belong to the token
    and spoil it. -/
def readNumber (l : Lexer) : Token × Lexer :=
  let l := (l.overSign.advanceWhile Char.isDigit).overFraction
  if l.peek.any isAlphabetic then (l.advanceWhile isWordChar).emit .malformed
  else l.emit .number

/-- Moves behind the closing bang, or to the end of the source. Two bangs in a row do not
    close. -/
def toClosingBang (l : Lexer) : Lexer :=
  if l.isAtEnd then l
  else if l.peek = some '!' then
    if l.peekNext = some '!' then l.advance.advance.toClosingBang else l.advance
  else l.advance.toClosingBang
termination_by l.left
decreasing_by
  · rename_i hnext
    have hpos := pos_lt_of_not_isAtEnd ‹_›
    have hmore : l.pos + 1 < l.source.size := (Array.getElem?_eq_some_iff.1 hnext).1
    refine Nat.lt_trans (left_advance_lt ?_) (left_advance_lt hpos)
    rw [advance, dif_pos hpos]
    exact hmore
  · exact left_advance_lt (pos_lt_of_not_isAtEnd ‹_›)

/-- A text between bangs. Before a closing parenthesis a bang stands alone. -/
def readBangText (l : Lexer) : Token × Lexer :=
  let l := l.advance
  if l.peek = some ')' then l.emit .text else l.toClosingBang.emit .text

/-- Moves behind the closing quote, or to the end of the source. -/
def toClosingQuote (l : Lexer) : Lexer :=
  if l.isAtEnd then l
  else if l.peek = some '"' then l.advance
  else l.advance.toClosingQuote
termination_by l.left
decreasing_by exact left_advance_lt (pos_lt_of_not_isAtEnd ‹_›)

def readQuotedText (l : Lexer) : Token × Lexer := l.advance.toClosingQuote.emit .text

/-- Moves over the rest of a run of symbols. -/
def overSymbols (l : Lexer) : Lexer :=
  if l.isAtEnd then l
  else if l.peek.any endsSymbols || l.isCommentStart then l
  else l.advance.overSymbols
termination_by l.left
decreasing_by exact left_advance_lt (pos_lt_of_not_isAtEnd ‹_›)

/-- A parenthesis, or a run of symbols. -/
def readDelimiter (l : Lexer) : Token × Lexer :=
  if l.peek = some '(' ∨ l.peek = some ')' then l.advance.emit .delimiter
  else l.advance.overSymbols.emit .delimiter

/-- The lexer with a token starting at the current position. -/
def begin (l : Lexer) : Lexer := { l with start := l.pos, start_le := Nat.le_refl l.pos }

/-- The routine for a token that starts with `c`, the current character. -/
def readFrom (c : Char) (l : Lexer) : Token × Lexer :=
  if isBlank c then l.readBlank
  else if c = '/' ∧ l.peekNext = some '/' then l.readLineComment
  else if c = '/' ∧ l.peekNext = some '*' then l.readBlockComment
  else if isAlphabetic c || c == '_' then l.readWord
  else if c.isDigit || (c == '-' && l.peekNext.any Char.isDigit) then l.readNumber
  else if c = '!' then l.readBangText
  else if c = '"' then l.readQuotedText
  else l.readDelimiter

/-- The next token, and the lexer behind it. -/
def nextToken (l : Lexer) : Token × Lexer :=
  match l.peek with
  | none => (endOfInput l.pos, l.begin)
  | some c => l.begin.readFrom c

/-! ## Every routine moves on -/

/-- The second lexer is the first one, perhaps further on in the same token. -/
structure Ahead (l l' : Lexer) : Prop where
  source : l'.source = l.source
  start : l'.start = l.start
  pos : l.pos ≤ l'.pos

namespace Ahead

variable {l l' l'' : Lexer}

theorem rfl' : l.Ahead l := ⟨rfl, rfl, Nat.le_refl _⟩

theorem trans (h : l.Ahead l') (h' : l'.Ahead l'') : l.Ahead l'' :=
  ⟨h'.source.trans h.source, h'.start.trans h.start, Nat.le_trans h.pos h'.pos⟩

theorem advance (l : Lexer) : l.Ahead l.advance := by
  unfold Lexer.advance
  split
  · exact ⟨rfl, rfl, Nat.le_succ _⟩
  · exact rfl'

theorem advanceWhile (p : Char → Bool) (l : Lexer) : l.Ahead (l.advanceWhile p) := by
  fun_induction Lexer.advanceWhile p l with
  | case1 l _ ih => exact (advance l).trans ih
  | case2 => exact rfl'

theorem toCommentEnd (l : Lexer) : l.Ahead l.toCommentEnd := by
  fun_induction Lexer.toCommentEnd l with
  | case1 => exact rfl'
  | case2 l => exact (advance l).trans (advance l.advance)
  | case3 l _ _ ih => exact (advance l).trans ih

theorem overSign (l : Lexer) : l.Ahead l.overSign := by
  unfold Lexer.overSign
  split
  · exact advance l
  · exact rfl'

theorem overFraction (l : Lexer) : l.Ahead l.overFraction := by
  unfold Lexer.overFraction
  split
  · exact (advance l).trans (advanceWhile _ _)
  · exact rfl'

theorem toClosingBang (l : Lexer) : l.Ahead l.toClosingBang := by
  fun_induction Lexer.toClosingBang l with
  | case1 => exact rfl'
  | case2 l _ _ _ ih => exact (advance l).trans ((advance l.advance).trans ih)
  | case3 l => exact advance l
  | case4 l _ _ ih => exact (advance l).trans ih

theorem toClosingQuote (l : Lexer) : l.Ahead l.toClosingQuote := by
  fun_induction Lexer.toClosingQuote l with
  | case1 => exact rfl'
  | case2 l => exact advance l
  | case3 l _ _ ih => exact (advance l).trans ih

theorem overSymbols (l : Lexer) : l.Ahead l.overSymbols := by
  fun_induction Lexer.overSymbols l with
  | case1 | case2 => exact rfl'
  | case3 l _ _ ih => exact (advance l).trans ih

end Ahead

/-- What a routine that began at `l` gives: it moved on, and its token, which is no end, is
    made of what it moved over. -/
structure Reads (l : Lexer) (r : Token × Lexer) : Prop where
  ahead : l.Ahead r.2
  progress : l.pos < r.2.pos
  token : ∃ kind, kind ≠ .endOfInput ∧ r.1 = r.2.makeToken kind

section Progress

variable {l l' : Lexer} {c : Char}

theorem Reads.emit (h : l.Ahead l') (hpos : l.pos < l'.pos) {kind : Kind}
    (hkind : kind ≠ .endOfInput) : l.Reads (l'.emit kind) :=
  ⟨h, hpos, kind, hkind, rfl⟩

theorem pos_advance (h : l.peek = some c) : l.advance.pos = l.pos + 1 := by
  rw [advance, dif_pos (pos_lt_of_peek h)]

/-- A routine that first takes a character moves on, wherever it goes from there. -/
theorem Reads.first (h : l.peek = some c) (hahead : l.advance.Ahead l') {kind : Kind}
    (hkind : kind ≠ .endOfInput) : l.Reads (l'.emit kind) := by
  refine .emit ((Ahead.advance l).trans hahead) ?_ hkind
  have hpos := hahead.pos
  rw [pos_advance h] at hpos
  exact hpos

/-- A run moves on if it has a first character. -/
theorem pos_lt_advanceWhile {p : Char → Bool} (h : l.peek = some c) (hc : p c = true) :
    l.pos < (l.advanceWhile p).pos := by
  rw [advanceWhile, if_pos (by rw [h]; exact hc)]
  have hpos := (Ahead.advanceWhile p l.advance).pos
  rw [pos_advance h] at hpos
  exact hpos

theorem readBlank_reads (h : l.peek = some c) (hc : isBlank c = true) : l.Reads l.readBlank :=
  .emit (.advanceWhile _ _) (pos_lt_advanceWhile h hc) (by decide)

theorem readLineComment_reads (h : l.peek = some '/') : l.Reads l.readLineComment :=
  .emit (.advanceWhile _ _) (pos_lt_advanceWhile h (by decide)) (by decide)

theorem readBlockComment_reads (h : l.peek = some c) : l.Reads l.readBlockComment :=
  .first h ((Ahead.advance _).trans (.toCommentEnd _)) (by decide)

theorem wordKind_ne_endOfInput (word : String) : wordKind word ≠ .endOfInput := by
  intro h
  unfold wordKind at h
  split at h
  · cases h
  · split at h
    · cases h
    · cases h

/-- Letters and the underscore go on a word too, so a word has its first character. -/
theorem isWordChar_of_first (h : (isAlphabetic c || c == '_') = true) : isWordChar c = true := by
  rw [Bool.or_eq_true] at h
  rcases h with h | h
  · simp [isWordChar, isAlphanumeric, h]
  · simp [isWordChar, h]

theorem readWord_reads (h : l.peek = some c) (hc : (isAlphabetic c || c == '_') = true) :
    l.Reads l.readWord := by
  have hrun := Ahead.advanceWhile isWordChar l
  have hpos := pos_lt_advanceWhile h (isWordChar_of_first hc)
  unfold readWord
  simp only
  split
  · refine .emit (hrun.trans (.advance _)) ?_ (by simp)
    exact Nat.lt_of_lt_of_le hpos (Ahead.advance _).pos
  · exact .emit hrun hpos (wordKind_ne_endOfInput _)

/-- The first digit, or the sign before it, is taken. -/
theorem readNumber_reads (h : l.peek = some c)
    (hc : (c.isDigit || (c == '-' && l.peekNext.any Char.isDigit)) = true) :
    l.Reads l.readNumber := by
  have hdigits : l.pos < (l.overSign.advanceWhile Char.isDigit).pos := by
    by_cases hsign : c = '-'
    · rw [overSign, if_pos (by rw [h, hsign])]
      have hpos := (Ahead.advanceWhile Char.isDigit l.advance).pos
      rw [pos_advance h] at hpos
      exact hpos
    · have hdigit : c.isDigit = true := by simpa [hsign] using hc
      rw [overSign, if_neg (by rw [h]; simpa using hsign)]
      exact pos_lt_advanceWhile h hdigit
  have hnumeral : l.Ahead (l.overSign.advanceWhile Char.isDigit).overFraction :=
    (Ahead.overSign l).trans ((Ahead.advanceWhile _ _).trans (.overFraction _))
  have hpos := Nat.lt_of_lt_of_le hdigits (Ahead.overFraction _).pos
  unfold readNumber
  simp only
  split
  · exact .emit (hnumeral.trans (.advanceWhile _ _))
      (Nat.lt_of_lt_of_le hpos (Ahead.advanceWhile _ _).pos) (by decide)
  · exact .emit hnumeral hpos (by decide)

theorem readBangText_reads (h : l.peek = some c) : l.Reads l.readBangText := by
  unfold readBangText
  simp only
  split
  · exact .first h .rfl' (by decide)
  · exact .first h (.toClosingBang _) (by decide)

theorem readQuotedText_reads (h : l.peek = some c) : l.Reads l.readQuotedText :=
  .first h (.toClosingQuote _) (by decide)

theorem readDelimiter_reads (h : l.peek = some c) : l.Reads l.readDelimiter := by
  unfold readDelimiter
  split
  · exact .first h .rfl' (by decide)
  · exact .first h (.overSymbols _) (by decide)

theorem readFrom_reads (h : l.peek = some c) : l.Reads (l.readFrom c) := by
  unfold readFrom
  split
  · next hc => exact readBlank_reads h hc
  split
  · next hc => exact readLineComment_reads (by rw [h, hc.1])
  split
  · exact readBlockComment_reads h
  split
  · next hc => exact readWord_reads h hc
  split
  · next hc => exact readNumber_reads h hc
  split
  · exact readBangText_reads h
  split
  · exact readQuotedText_reads h
  · exact readDelimiter_reads h

/-- All that a call can do: at the end it stays, elsewhere it reads a token. -/
theorem nextToken_cases (l : Lexer) :
    (l.peek = none ∧ l.nextToken = (endOfInput l.pos, l.begin)) ∨ l.begin.Reads l.nextToken := by
  unfold nextToken
  cases h : l.peek with
  | none => exact .inl ⟨rfl, rfl⟩
  | some c => exact .inr (readFrom_reads h)

theorem left_nextToken_lt (h : l.nextToken.1.isEnd = false) : l.nextToken.2.left < l.left := by
  rcases nextToken_cases l with ⟨-, e⟩ | hreads
  · rw [e] at h
    cases h
  · have hpos : l.pos < l.nextToken.2.pos := hreads.progress
    have hbound : l.nextToken.2.pos ≤ l.source.size := hreads.ahead.source ▸ l.nextToken.2.pos_le
    rw [left, left, hreads.ahead.source]
    show l.source.size - _ < _
    omega

end Progress

/-! ## All tokens -/

/-- The tokens from here on, up to the first end, behind those that are there already. -/
def collect (tokens : Array Token) (l : Lexer) : Array Token :=
  if l.nextToken.1.isEnd then tokens.push l.nextToken.1
  else collect (tokens.push l.nextToken.1) l.nextToken.2
termination_by l.left
decreasing_by exact left_nextToken_lt (eq_false_of_ne_true ‹_›)

end Lexer

/-- The tokens of a source, trivia and the closing token included. -/
def Token.tokenize (source : String) : List Token :=
  (Lexer.collect #[] (Lexer.ofSource source)).toList

end Bello
