import Bello.Token.Lexer

/- Going over tokens, passing over trivia.

   A stream is a position among all tokens of a sequence: to look at the next token it moves
   over the trivia before it, and to tell where the last token taken ended it searches
   backwards. A cursor has the tokens before it only and remembers that end; looking does not
   move it. They give the same answers. Once the closing token is reached both stay there, so
   that token can be looked at and taken any number of times. -/
namespace Bello

/-! ## Streams -/

/-- The tokens of a sequence, trivia and the closing token included, and a position. -/
structure TokenStream where
  tokens : Array Token
  pos : Nat
  pos_lt : pos < tokens.size

namespace TokenStream

/-- The sequence with a closing token, which is added at `stop` if there is none at its
    end. -/
def close (tokens : List Token) (stop : Nat) : List Token :=
  if tokens.getLast?.any Token.isEnd then tokens else tokens ++ [.endOfInput stop]

theorem close_ne_nil (tokens : List Token) (stop : Nat) : close tokens stop ≠ [] := by
  unfold close
  split
  · rintro rfl
    contradiction
  · simp

/-- A stream at the start of a sequence. -/
def ofTokens (tokens : List Token) (stop : Nat) : TokenStream :=
  ⟨(close tokens stop).toArray, 0, List.length_pos_iff.2 (close_ne_nil tokens stop)⟩

/-- A stream at the start of a source. -/
def ofSource (source : String) : TokenStream :=
  let tokens := Token.tokenize source
  ofTokens tokens ((tokens.getLast?.map (·.span.stop)).getD 0)

/-- The token at the position. -/
def current (s : TokenStream) : Token :=
  have h := s.pos_lt
  s.tokens[s.pos]

/-- Moves to the next token, but not beyond the last one. -/
def step (s : TokenStream) : TokenStream :=
  if h : s.pos + 1 < s.tokens.size then { s with pos := s.pos + 1, pos_lt := h } else s

/-- Moves over trivia, but not beyond the last token. -/
def skipTrivia (s : TokenStream) : TokenStream :=
  if s.pos + 1 < s.tokens.size ∧ s.current.isTrivia then s.step.skipTrivia else s
termination_by s.tokens.size - s.pos
decreasing_by
  rename_i h
  rw [step, dif_pos h.1]
  show s.tokens.size - (s.pos + 1) < s.tokens.size - s.pos
  omega

/-- The next significant token. -/
def peek (s : TokenStream) : Token × TokenStream :=
  let s := s.skipTrivia
  (s.current, s)

/-- The first significant token from the index `i` on, at the latest that at `last`. -/
def firstFrom (tokens : Array Token) (last : Nat) (hlast : last < tokens.size) (i : Nat)
    (hi : i ≤ last) : Token :=
  if h : i < last ∧ tokens[i].isTrivia then firstFrom tokens last hlast (i + 1) h.1
  else tokens[i]
termination_by last - i

/-- The significant token after the next one. -/
def peekSecond (s : TokenStream) : Token × TokenStream :=
  let s := s.skipTrivia
  let last := s.tokens.size - 1
  have hlast : last < s.tokens.size := Nat.sub_one_lt_of_lt s.pos_lt
  (firstFrom s.tokens last hlast (min (s.pos + 1) last) (Nat.min_le_right ..), s)

/-- Takes the next significant token. -/
def advance (s : TokenStream) : Token × TokenStream :=
  let s := s.skipTrivia
  (s.current, s.step)

/-- Where the last of the tokens ends that is significant, or zero. -/
def lastStop (tokens : List Token) : Nat :=
  ((tokens.reverse.find? (!·.isTrivia)).map (·.span.stop)).getD 0

/-- Where the last significant token before the position ends. -/
def previousStop (s : TokenStream) : Nat := lastStop (s.tokens.extract 0 s.pos).toList

def isAtEnd (s : TokenStream) : Bool × TokenStream := (s.peek.1.isEnd, s.peek.2)

end TokenStream

/-! ## Cursors -/

/-- What is left of a token sequence: the tokens before the closing one, trivia
    included, the closing one, and where the last token taken ended. -/
structure Cursor where
  pending : List Token
  final : Token
  previousStop : Nat
deriving DecidableEq

namespace Cursor

/-- A cursor at the start of a sequence. A closing token is added at `stop` if the
    sequence has none. -/
def ofTokens (tokens : List Token) (stop : Nat) : Cursor :=
  match tokens.getLast? with
  | some last =>
    if last.isEnd then ⟨tokens.dropLast, last, 0⟩ else ⟨tokens, .endOfInput stop, 0⟩
  | none => ⟨[], .endOfInput stop, 0⟩

/-- A cursor at the start of a source. -/
def ofSource (source : String) : Cursor :=
  let tokens := Token.tokenize source
  ofTokens tokens ((tokens.getLast?.map (·.span.stop)).getD 0)

/-- The tokens from the next significant one on. -/
def upcoming (c : Cursor) : List Token := c.pending.dropWhile Token.isTrivia

/-- The next significant token. -/
def peek (c : Cursor) : Token := c.upcoming.head?.getD c.final

/-- The significant token after the next one. -/
def peekSecond (c : Cursor) : Token :=
  ((c.upcoming.drop 1).dropWhile Token.isTrivia).head?.getD c.final

/-- Takes the next significant token. -/
def advance (c : Cursor) : Token × Cursor :=
  match c.upcoming with
  | [] => (c.final, { c with pending := [] })
  | t :: rest => (t, { c with pending := rest, previousStop := t.span.stop })

def isAtEnd (c : Cursor) : Bool := c.peek.isEnd

end Cursor

end Bello
