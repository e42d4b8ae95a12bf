import Bello.Decimal.Text
import Bello.Error
import Bello.Syntax.Basic
import Bello.Token.Cursor

/- Steps of reading a sequence of tokens.

   A step moves the cursor and yields a value or an error. After an error the cursor
   stays where it was, so reading can go on from there. -/
namespace Bello

/-- A step of reading. -/
abbrev Parse := EStateM Error Cursor

namespace Parse

/-- The deepest nesting of blocks, parentheses, operands of unary operators and operator
    chains in one program. -/
def maxNesting : Nat := 100

/-- The name of the one type. -/
def typeTag : String := "Papaya"

def fail {α : Type} (cause : Cause) (span : Span) : Parse α := throw (cause.at span)

/-- The next token, which stays where it is. -/
def peek : Parse Token := fun c => .ok c.peek c

/-- Takes the next token. -/
def advance : Parse Token := fun c => .ok c.advance.1 c.advance.2

/-- The span from the start of a token to the end of the last token taken. -/
def spanFrom (start : Span) : Parse Span :=
  fun c => .ok ⟨start.start, max c.previousStop start.stop⟩ c

/-- The next token is not what was expected. -/
def unexpected {α : Type} (expected : String) : Parse α := do
  let t ← peek
  match t.kind with
  | .endOfInput => fail (.unexpectedEnd expected) t.span
  | .malformed => fail (.malformedNumber t.lexeme) t.span
  | _ => fail (.unexpectedToken expected t.kind t.lexeme) t.span

/-- There is no room left for another level. -/
def tooDeep {α : Type} : Parse α := do
  fail (.nestingTooDeep maxNesting) (← peek).span

/-- Takes the next token if it satisfies `p`. -/
def accept (p : Token → Bool) : Parse Bool := do
  if p (← peek) then
    let _ ← advance
    pure true
  else pure false

def acceptOperator (word : Operator) : Parse Bool := accept (·.isOperator word)

def acceptDelimiter (text : String) : Parse Bool := accept (·.isDelimiter text)

/-- Takes the next token, which has to satisfy `p`. -/
def expect (p : Token → Bool) (expected : String) : Parse Token := do
  if p (← peek) then advance else unexpected expected

def expectKeyword (word : Keyword) : Parse Token :=
  expect (·.isKeyword word) s!"'{word.spelling}'"

def expectOperator (word : Operator) : Parse Token :=
  expect (·.isOperator word) s!"'{word.spelling}'"

def expectDelimiter (text : String) : Parse Token :=
  expect (·.isDelimiter text) s!"'{text}'"

/-- Takes an identifier; `what` says what it would name. -/
def expectIdent (what : String) : Parse Ident := do
  let t ← expect (·.kind == .identifier) what
  pure ⟨t.lexeme, t.span⟩

/-- Takes the type tag. Any other identifier names a type that does not exist. -/
def expectTypeTag : Parse Unit := do
  let t ← peek
  if t.kind = .identifier then
    if t.lexeme = typeTag then
      let _ ← advance
      pure ()
    else fail (.unsupportedType t.lexeme) t.span
  else unexpected s!"type '{typeTag}'"

def expectStatementEnd : Parse Unit := do
  let _ ← expectKeyword .naidu
  pure ()

/-- The value of a number token. -/
def numberValue (t : Token) : Parse Decimal :=
  match Decimal.ofPlain? t.lexeme with
  | some value => pure value
  | none => fail (.invalidNumber t.lexeme) t.span

/-- Repeats a step until it yields nothing, at most `bound` times. -/
def repeatUpTo {α : Type} (step : Parse (Option α)) : Nat → List α → Parse (List α)
  | 0, done => pure done.reverse
  | bound + 1, done => do
    match ← step with
    | some a => repeatUpTo step bound (a :: done)
    | none => pure done.reverse

/-- Repeats a step until it yields nothing. A step that yields something takes a token,
    so the number of tokens left bounds the repetition. -/
def many {α : Type} (step : Parse (Option α)) : Parse (List α) :=
  fun c => repeatUpTo step (c.pending.length + 1) [] c

end Parse

end Bello
