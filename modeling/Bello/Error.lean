import Bello.Decimal.Text
import Bello.Token.Basic

/- What can go wrong, from the first character of a source to the last number written.

   A cause says what happened and determines the message, the code and the phase. An
   error is a cause with the place in the source where it shows; troubles with input and
   output have no place. -/
namespace Bello

/-- How many arguments a function takes. -/
inductive Arity where
  | exactly (n : Nat)
  | atLeast (n : Nat)
deriving DecidableEq

namespace Arity

def accepts (n : Nat) : Arity → Bool
  | exactly k => n == k
  | atLeast k => k ≤ n

def text : Arity → String
  | exactly n => s!"{n}"
  | atLeast n => s!"at least {n}"

end Arity

/-- The part of the work in which an error arises. -/
inductive Phase where
  | lexical
  | grammar
  | runtime
  | environment
deriving DecidableEq

def Phase.name : Phase → String
  | lexical => "lex"
  | grammar => "syntax"
  | runtime => "runtime"
  | environment => "environment"

inductive Cause where
  | malformedNumber (lexeme : String)
  | unexpectedToken (expected : String) (kind : Token.Kind) (lexeme : String)
  | unexpectedEnd (expected : String)
  | invalidNumber (lexeme : String)
  | unsupportedType (name : String)
  | trailingInput (kind : Token.Kind) (lexeme : String)
  | nestingTooDeep (limit : Nat)
  | duplicateDeclaration (name : String)
  | unknownVariable (name : String)
  | unknownFunction (name : String)
  | arityMismatch (name : String) (expected : Arity) (got : Nat)
  | divisionByZero
  | missingReturn (name : String)
  | returnOutsideFunction
  | unsupportedFeature (feature : String)
  | constantReassignment (name : String)
  | overflow (operation : String)
  | undefinedPower (base exponent : Decimal)
  | callLimit (name : String) (limit : Nat)
  | inputExhausted
  | invalidInput (input : String)
  | channelFailure (reason : String)
deriving DecidableEq

namespace Cause

def message : Cause → String
  | malformedNumber lexeme => s!"Malformed number literal: '{lexeme}'"
  | unexpectedToken expected kind lexeme =>
    s!"Unexpected token: expected {expected}, got {Token.describe kind lexeme}"
  | unexpectedEnd expected => s!"Unexpected end of input: expected {expected}"
  | invalidNumber lexeme => s!"Invalid number literal: '{lexeme}'"
  | unsupportedType name => s!"Unsupported type '{name}': only Papaya is supported"
  | trailingInput kind lexeme =>
    s!"Unexpected token after expression: {Token.describe kind lexeme}"
  | nestingTooDeep limit => s!"Nesting too deep: more than {limit} levels"
  | duplicateDeclaration name => s!"Duplicate declaration: {name}"
  | unknownVariable name => s!"Unknown variable: {name}"
  | unknownFunction name => s!"Unknown function: {name}"
  | arityMismatch name expected got =>
    s!"Function '{name}' expects {expected.text} argument(s), got {got}"
  | divisionByZero => "Division by zero"
  | missingReturn name => s!"Function '{name}' finished without 'tank yu'"
  | returnOutsideFunction => "'tank yu' is only allowed inside a function body"
  | unsupportedFeature feature => s!"Unsupported feature: {feature}"
  | constantReassignment name => s!"Cannot assign to constant '{name}'"
  | overflow operation => s!"Arithmetic overflow in {operation}"
  | undefinedPower base exponent => s!"Power {base.text} beedo {exponent.text} is undefined"
  | callLimit name limit => s!"Call depth limit of {limit} reached in '{name}'"
  | inputExhausted => "No input available"
  | invalidInput input => s!"Invalid number format: '{input}'"
  | channelFailure reason => s!"IO error: {reason}"

/-- The stable code of a diagnostic. -/
def code : Cause → String
  | malformedNumber .. => "E0001"
  | unexpectedToken .. => "E0101"
  | unexpectedEnd .. => "E0102"
  | invalidNumber .. => "E0103"
  | unsupportedType .. => "E0104"
  | trailingInput .. => "E0105"
  | nestingTooDeep .. => "E0106"
  | duplicateDeclaration .. => "E0201"
  | unknownVariable .. => "E0202"
  | unknownFunction .. => "E0203"
  | arityMismatch .. => "E0204"
  | divisionByZero => "E0205"
  | missingReturn .. => "E0206"
  | returnOutsideFunction => "E0207"
  | unsupportedFeature .. => "E0208"
  | constantReassignment .. => "E0209"
  | overflow .. => "E0210"
  | undefinedPower .. => "E0211"
  | callLimit .. => "E0212"
  | inputExhausted => "E0301"
  | invalidInput .. => "E0302"
  | channelFailure .. => "E0303"

def phase : Cause → Phase
  | malformedNumber .. => .lexical
  | unexpectedToken .. | unexpectedEnd .. | invalidNumber .. | unsupportedType ..
  | trailingInput .. | nestingTooDeep .. => .grammar
  | inputExhausted | invalidInput .. | channelFailure .. => .environment
  | _ => .runtime

end Cause

/-- A cause and its place. -/
structure Error where
  cause : Cause
  span : Option Span
deriving DecidableEq

namespace Error

def message (e : Error) : String := e.cause.message

def code (e : Error) : String := e.cause.code

def phase (e : Error) : Phase := e.cause.phase

end Error

/-- The error of a cause at a place. -/
def Cause.at (c : Cause) (span : Span) : Error := ⟨c, some span⟩

/-- The error of a cause without a place. -/
def Cause.unplaced (c : Cause) : Error := ⟨c, none⟩

end Bello
