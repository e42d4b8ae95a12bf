import Bello.Error
import Bello.Machine.Execution

/- What is reported to whoever wrote a program: errors with their place and hints, and what
   can be said about a source without running it, as lines of text and as documents in the
   JSON notation. -/
namespace Bello

/-! ## Counting the words of a source -/

/-- How many lexemes of each kind a source has; identifiers are counted once each. -/
structure Census where
  keywords : Nat
  identifiers : Nat
  numbers : Nat
  texts : Nat
  operators : Nat
  others : Nat
deriving DecidableEq

namespace Census

/-- Names of types, which count among the other lexemes and not as identifiers. -/
def typeNames : List String := ["Banana", "Papaya", "Gelato", "Spaghetti"]

/-- The kinds of lexeme that a census tells apart. -/
inductive Category where
  | keyword
  | identifier
  | number
  | text
  | operator
  | other
  | uncounted
deriving DecidableEq

/-- The category of a token. The word that starts a program is not counted. -/
def categoryOf (t : Token) : Category :=
  match t.kind with
  | .keyword .bello => .uncounted
  | .keyword .loka => .other
  | .keyword _ => .keyword
  | .identifier => if t.lexeme ∈ typeNames then .other else .identifier
  | .number => .number
  | .text => .text
  | .operator _ => .operator
  | .delimiter | .malformed => .other
  | .blank | .comment | .endOfInput => .uncounted

/-- The census of a sequence of tokens. -/
def ofTokens (tokens : List Token) : Census :=
  let count (category : Category) : Nat := tokens.countP (categoryOf · == category)
  { keywords := count .keyword
    identifiers :=
      ((tokens.filter (categoryOf · == .identifier)).map (·.lexeme)).eraseDups.length
    numbers := count .number
    texts := count .text
    operators := count .operator
    others := count .other }

def ofSource (source : String) : Census := ofTokens (Token.tokenize source)

/-- The census as lines of text. -/
def text (c : Census) : String :=
  s!"keywords: {c.keywords}\nidentifier: {c.identifiers}\nnumber literals: {c.numbers}\n" ++
  s!"string literals: {c.texts}\noperators: {c.operators}\nother lexemes: {c.others}"

end Census

/-! ## Documents

Nested fields and lists, written with two blanks of indentation for each level. -/

inductive Json where
  | null
  | bool (b : Bool)
  | number (n : Nat)
  | text (s : String)
  | list (items : List Json)
  | fields (fields : List (String × Json))

namespace Json

def hexDigit (n : Nat) : Char := (Nat.toDigits 16 n).headD '0'

/-- How a character is written inside quotes. -/
def escape (c : Char) : List Char :=
  match c with
  | '"' => ['\\', '"']
  | '\\' => ['\\', '\\']
  | '\x08' => ['\\', 'b']
  | '\x0c' => ['\\', 'f']
  | '\n' => ['\\', 'n']
  | '\r' => ['\\', 'r']
  | '\t' => ['\\', 't']
  | c =>
    if c.toNat < 0x20 then
      ['\\', 'u', '0', '0', hexDigit (c.toNat / 16), hexDigit (c.toNat % 16)]
    else [c]

/-- A text in quotes. -/
def quote (s : String) : String := String.ofList ('"' :: s.toList.flatMap escape ++ ['"'])

/-- The start of a line at the given level. -/
def newline (level : Nat) : String := "\n" ++ String.ofList (List.replicate (2 * level) ' ')

/-- Parts between brackets, each on a line of its own. -/
def bracket (level : Nat) (opening closing : String) (parts : List String) : String :=
  if parts.isEmpty then opening ++ closing
  else
    opening ++ newline (level + 1) ++
      String.intercalate ("," ++ newline (level + 1)) parts ++ newline level ++ closing

mutual

/-- The text of a document that starts at the given level. -/
def render (level : Nat) : Json → String
  | null => "null"
  | bool b => if b then "true" else "false"
  | number n => s!"{n}"
  | text s => quote s
  | list items => bracket level "[" "]" (renderItems (level + 1) items)
  | fields fs => bracket level "\x7b" "\x7d" (renderFields (level + 1) fs)

def renderItems (level : Nat) : List Json → List String
  | [] => []
  | j :: js => render level j :: renderItems level js

def renderFields (level : Nat) : List (String × Json) → List String
  | [] => []
  | (key, j) :: fs => (quote key ++ ": " ++ render level j) :: renderFields level fs

end

def pretty (j : Json) : String := render 0 j

end Json

/-! ## Reports -/

/-- A hint how to mend an error, with the text to write if there is one. -/
structure Suggestion where
  message : String
  replacement : Option String
deriving DecidableEq

/-- A position in a file. -/
structure Location where
  file : String
  position : Position
deriving DecidableEq

/-- An error with its place in a file and hints. -/
structure Report where
  code : String
  phase : Phase
  message : String
  location : Option Location
  suggestions : List Suggestion
deriving DecidableEq

/-- A hint in words only. -/
def Suggestion.hint (message : String) : Suggestion := ⟨message, none⟩

/-- A hint with the text to write. -/
def Suggestion.write (message replacement : String) : Suggestion := ⟨message, some replacement⟩

open Suggestion in
/-- The hints for an error of this cause. -/
def Cause.suggestions : Cause → List Suggestion
  | malformedNumber lexeme =>
    [hint s!"separate the number from the letters in '{lexeme}' with a space"]
  | unexpectedEnd _ => [write "every 'oca!' block must be closed with 'stopa'" "stopa"]
  | unsupportedType _ => [write "declare the value as Papaya" "Papaya"]
  | duplicateDeclaration name =>
    [hint s!"rename one of the declarations of '{name}'",
     hint "declare the inner one inside its own 'oca!' block to shadow it"]
  | unknownVariable name =>
    [write s!"declare '{name}' before using it" s!"poop {name} Papaya naidu!",
     hint "functions see only their parameters, their own locals and globals"]
  | unknownFunction name =>
    [write s!"define '{name}' with 'boss'"
      s!"boss {name} Papaya () oca!\n    tank yu 0 naidu!\nstopa"]
  | arityMismatch _ (.exactly n) got =>
    if got < n then [hint s!"add {n - got} more argument(s)"]
    else [hint s!"remove {got - n} extra argument(s)"]
  | arityMismatch _ (.atLeast n) _ => [hint s!"pass at least {n} argument(s)"]
  | nestingTooDeep limit =>
    [hint (s!"split the expression or block so it nests at most {limit} levels; " ++
      "long operator chains count too")]
  | callLimit name _ =>
    [hint s!"check that every path through '{name}' reaches a base case",
     hint "rewrite deep recursion as a 'kemari' or 'again' loop"]
  | divisionByZero => [hint "guard the division with 'bi-do (divisor nocon 0)'"]
  | missingReturn _ =>
    [write "end every path through the function with 'tank yu'" "tank yu 0 naidu!"]
  | returnOutsideFunction =>
    [hint "use 'tulalilloo ti amo' to print a value at the top level"]
  | unsupportedFeature _ =>
    [hint "string literals cannot be evaluated; only numbers are values"]
  | constantReassignment name =>
    [write s!"declare '{name}' as a variable instead of a constant"
      s!"poop {name} Papaya naidu!"]
  | inputExhausted => [hint "provide one number per line on standard input"]
  | invalidInput _ => [hint "input must be a decimal number such as 42 or -3.5"]
  | unexpectedToken .. | invalidNumber _ | trailingInput .. | overflow _
  | undefinedPower .. | channelFailure _ => []

namespace Report

/-- The report of an error in the source of a file. -/
def ofError (file source : String) (e : Error) : Report :=
  { code := e.code
    phase := e.phase
    message := e.message
    location := e.span.map fun s => ⟨file, s.position source⟩
    suggestions := e.cause.suggestions }

def locationText (l : Location) : String :=
  s!"\n  --> {l.file}:{l.position.line}:{l.position.column}"

/-- The report as lines of text. -/
def text (r : Report) : String :=
  s!"error[{r.code}]: {r.message}" ++ (r.location.map locationText).getD "" ++
    String.join (r.suggestions.map fun s => s!"\n   = help: {s.message}")

def suggestionJson (s : Suggestion) : Json :=
  .fields [("message", .text s.message), ("replacement", (s.replacement.map .text).getD .null)]

def locationJson (l : Location) : Json :=
  .fields [
    ("file", .text l.file), ("line", .number l.position.line),
    ("column", .number l.position.column)]

/-- The report as a document. -/
def json (r : Report) : Json :=
  .fields [
    ("code", .text r.code), ("severity", .text "error"), ("phase", .text r.phase.name),
    ("message", .text r.message), ("location", (r.location.map locationJson).getD .null),
    ("suggestions", .list (r.suggestions.map suggestionJson))]

end Report

/-- The census as a document. -/
def Census.json (c : Census) : Json :=
  .fields [
    ("keywords", .number c.keywords), ("identifiers", .number c.identifiers),
    ("number_literals", .number c.numbers), ("string_literals", .number c.texts),
    ("operators", .number c.operators), ("other_lexemes", .number c.others)]

/-! ## Checkups -/

/-- The result of looking through the source of a file. Reading stops at the first error,
    so there is at most one. -/
structure Checkup where
  file : String
  diagnostics : List Report
  census : Census
  itemCount : Nat
deriving DecidableEq

namespace Checkup

def ofSource (file source : String) : Checkup :=
  let census := Census.ofSource source
  match Program.ofSource source with
  | .ok p => ⟨file, [], census, p.items.length⟩
  | .error e => ⟨file, [.ofError file source e], census, 0⟩

def success (c : Checkup) : Bool := c.diagnostics.isEmpty

/-- The result as a document. -/
def json (c : Checkup) : Json :=
  .fields [
    ("success", .bool c.success), ("source_file", .text c.file),
    ("diagnostics", .list (c.diagnostics.map Report.json)), ("stats", c.census.json),
    ("item_count", .number c.itemCount)]

end Checkup

end Bello
