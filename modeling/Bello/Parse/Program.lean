import Bello.Machine.Event
import Bello.Parse.Expression

/- Reading statements, declarations and programs. -/
namespace Bello.Parse

/-! ## Statements

The parameters `block` and `expr` read a block and an expression at the level of the
statement. -/

def declaration : Parse Stmt := do
  let start := (← advance).span
  let name ← expectIdent "variable name"
  expectTypeTag
  expectStatementEnd
  pure (.declare name (← spanFrom start))

def inputStatement : Parse Stmt := do
  let start := (← advance).span
  let _ ← expectDelimiter "("
  let target ← expectIdent "variable name"
  let _ ← expectDelimiter ")"
  expectStatementEnd
  pure (.input target (← spanFrom start))

def outputStatement (expr : Parse Expr) : Parse Stmt := do
  let start := (← advance).span
  let _ ← expectKeyword .ti
  let _ ← expectKeyword .amo
  let _ ← expectDelimiter "("
  let value ← expr
  let _ ← expectDelimiter ")"
  expectStatementEnd
  pure (.output value (← spanFrom start))

/-- An expression in parentheses. -/
def condition (expr : Parse Expr) : Parse Expr := do
  let _ ← expectDelimiter "("
  let value ← expr
  let _ ← expectDelimiter ")"
  pure value

def choice (block : Parse Block) (expr : Parse Expr) : Parse Stmt := do
  let start := (← advance).span
  let test ← condition expr
  let yes ← block
  let no ←
    if (← peek).isKeyword .uhOh then
      let _ ← advance
      let no ← block
      pure (some no)
    else pure none
  pure (.choose test yes no (← spanFrom start))

def whileLoop (block : Parse Block) (expr : Parse Expr) : Parse Stmt := do
  let start := (← advance).span
  let test ← condition expr
  let body ← block
  pure (.repeatWhile test body (← spanFrom start))

def countLoop (block : Parse Block) (expr : Parse Expr) : Parse Stmt := do
  let start := (← advance).span
  let _ ← expectDelimiter "("
  let counter ← expectIdent "loop variable"
  let _ ← expectDelimiter "="
  let first ← expr
  let _ ← expect (·.isIdentifier "to") "'to'"
  let last ← expr
  let _ ← expectDelimiter ")"
  let body ← block
  pure (.count counter first last body (← spanFrom start))

def returnStatement (expr : Parse Expr) : Parse Stmt := do
  let start := (← advance).span
  let _ ← expectKeyword .yu
  let value ← expr
  expectStatementEnd
  pure (.giveBack value (← spanFrom start))

/-- The significant token after the next one. -/
def peekSecond : Parse Token := fun c => .ok c.peekSecond c

/-- An assignment if a name is directly followed by the assignment operator, otherwise an
    expression. -/
def assignmentOrExpression (expr : Parse Expr) : Parse Stmt := do
  let t ← peek
  if t.kind = .identifier ∧ (← peekSecond).isOperator .lumai then
    let target ← expectIdent "variable name"
    let _ ← advance
    let value ← expr
    expectStatementEnd
    pure (.assign target value (← spanFrom t.span))
  else
    let value ← expr
    expectStatementEnd
    pure (.evaluate value (← spanFrom t.span))

def statement (block : Parse Block) (expr : Parse Expr) : Parse Stmt := do
  match (← peek).kind with
  | .keyword .poop => declaration
  | .keyword .guoleila => inputStatement
  | .keyword .tulalilloo => outputStatement expr
  | .keyword .biDo => choice block expr
  | .keyword .kemari => whileLoop block expr
  | .keyword .again => countLoop block expr
  | .keyword .tank => returnStatement expr
  | .keyword .oca => do
    let b ← block
    pure (.block b)
  | .endOfInput => unexpected "statement"
  | _ => assignmentOrExpression expr

/-- The next statement of a block, or nothing at its end. -/
def nextStatement (statement : Parse Stmt) : Parse (Option Stmt) := do
  let t ← peek
  if t.isKeyword .stopa then pure none
  else if t.isEnd then unexpected "'stopa' to close the block"
  else
    let s ← statement
    pure (some s)

/-- A block, with room for the given number of levels. -/
def block : Nat → Parse Block
  | 0 => tooDeep
  | room + 1 => do
    let start := (← expectKeyword .oca).span
    let statements ← many (nextStatement (statement (block room) (expression room)))
    let _ ← advance
    pure (.mk statements (← spanFrom start))

/-! ## Programs -/

def constantDecl : Parse ConstantDecl := do
  let start := (← advance).span
  let name ← expectIdent "constant name"
  expectTypeTag
  let t ← peek
  let value ←
    if t.kind = .number then
      let _ ← advance
      let value ← numberValue t
      pure (ConstantValue.number value)
    else
      match t.kind, NamedConstant.ofName? t.lexeme with
      | .identifier, some c =>
        let _ ← advance
        pure (ConstantValue.named c)
      | _, _ => unexpected "number or named constant"
  expectStatementEnd
  pure ⟨name, value, ← spanFrom start⟩

/-- The next parameter after a comma. -/
def nextParameter : Parse (Option Ident) := do
  if ← acceptDelimiter "," then
    let name ← expectIdent "parameter name"
    pure (some name)
  else pure none

def parameters : Parse (List Ident) := do
  if (← peek).isDelimiter ")" then pure []
  else
    let first ← expectIdent "parameter name"
    let rest ← many nextParameter
    pure (first :: rest)

/-! The functions from here on get the room for the blocks and expressions inside. -/

def function (room : Nat) : Parse Function := do
  let start := (← advance).span
  let name ← expectIdent "function name"
  expectTypeTag
  let _ ← expectDelimiter "("
  let params ← parameters
  let _ ← expectDelimiter ")"
  let body ← block room
  pure ⟨name, params, body, ← spanFrom start⟩

def item (room : Nat) : Parse Item := do
  let t ← peek
  if t.isKeyword .trusela then
    let decl ← constantDecl
    pure (.constant decl)
  else if t.isKeyword .boss then
    let definition ← function room
    pure (.function definition)
  else
    let s ← statement (block room) (expression room)
    pure (.statement s)

/-- The next item, or nothing at the end. -/
def nextItem (room : Nat) : Parse (Option Item) := do
  if (← peek).isEnd then pure none
  else
    let i ← item room
    pure (some i)

/-- The greeting and everything after it, with room for the given number of levels. -/
def programWithin (room : Nat) : Parse Program := do
  let _ ← expectKeyword .bello
  let items ← many (nextItem room)
  pure ⟨items⟩

/-- A program. -/
def program : Parse Program := programWithin maxNesting

end Bello.Parse

namespace Bello

/-! ## From the text of a source -/

/-- The program of a source, or its first error, with the events on the way. -/
def Program.read (source : String) : Except Error Program × List Event :=
  let tokens := Token.tokenize source
  let lexed := Event.lexed tokens.length
  match Parse.program (Cursor.ofSource source) with
  | .ok p _ => (.ok p, [lexed, .parsed p.items.length])
  | .error e _ => (.error e, [lexed])

/-- The program of a source, or its first error. -/
def Program.ofSource (source : String) : Except Error Program := (Program.read source).1

/-- The expression that makes up a source, or its first error. -/
def Expr.ofSource (source : String) : Except Error Expr :=
  match Parse.standaloneExpression (Cursor.ofSource source) with
  | .ok e _ => .ok e
  | .error e _ => .error e

end Bello
