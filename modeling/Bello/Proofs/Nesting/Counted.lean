import Bello.Parse.Program

/- Reading with one counter of levels.

   The readers of `Parse` are told how much room is left. A reader can also count for itself:
   it holds the level that it is at, goes down a level before an operand or a block, and puts
   the count back where it was. `nested` puts it back however its inside ends. A chain of
   operators puts it back at its end only, so an error in its middle leaves the count too
   high, and it is up to the expression around it to mend that.

   The readers of this kind are written out here, down to the three that are asked for from
   outside. Each gets a bound on how deep it calls itself; the count reaches its own limit
   before that. -/
namespace Bello

/-- A cursor, and the level at which it reads. -/
structure Reader where
  cursor : Cursor
  level : Nat
deriving DecidableEq

/-- A step of reading that counts levels. -/
abbrev Counted := EStateM Error Reader

namespace Counted

open Parse (maxNesting)

variable {α : Type}

/-- A step that does not touch the count. -/
def lift (x : Parse α) : Counted α := fun r =>
  match x r.cursor with
  | .ok a c => .ok a { r with cursor := c }
  | .error e c => .error e { r with cursor := c }

instance : MonadLift Parse Counted := ⟨lift⟩

/-- Goes one level down. -/
def descend : Counted Unit := fun r =>
  if r.level < maxNesting then .ok () { r with level := r.level + 1 } else lift Parse.tooDeep r

/-- Reads one level down and comes back, also after an error. -/
def nested (x : Counted α) : Counted α := fun r =>
  match (descend >>= fun _ => x) r with
  | .ok a r' => .ok a { r' with level := r.level }
  | .error e r' => .error e { r' with level := r.level }

/-- Comes back to the level of the start, but not after an error. -/
def returning (x : Counted α) : Counted α := fun r =>
  match x r with
  | .ok a r' => .ok a { r' with level := r.level }
  | .error e r' => .error e r'

def repeatUpTo (step : Counted (Option α)) : Nat → List α → Counted (List α)
  | 0, done => pure done.reverse
  | bound + 1, done => do
    match ← step with
    | some a => repeatUpTo step bound (a :: done)
    | none => pure done.reverse

def many (step : Counted (Option α)) : Counted (List α) :=
  fun r => repeatUpTo step (r.cursor.pending.length + 1) [] r

/-! ## Expressions -/

open Parse (peek advance spanFrom unexpected acceptOperator acceptDelimiter expectKeyword
  expectDelimiter expectIdent expectTypeTag expectStatementEnd numberValue binaryNode unaryNode
  binaryOperator)

/-- The rest of a chain. Every operator takes it a level down. -/
def chainRest (operator : Parse (Option BinaryOp)) (operand : Counted Expr) :
    Nat → Expr → Counted Expr
  | 0, _ => Parse.tooDeep
  | bound + 1, left => do
    match ← operator with
    | none => pure left
    | some op =>
      descend
      let right ← operand
      chainRest operator operand bound (binaryNode op left right)

def chain (operator : Parse (Option BinaryOp)) (operand : Counted Expr) : Counted Expr :=
  returning do
    let first ← operand
    chainRest operator operand (maxNesting + 1) first

def nextArgument (expr : Counted Expr) : Counted (Option Expr) := do
  if ← acceptDelimiter "," then
    let argument ← expr
    pure (some argument)
  else if ← acceptDelimiter ")" then pure none
  else unexpected "',' or ')'"

def call (expr : Counted Expr) (callee : Ident) : Counted Expr := do
  let _ ← advance
  let args ←
    if ← acceptDelimiter ")" then pure []
    else
      let first ← expr
      let rest ← many (nextArgument expr)
      pure (first :: rest)
  pure (.call callee args (← spanFrom callee.span))

def primary (expr : Counted Expr) : Counted Expr := do
  let t ← peek
  match t.kind with
  | .number =>
    let _ ← advance
    pure (.number (← numberValue t) t.span)
  | .keyword .da =>
    let _ ← advance
    pure (.number .one t.span)
  | .keyword .no =>
    let _ ← advance
    pure (.number .zero t.span)
  | .text =>
    let _ ← advance
    pure (.text t.lexeme t.span)
  | .identifier =>
    let _ ← advance
    match NamedConstant.ofName? t.lexeme with
    | some c => pure (.constant c t.span)
    | none =>
      if (← peek).isDelimiter "(" then call expr ⟨t.lexeme, t.span⟩
      else pure (.var ⟨t.lexeme, t.span⟩)
  | _ =>
    if t.isDelimiter "(" then
      let _ ← advance
      let inner ← expr
      let _ ← expectDelimiter ")"
      pure inner
    else unexpected "expression"

def powerOf (exponent base : Counted Expr) : Counted Expr := do
  let b ← base
  if ← acceptOperator .beedo then
    let e ← exponent
    pure (binaryNode .pow b e)
  else pure b

def power (expr : Counted Expr) : Nat → Counted Expr
  | 0 => powerOf Parse.tooDeep (primary expr)
  | bound + 1 => powerOf (nested (power expr bound)) (primary expr)

def unaryOf (opOf : Token → Option UnaryOp) (operand plain : Counted Expr) : Counted Expr := do
  let t ← peek
  match opOf t with
  | none => plain
  | some op =>
    let _ ← advance
    let e ← operand
    pure (unaryNode op t.span e)

def signed (expr : Counted Expr) : Nat → Counted Expr
  | 0 => unaryOf Parse.signOf Parse.tooDeep (power expr 0)
  | bound + 1 => unaryOf Parse.signOf (nested (signed expr bound)) (power expr (bound + 1))

def product (expr : Counted Expr) (bound : Nat) : Counted Expr :=
  chain (binaryOperator [(.dibotada, .mul), (.poopaye, .div), (.pado, .rem)]) (signed expr bound)

def sum (expr : Counted Expr) (bound : Nat) : Counted Expr :=
  chain (binaryOperator [(.melomo, .add), (.flavuk, .sub)]) (product expr bound)

def order (expr : Counted Expr) (bound : Nat) : Counted Expr :=
  chain Parse.orderOperator (sum expr bound)

def equality (expr : Counted Expr) (bound : Nat) : Counted Expr :=
  chain (binaryOperator [(.con, .eq), (.nocon, .ne)]) (order expr bound)

def negation (expr : Counted Expr) : Nat → Counted Expr
  | 0 => unaryOf Parse.negationOf Parse.tooDeep (equality expr 0)
  | bound + 1 =>
    unaryOf Parse.negationOf (nested (negation expr bound)) (equality expr (bound + 1))

def conjunction (expr : Counted Expr) (bound : Nat) : Counted Expr :=
  chain (binaryOperator [(.tropa, .and)]) (negation expr bound)

def disjunction (expr : Counted Expr) (bound : Nat) : Counted Expr :=
  chain (binaryOperator [(.boCa, .or)]) (conjunction expr bound)

def expression : Nat → Counted Expr
  | 0 => Parse.tooDeep
  | bound + 1 => nested (disjunction (expression bound) bound)

def standaloneExpression (bound : Nat) : Counted Expr := do
  let e ← expression bound
  let t ← peek
  if t.isEnd then pure e else Parse.fail (.trailingInput t.kind t.lexeme) t.span

/-! ## Statements -/

def outputStatement (expr : Counted Expr) : Counted Stmt := do
  let start := (← advance).span
  let _ ← expectKeyword .ti
  let _ ← expectKeyword .amo
  let _ ← expectDelimiter "("
  let value ← expr
  let _ ← expectDelimiter ")"
  expectStatementEnd
  pure (.output value (← spanFrom start))

def condition (expr : Counted Expr) : Counted Expr := do
  let _ ← expectDelimiter "("
  let value ← expr
  let _ ← expectDelimiter ")"
  pure value

def choice (block : Counted Block) (expr : Counted Expr) : Counted Stmt := do
  let start := (← advance).span
  let test ← condition expr
  let yes ← block
  let no ←
    if (← peek).isKeyword .uhOh then
      let _ ← advance
      let no ← block
      pure (some no)
    else pure none
  pure (.choose test yes no (← spanFrom start))

def whileLoop (block : Counted Block) (expr : Counted Expr) : Counted Stmt := do
  let start := (← advance).span
  let test ← condition expr
  let body ← block
  pure (.repeatWhile test body (← spanFrom start))

def countLoop (block : Counted Block) (expr : Counted Expr) : Counted Stmt := do
  let start := (← advance).span
  let _ ← expectDelimiter "("
  let counter ← expectIdent "loop variable"
  let _ ← expectDelimiter "="
  let first ← expr
  let _ ← Parse.expect (·.isIdentifier "to") "'to'"
  let last ← expr
  let _ ← expectDelimiter ")"
  let body ← block
  pure (.count counter first last body (← spanFrom start))

def returnStatement (expr : Counted Expr) : Counted Stmt := do
  let start := (← advance).span
  let _ ← expectKeyword .yu
  let value ← expr
  expectStatementEnd
  pure (.giveBack value (← spanFrom start))

def assignmentOrExpression (expr : Counted Expr) : Counted Stmt := do
  let t ← peek
  if t.kind = .identifier ∧ (← Parse.peekSecond).isOperator .lumai then
    let target ← expectIdent "variable name"
    let _ ← advance
    let value ← expr
    expectStatementEnd
    pure (.assign target value (← spanFrom t.span))
  else
    let value ← expr
    expectStatementEnd
    pure (.evaluate value (← spanFrom t.span))

def statement (block : Counted Block) (expr : Counted Expr) : Counted Stmt := do
  match (← peek).kind with
  | .keyword .poop => Parse.declaration
  | .keyword .guoleila => Parse.inputStatement
  | .keyword .tulalilloo => outputStatement expr
  | .keyword .biDo => choice block expr
  | .keyword .kemari => whileLoop block expr
  | .keyword .again => countLoop block expr
  | .keyword .tank => returnStatement expr
  | .keyword .oca => do
    let b ← block
    pure (.block b)
  | .endOfInput => unexpected "statement"
  | _ => assignmentOrExpression expr

def nextStatement (statement : Counted Stmt) : Counted (Option Stmt) := do
  let t ← peek
  if t.isKeyword .stopa then pure none
  else if t.isEnd then unexpected "'stopa' to close the block"
  else
    let s ← statement
    pure (some s)

def block (expr : Counted Expr) : Nat → Counted Block
  | 0 => Parse.tooDeep
  | bound + 1 => nested do
    let start := (← expectKeyword .oca).span
    let statements ← many (nextStatement (statement (block expr bound) expr))
    let _ ← advance
    pure (.mk statements (← spanFrom start))

/-! ## Programs -/

def function (block : Counted Block) : Counted Function := do
  let start := (← advance).span
  let name ← expectIdent "function name"
  expectTypeTag
  let _ ← expectDelimiter "("
  let params ← Parse.parameters
  let _ ← expectDelimiter ")"
  let body ← block
  pure ⟨name, params, body, ← spanFrom start⟩

def item (block : Counted Block) (expr : Counted Expr) : Counted Item := do
  let t ← peek
  if t.isKeyword .trusela then
    let decl ← Parse.constantDecl
    pure (.constant decl)
  else if t.isKeyword .boss then
    let definition ← function block
    pure (.function definition)
  else
    let s ← statement block expr
    pure (.statement s)

def nextItem (item : Counted Item) : Counted (Option Item) := do
  if (← peek).isEnd then pure none
  else
    let i ← item
    pure (some i)

def program (bound : Nat) : Counted Program := do
  let _ ← expectKeyword .bello
  let items ← many (nextItem (item (block (expression bound) bound) (expression bound)))
  pure ⟨items⟩

end Counted

end Bello
