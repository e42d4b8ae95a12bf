import Bello.Parse.Basic

/- Reading expressions, one function per level of precedence.

   Each function gets the `room` that is left, the number of levels by which its input may
   still nest. The operand after the i-th operator of a chain lies i levels deeper. The
   parameter `nested` reads a whole expression inside another, one level down: within
   parentheses or among the arguments of a call. -/
namespace Bello.Parse

/-! ## Operators -/

/-- The operator among `choices` whose word comes next. -/
def binaryOperator : List (Operator × BinaryOp) → Parse (Option BinaryOp)
  | [] => pure none
  | (word, op) :: choices => do
    if ← acceptOperator word then pure (some op) else binaryOperator choices

/-- The operators of order. Two of them are more than one word. -/
def orderOperator : Parse (Option BinaryOp) := do
  if ← acceptOperator .lacon then pure (some .le)
  else if ← acceptOperator .la then
    if ← acceptOperator .con then pure (some .le) else pure (some .lt)
  else if ← acceptOperator .looka then
    let _ ← expectOperator .too
    if ← acceptOperator .con then pure (some .ge) else pure (some .gt)
  else pure none

/-! ## Building nodes -/

def binaryNode (op : BinaryOp) (left right : Expr) : Expr :=
  .binary op left right (left.span.merge right.span)

def unaryNode (op : UnaryOp) (start : Span) (operand : Expr) : Expr :=
  .unary op operand (start.merge operand.span)

/-! ## Levels -/

/-- The rest of a left-associative chain whose first operands are in `left`. -/
def chainRest (operator : Parse (Option BinaryOp)) (operand : Nat → Parse Expr) :
    Nat → Expr → Parse Expr
  | 0, left => do
    match ← operator with
    | none => pure left
    | some _ => tooDeep
  | room + 1, left => do
    match ← operator with
    | none => pure left
    | some op =>
      let right ← operand room
      chainRest operator operand room (binaryNode op left right)

/-- A left-associative chain of operands. -/
def chain (operator : Parse (Option BinaryOp)) (operand : Nat → Parse Expr) (room : Nat) :
    Parse Expr := do
  let first ← operand room
  chainRest operator operand room first

/-- One argument after another, up to the closing parenthesis. -/
def nextArgument (nested : Parse Expr) : Parse (Option Expr) := do
  if ← acceptDelimiter "," then
    let argument ← nested
    pure (some argument)
  else if ← acceptDelimiter ")" then pure none
  else unexpected "',' or ')'"

/-- The arguments of a call and its parentheses. -/
def call (nested : Parse Expr) (callee : Ident) : Parse Expr := do
  let _ ← advance
  let args ←
    if ← acceptDelimiter ")" then pure []
    else
      let first ← nested
      let rest ← many (nextArgument nested)
      pure (first :: rest)
  pure (.call callee args (← spanFrom callee.span))

/-- An operand without operators. -/
def primary (nested : Parse Expr) : Parse Expr := do
  let t ← peek
  match t.kind with
  | .number =>
    let _ ← advance
    pure (.number (← numberValue t) t.span)
  | .keyword .da =>
    let _ ← advance
    pure (.number .one t.span)
  | .keyword .no =>
    let _ ← advance
    pure (.number .zero t.span)
  | .text =>
    let _ ← advance
    pure (.text t.lexeme t.span)
  | .identifier =>
    let _ ← advance
    match NamedConstant.ofName? t.lexeme with
    | some c => pure (.constant c t.span)
    | none =>
      if (← peek).isDelimiter "(" then call nested ⟨t.lexeme, t.span⟩
      else pure (.var ⟨t.lexeme, t.span⟩)
  | _ =>
    if t.isDelimiter "(" then
      let _ ← advance
      let inner ← nested
      let _ ← expectDelimiter ")"
      pure inner
    else unexpected "expression"

/-- A base and, after the operator, an exponent. -/
def powerOf (exponent base : Parse Expr) : Parse Expr := do
  let b ← base
  if ← acceptOperator .beedo then
    let e ← exponent
    pure (binaryNode .pow b e)
  else pure b

/-- Powers, which associate to the right. -/
def power (nested : Nat → Parse Expr) : Nat → Parse Expr
  | 0 => powerOf tooDeep (primary (nested 0))
  | room + 1 => powerOf (power nested room) (primary (nested (room + 1)))

/-- The sign that stands before an operand, if there is one. -/
def signOf (t : Token) : Option UnaryOp :=
  if t.isOperator .melomo then some .plus
  else if t.isOperator .flavuk then some .minus
  else none

/-- An operand with the operator that stands before it, or else what `plain` reads. -/
def unaryOf (opOf : Token → Option UnaryOp) (operand plain : Parse Expr) : Parse Expr := do
  let t ← peek
  match opOf t with
  | none => plain
  | some op =>
    let _ ← advance
    let e ← operand
    pure (unaryNode op t.span e)

/-- Operands with signs before them. -/
def signed (nested : Nat → Parse Expr) : Nat → Parse Expr
  | 0 => unaryOf signOf tooDeep (power nested 0)
  | room + 1 => unaryOf signOf (signed nested room) (power nested (room + 1))

def product (nested : Nat → Parse Expr) : Nat → Parse Expr :=
  chain (binaryOperator [(.dibotada, .mul), (.poopaye, .div), (.pado, .rem)]) (signed nested)

def sum (nested : Nat → Parse Expr) : Nat → Parse Expr :=
  chain (binaryOperator [(.melomo, .add), (.flavuk, .sub)]) (product nested)

def order (nested : Nat → Parse Expr) : Nat → Parse Expr :=
  chain orderOperator (sum nested)

def equality (nested : Nat → Parse Expr) : Nat → Parse Expr :=
  chain (binaryOperator [(.con, .eq), (.nocon, .ne)]) (order nested)

/-- The negation that stands before an operand, if there is one. -/
def negationOf (t : Token) : Option UnaryOp :=
  if t.isOperator .makoroni then some .not else none

/-- Negations, which bind looser than comparisons. -/
def negation (nested : Nat → Parse Expr) : Nat → Parse Expr
  | 0 => unaryOf negationOf tooDeep (equality nested 0)
  | room + 1 => unaryOf negationOf (negation nested room) (equality nested (room + 1))

def conjunction (nested : Nat → Parse Expr) : Nat → Parse Expr :=
  chain (binaryOperator [(.tropa, .and)]) (negation nested)

def disjunction (nested : Nat → Parse Expr) : Nat → Parse Expr :=
  chain (binaryOperator [(.boCa, .or)]) (conjunction nested)

/-- An expression with at most `depth` expressions one inside the other. An expression
    takes a level of its own, so nesting runs out no later than the room does. -/
def expressionWithin : Nat → Nat → Parse Expr
  | depth + 1, room + 1 => disjunction (expressionWithin depth) room
  | _, _ => tooDeep

/-- An expression, with room for the given number of levels. -/
def expression (room : Nat) : Parse Expr := expressionWithin room room

/-- An expression after which nothing follows. -/
def standaloneExpression : Parse Expr := do
  let e ← expression maxNesting
  let t ← peek
  if t.isEnd then pure e else fail (.trailingInput t.kind t.lexeme) t.span

end Bello.Parse
