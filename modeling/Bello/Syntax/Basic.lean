import Bello.Decimal.Basic
import Bello.Span

/- Syntax trees. Every node carries the span that it was read from. -/
namespace Bello

/-- A name and where it stands. -/
structure Ident where
  name : String
  span : Span
deriving DecidableEq

/-- Constants that the language names; case does not matter in their names. -/
inductive NamedConstant where
  | pi
  | e
deriving DecidableEq

namespace NamedConstant

def value : NamedConstant → Decimal
  | pi => ⟨3141592653589793, 15, by decide, by decide⟩
  | e => ⟨2718281828459045, 15, by decide, by decide⟩

def ofName? (name : String) : Option NamedConstant :=
  match name.toList.map Char.toLower with
  | ['b', 'e', 'l', 'l', 'o', 'p', 'i'] => some pi
  | ['b', 'e', 'l', 'l', 'o', 'e'] => some e
  | _ => none

end NamedConstant

inductive UnaryOp where
  | plus
  | minus
  | not
deriving DecidableEq

inductive BinaryOp where
  | add | sub | mul | div | rem | pow
  | eq | ne | lt | le | gt | ge
  | and | or
deriving DecidableEq

/-- The word or words of an operator. -/
def BinaryOp.spelling : BinaryOp → String
  | add => "melomo"
  | sub => "flavuk"
  | mul => "dibotada"
  | div => "poopaye"
  | rem => "pado"
  | pow => "beedo"
  | eq => "con"
  | ne => "nocon"
  | lt => "la"
  | le => "lacon"
  | gt => "looka too"
  | ge => "looka too con"
  | and => "tropa"
  | or => "bo-ca"

inductive Expr where
  | number (value : Decimal) (span : Span)
  | constant (constant : NamedConstant) (span : Span)
  | var (name : Ident)
  | unary (op : UnaryOp) (operand : Expr) (span : Span)
  | binary (op : BinaryOp) (left right : Expr) (span : Span)
  | call (callee : Ident) (args : List Expr) (span : Span)
  | text (lexeme : String) (span : Span)

namespace Expr

def span : Expr → Span
  | number _ s | constant _ s | unary _ _ s | binary _ _ _ s | call _ _ s | text _ s => s
  | var name => name.span

end Expr

mutual

/-- Statements. A block is a statement too. -/
inductive Stmt where
  | declare (name : Ident) (span : Span)
  | assign (target : Ident) (value : Expr) (span : Span)
  | input (target : Ident) (span : Span)
  | output (value : Expr) (span : Span)
  | choose (condition : Expr) (yes : Block) (no : Option Block) (span : Span)
  | repeatWhile (condition : Expr) (body : Block) (span : Span)
  | count (counter : Ident) (first last : Expr) (body : Block) (span : Span)
  | giveBack (value : Expr) (span : Span)
  | block (block : Block)
  | evaluate (expr : Expr) (span : Span)

/-- Statements with a scope of their own. -/
inductive Block where
  | mk (statements : List Stmt) (span : Span)

end

namespace Block

def statements : Block → List Stmt
  | mk statements _ => statements

def span : Block → Span
  | mk _ span => span

end Block

/-- What a constant is declared to be. -/
inductive ConstantValue where
  | number (value : Decimal)
  | named (constant : NamedConstant)
deriving DecidableEq

def ConstantValue.value : ConstantValue → Decimal
  | number value => value
  | named constant => constant.value

structure ConstantDecl where
  name : Ident
  value : ConstantValue
  span : Span
deriving DecidableEq

structure Function where
  name : Ident
  params : List Ident
  body : Block
  span : Span

/-- What a program is made of. -/
inductive Item where
  | constant (decl : ConstantDecl)
  | function (definition : Function)
  | statement (statement : Stmt)

structure Program where
  items : List Item

end Bello
