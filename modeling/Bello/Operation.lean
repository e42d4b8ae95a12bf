import Bello.Decimal.Arithmetic
import Bello.Error
import Bello.Syntax.Basic

/- What operators and the functions that every program has do to numbers. Comparisons and
   logical operators yield one or zero. -/
namespace Bello

/-- A value, or an overflow in the operation of that name. -/
def orOverflow (operation : String) : Option Decimal → Except Cause Decimal
  | some d => .ok d
  | none => .error (.overflow operation)

def UnaryOp.apply : UnaryOp → Decimal → Decimal
  | plus, a => a
  | minus, a => a.neg
  | not, a => .ofBool !a.isTruthy

/-- The cause of the error that a power without a value is. -/
def powerCause (base exponent : Decimal) : Decimal.PowerFault → Cause
  | .divisionByZero => .divisionByZero
  | .overflow => .overflow "beedo"
  | .undefined => .undefinedPower base exponent

/-- Both operands are always there: nothing is cut short. -/
def BinaryOp.apply (op : BinaryOp) (a b : Decimal) : Except Cause Decimal :=
  match op with
  | add => orOverflow op.spelling (a.add b)
  | sub => orOverflow op.spelling (a.sub b)
  | mul => orOverflow op.spelling (a.mul b)
  | div => if b.isZero then .error .divisionByZero else orOverflow op.spelling (a.div b)
  | rem => if b.isZero then .error .divisionByZero else orOverflow op.spelling (a.rem b)
  | pow => (a.pow b).mapError (powerCause a b)
  | eq => .ok (.ofBool (a.eq b))
  | ne => .ok (.ofBool !a.eq b)
  | lt => .ok (.ofBool (a.lt b))
  | le => .ok (.ofBool (a.le b))
  | gt => .ok (.ofBool (b.lt a))
  | ge => .ok (.ofBool (b.le a))
  | and => .ok (.ofBool (a.isTruthy && b.isTruthy))
  | or => .ok (.ofBool (a.isTruthy || b.isTruthy))

/-! ## Built-in functions -/

inductive Builtin where
  | absolute
  | least
  | greatest
deriving DecidableEq

namespace Builtin

def name : Builtin → String
  | absolute => "muak"
  | least => "miniboss"
  | greatest => "bigboss"

def arity : Builtin → Arity
  | absolute => .exactly 1
  | least => .atLeast 1
  | greatest => .atLeast 1

def ofName? (name : String) : Option Builtin :=
  [absolute, least, greatest].find? (·.name == name)

/-- The value for arguments of the right number. -/
def value : Builtin → List Decimal → Decimal
  | _, [] => .zero
  | absolute, a :: _ => a.abs
  | least, a :: args => args.foldl Decimal.min a
  | greatest, a :: args => args.foldl Decimal.max a

/-- The value, if the number of arguments is right. -/
def apply (b : Builtin) (args : List Decimal) : Except Cause Decimal :=
  if b.arity.accepts args.length then .ok (b.value args)
  else .error (.arityMismatch b.name b.arity args.length)

end Builtin

end Bello
