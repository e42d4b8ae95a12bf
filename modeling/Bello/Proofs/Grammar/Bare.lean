import Bello.Syntax.Basic

/- Trees without places.

   A grammar says which tree some tokens stand for, but not where the tokens stand. Trees
   are compared after `bare`, which blanks every span in them and keeps all the rest. -/
namespace Bello

/-- The span of what has no place. -/
def Span.blank : Span := .point 0

/-- Types whose values can hold spans. -/
class Spanned (α : Type) where
  /-- The same with all spans blank. -/
  bare : α → α

export Spanned (bare)

instance {α : Type} [Spanned α] : Spanned (List α) := ⟨List.map bare⟩

instance {α : Type} [Spanned α] : Spanned (Option α) := ⟨Option.map bare⟩

def Ident.bare (i : Ident) : Ident := ⟨i.name, .blank⟩

instance : Spanned Ident := ⟨Ident.bare⟩

mutual

def Expr.bare : Expr → Expr
  | .number v _ => .number v .blank
  | .constant c _ => .constant c .blank
  | .var name => .var name.bare
  | .unary op operand _ => .unary op operand.bare .blank
  | .binary op left right _ => .binary op left.bare right.bare .blank
  | .call name args _ => .call name.bare (Expr.bareAll args) .blank
  | .text lexeme _ => .text lexeme .blank

def Expr.bareAll : List Expr → List Expr
  | [] => []
  | e :: es => e.bare :: Expr.bareAll es

end

instance : Spanned Expr := ⟨Expr.bare⟩

theorem Expr.bareAll_eq : ∀ es : List Expr, Expr.bareAll es = Spanned.bare es
  | [] => rfl
  | e :: es => by rw [Expr.bareAll, Expr.bareAll_eq es]; rfl

mutual

def Stmt.bare : Stmt → Stmt
  | .declare name _ => .declare name.bare .blank
  | .assign target value _ => .assign target.bare value.bare .blank
  | .input target _ => .input target.bare .blank
  | .output value _ => .output value.bare .blank
  | .choose condition yes none _ => .choose condition.bare yes.bare none .blank
  | .choose condition yes (some no) _ => .choose condition.bare yes.bare (some no.bare) .blank
  | .repeatWhile condition body _ => .repeatWhile condition.bare body.bare .blank
  | .count counter first last body _ =>
    .count counter.bare first.bare last.bare body.bare .blank
  | .giveBack value _ => .giveBack value.bare .blank
  | .block b => .block b.bare
  | .evaluate e _ => .evaluate e.bare .blank

def Block.bare : Block → Block
  | .mk statements _ => .mk (Stmt.bareAll statements) .blank

def Stmt.bareAll : List Stmt → List Stmt
  | [] => []
  | s :: ss => s.bare :: Stmt.bareAll ss

end

instance : Spanned Stmt := ⟨Stmt.bare⟩

instance : Spanned Block := ⟨Block.bare⟩

theorem Stmt.bareAll_eq : ∀ ss : List Stmt, Stmt.bareAll ss = Spanned.bare ss
  | [] => rfl
  | s :: ss => by rw [Stmt.bareAll, Stmt.bareAll_eq ss]; rfl

def ConstantDecl.bare (d : ConstantDecl) : ConstantDecl := ⟨d.name.bare, d.value, .blank⟩

instance : Spanned ConstantDecl := ⟨ConstantDecl.bare⟩

def Function.bare (f : Function) : Function :=
  ⟨f.name.bare, Spanned.bare f.params, f.body.bare, .blank⟩

instance : Spanned Function := ⟨Function.bare⟩

def Item.bare : Item → Item
  | .constant decl => .constant decl.bare
  | .function f => .function f.bare
  | .statement s => .statement s.bare

instance : Spanned Item := ⟨Item.bare⟩

def Program.bare (p : Program) : Program := ⟨Spanned.bare p.items⟩

instance : Spanned Program := ⟨Program.bare⟩

end Bello
