import Std.Data.ExtTreeMap
import Bello.Decimal.Basic

/- Names and what they are bound to.

   Scopes are stacked. A call starts a frame: while it lasts, only the scopes opened since
   then and the global scope can be seen, never the locals of the caller. -/
namespace Bello

/-- The value of a name. Constants are not mutable. -/
structure Binding where
  value : Decimal
  mutable : Bool
deriving DecidableEq

abbrev Scope := Std.ExtTreeMap String Binding

/-- Changes the binding of a name in a scope that binds it. -/
def Scope.update? (s : Scope) (name : String) (f : Binding → Binding) : Option Scope :=
  s[name]?.map fun b => s.insert name (f b)

/-- The global scope and the stack of local ones, innermost first. -/
structure ScopeChain where
  locals : List Scope
  globals : Scope
  /-- For each active frame, innermost first, how many scopes there were when it began. -/
  bases : List Nat
  /-- How many local scopes there are. -/
  size : Nat
  size_eq : size = locals.length

namespace ScopeChain

/-- A chain with nothing but an empty global scope. -/
def new : ScopeChain := ⟨[], ∅, [], 0, rfl⟩

/-- The number of scopes, the global one included. -/
def depth (c : ScopeChain) : Nat := c.size + 1

/-- How many scopes the current frame found when it began. -/
def base (c : ScopeChain) : Nat := c.bases.head?.getD 0

def pushScope (c : ScopeChain) : ScopeChain :=
  { c with
    locals := ∅ :: c.locals, size := c.size + 1,
    size_eq := by rw [List.length_cons, c.size_eq] }

/-- Drops the innermost scope. The global scope stays. -/
def popScope (c : ScopeChain) : ScopeChain :=
  { c with
    locals := c.locals.tail, size := c.size - 1,
    size_eq := by rw [List.length_tail, c.size_eq] }

/-- Begins a frame with one scope. -/
def pushFrame (c : ScopeChain) : ScopeChain :=
  { c with bases := c.depth :: c.bases }.pushScope

/-- Ends the current frame with all scopes opened since it began. -/
def popFrame (c : ScopeChain) : ScopeChain :=
  match c.bases with
  | [] => c
  | base :: bases =>
    let surplus := c.depth - max base 1
    { c with
      locals := c.locals.drop surplus, bases, size := c.size - surplus,
      size_eq := by rw [List.length_drop, c.size_eq] }

/-- How many local scopes can be seen. -/
def visibleCount (c : ScopeChain) : Nat := c.depth - c.base

/-- The scopes that can be seen, innermost first. -/
def visible (c : ScopeChain) : List Scope := c.locals.take c.visibleCount ++ [c.globals]

/-- Binds a name in the innermost scope, unless it is bound there. -/
def define (c : ScopeChain) (name : String) (b : Binding) : Option ScopeChain :=
  match h : c.locals with
  | [] =>
    if c.globals.contains name then none
    else some { c with globals := c.globals.insert name b }
  | s :: rest =>
    if s.contains name then none
    else
      some { c with
        locals := s.insert name b :: rest,
        size_eq := by rw [c.size_eq, h, List.length_cons, List.length_cons] }

/-- The binding of a name in the innermost visible scope that has one. -/
def lookup (c : ScopeChain) (name : String) : Option Binding :=
  c.visible.findSome? (·[name]?)

/-- Changes the binding of a name in the first of `n` scopes that binds it. -/
def updateWithin (name : String) (f : Binding → Binding) :
    Nat → List Scope → Option (List Scope)
  | n + 1, s :: rest =>
    match Scope.update? s name f with
    | some s' => some (s' :: rest)
    | none => (updateWithin name f n rest).map (s :: ·)
  | _, _ => none

theorem length_updateWithin {name : String} {f : Binding → Binding} {n : Nat}
    {ss ss' : List Scope} (h : updateWithin name f n ss = some ss') : ss'.length = ss.length := by
  fun_induction updateWithin name f n ss generalizing ss' with
  | case1 n s rest s' hs => cases h; simp
  | case2 n s rest hs ih =>
    obtain ⟨rest', hr, rfl⟩ := Option.map_eq_some_iff.1 h
    simp [ih hr]
  | case3 => cases h

/-- Changes the binding that `lookup` finds. -/
def update? (c : ScopeChain) (name : String) (f : Binding → Binding) : Option ScopeChain :=
  match h : updateWithin name f c.visibleCount c.locals with
  | some locals => some { c with locals, size_eq := by rw [c.size_eq, length_updateWithin h] }
  | none => (Scope.update? c.globals name f).map fun globals => { c with globals }

/-- Gives a name a new value where `lookup` finds it. -/
def set? (c : ScopeChain) (name : String) (value : Decimal) : Option ScopeChain :=
  c.update? name ({ · with value })

end ScopeChain

end Bello
