import Bello.Channel
import Bello.Machine.Event
import Bello.Operation
import Bello.Scope

/- The state of a run and the small steps on it. -/
namespace Bello

/-- Everything that a statement can see or change. -/
structure Machine (C : Type) where
  chain : ScopeChain
  functions : Std.ExtTreeMap String Function
  /-- How many calls of functions of the program are under way. -/
  activeCalls : Nat
  /-- How many may be under way at once. -/
  callLimit : Nat
  channel : C
  /-- Whether events are kept. -/
  tracing : Bool
  /-- The events so far, last first. -/
  log : List Event

/-- Why a run stopped: an error, or a bound on its length that was too small to see its
    end. -/
inductive Stop where
  | failed (error : Error)
  | unfinished
deriving DecidableEq

/-- A piece of a run. What it changed before it stopped stays changed. -/
abbrev Exec (C : Type) := EStateM Stop (Machine C)

/-- How a statement ends when it does not fail. -/
inductive Flow where
  | normal
  | returned (value : Decimal)
deriving DecidableEq

namespace Machine

/-- The call limit unless another one is asked for. -/
def defaultCallLimit : Nat := 128

/-- A machine at rest. -/
def new {C : Type} (channel : C) (callLimit : Nat) (tracing : Bool) : Machine C :=
  ⟨.new, ∅, 0, callLimit, channel, tracing, []⟩

/-- The events in the order in which they happened. -/
def events {C : Type} (m : Machine C) : List Event := m.log.reverse

variable {C : Type}

def note (m : Machine C) (e : Event) : Machine C :=
  if m.tracing then { m with log := e :: m.log } else m

def pushScope (m : Machine C) : Machine C :=
  let chain := m.chain.pushScope
  { m with chain }.note (.scopePushed chain.depth)

def popScope (m : Machine C) : Machine C :=
  let chain := m.chain.popScope
  { m with chain }.note (.scopePopped chain.depth)

def enterCall (m : Machine C) : Machine C :=
  let chain := m.chain.pushFrame
  { m with chain, activeCalls := m.activeCalls + 1 }.note (.scopePushed chain.depth)

def leaveCall (m : Machine C) : Machine C :=
  let chain := m.chain.popFrame
  { m with chain, activeCalls := m.activeCalls - 1 }.note (.framePopped chain.depth)

end Machine

namespace Exec

variable {C α : Type}

def fail (cause : Cause) (span : Span) : Exec C α := throw (.failed (cause.at span))

def unfinished : Exec C α := throw .unfinished

/-- The value of an operation, or its failure at the given place. -/
def ofExcept (span : Span) : Except Cause α → Exec C α
  | .ok a => pure a
  | .error cause => fail cause span

def note (e : Event) : Exec C Unit := fun m => .ok () (m.note e)

/-- Runs a piece after `enter`, and `leave` after it, however it ends. -/
@[inline] def between (enter leave : Machine C → Machine C) (x : Exec C α) : Exec C α :=
  fun m =>
    match x (enter m) with
    | .ok a m' => .ok a (leave m')
    | .error e m' => .error e (leave m')

/-- Runs a piece in a scope of its own. -/
@[inline] def inScope (x : Exec C α) : Exec C α := between .pushScope .popScope x

/-- Runs a piece in a frame of its own. -/
@[inline] def inFrame (x : Exec C α) : Exec C α := between .enterCall .leaveCall x

/-- Binds a name in the innermost scope. -/
def define (name : Ident) (b : Binding) : Exec C Unit := fun m =>
  match m.chain.define name.name b with
  | some chain => .ok () { m with chain }
  | none => .error (.failed (Cause.at (.duplicateDeclaration name.name) name.span)) m

def lookup (name : String) : Exec C (Option Binding) := fun m => .ok (m.chain.lookup name) m

/-- Gives a name a new value where it is bound; no binding, no effect. -/
def set (name : String) (value : Decimal) : Exec C Unit := fun m =>
  match m.chain.set? name value with
  | some chain => .ok () { m with chain }
  | none => .ok () m

/-- Whether the target of an assignment is bound. A constant cannot be one. -/
def isWritable (target : Ident) : Exec C Bool := do
  match ← lookup target.name with
  | some b =>
    if b.mutable then pure true else fail (.constantReassignment target.name) target.span
  | none => pure false

variable [Channel C]

def read : Exec C Decimal := fun m =>
  match Channel.read m.channel with
  | .ok d channel => .ok d { m with channel }
  | .error e channel => .error (.failed e) { m with channel }

def write (d : Decimal) : Exec C Unit := fun m =>
  match Channel.write d m.channel with
  | .ok _ channel => .ok () { m with channel }
  | .error e channel => .error (.failed e) { m with channel }

end Exec

end Bello
