import Bello.Machine.Basic
import Bello.Parse.Program

/- Running expressions, statements and programs.

   The first argument of the functions that call each other bounds how deep they go into
   loops and calls. A bound that is too small ends in `unfinished`, which is neither a
   value nor an error; a larger bound never changes an answer. -/
namespace Bello

/-- Computes a value on a stack of its own. The value is that of `f`. -/
def onOwnStack {α : Type} (f : Unit → α) : α := (Task.spawn f .dedicated).get

@[simp] theorem onOwnStack_eq {α : Type} (f : Unit → α) : onOwnStack f = f () := rfl

namespace Exec

variable {C : Type}

/-- After this many nested calls a run continues on another stack. -/
def callsPerStack : Nat := 256

/-- Runs a piece on a stack of its own when many calls are under way. -/
def deepening {α : Type} (x : Exec C α) : Exec C α := fun m =>
  if m.activeCalls % callsPerStack = 0 then onOwnStack fun _ => x m else x m

/-- Where a piece runs does not change what it does. -/
@[simp] theorem deepening_eq {α : Type} (x : Exec C α) : deepening x = x := by
  funext m
  unfold deepening
  split
  · rfl
  · rfl

/-- Binds parameters to the values of the arguments. -/
def bindParams : List Ident → List Decimal → Exec C Unit
  | p :: params, v :: values => do
    define p ⟨v, true⟩
    bindParams params values
  | _, _ => pure ()

/-- The function of the program that a call means, if it can be called now with that many
    arguments. -/
def callee (name : Ident) (args : Nat) (span : Span) : Exec C Function := do
  let m ← get
  match m.functions[name.name]? with
  | none => fail (.unknownFunction name.name) name.span
  | some f =>
    if f.params.length ≠ args then
      fail (.arityMismatch name.name (.exactly f.params.length) args) span
    else if m.callLimit ≤ m.activeCalls then
      fail (.callLimit name.name m.callLimit) span
    else pure f

/-- What a call yields after its body. -/
def callResult (f : Function) (span : Span) : Flow → Exec C Decimal
  | .returned v => pure v
  | .normal => fail (.missingReturn f.name.name) span

/-- The value of a name. Named constants come first. -/
def nameValue (name : Ident) : Exec C Decimal := do
  match NamedConstant.ofName? name.name with
  | some c => pure c.value
  | none =>
    match ← lookup name.name with
    | some b => pure b.value
    | none => fail (.unknownVariable name.name) name.span

variable [Channel C]

mutual

def evaluate : Nat → Expr → Exec C Decimal
  | 0, _ => unfinished
  | n + 1, e =>
    match e with
    | .number v _ => pure v
    | .constant c _ => pure c.value
    | .var name => nameValue name
    | .unary op operand _ => do
      let v ← evaluate n operand
      pure (op.apply v)
    | .binary op left right span => do
      let a ← evaluate n left
      let b ← evaluate n right
      ofExcept span (op.apply a b)
    | .call name args span => do
      let values ← evaluateAll n args
      match Builtin.ofName? name.name with
      | some b => ofExcept span (b.apply values)
      | none => invoke n name values span
    | .text _ span => fail (.unsupportedFeature "string literal evaluation") span

/-- The values of expressions, from left to right. -/
def evaluateAll : Nat → List Expr → Exec C (List Decimal)
  | 0, _ => unfinished
  | _ + 1, [] => pure []
  | n + 1, e :: es => do
    let v ← evaluate n e
    let vs ← evaluateAll n es
    pure (v :: vs)

/-- Calls a function of the program. -/
def invoke : Nat → Ident → List Decimal → Span → Exec C Decimal
  | 0, _, _, _ => unfinished
  | n + 1, name, values, span => do
    let f ← callee name values.length span
    note (.called name.name values.length)
    inFrame <| deepening do
      bindParams f.params values
      let flow ← inScope (executeAll n true f.body.statements)
      callResult f span flow

/-- Runs a statement; the flag says whether it stands in a function. -/
def execute : Nat → Bool → Stmt → Exec C Flow
  | 0, _, _ => unfinished
  | n + 1, inFunction, s =>
    match s with
    | .declare name _ => do
      define name ⟨.zero, true⟩
      pure .normal
    | .assign target value _ => do
      let v ← evaluate n value
      if ← isWritable target then
        set target.name v
        pure .normal
      else fail (.unknownVariable target.name) target.span
    | .input target _ => do
      let declared ← isWritable target
      let v ← read
      if declared then set target.name v else define target ⟨v, true⟩
      pure .normal
    | .output value _ => do
      let v ← evaluate n value
      write v
      pure .normal
    | .choose condition yes no _ => do
      let v ← evaluate n condition
      if v.isTruthy then inScope (executeAll n inFunction yes.statements)
      else
        match no with
        | some b => inScope (executeAll n inFunction b.statements)
        | none => pure .normal
    | .repeatWhile condition body _ => executeWhile n inFunction condition body
    | .count counter first last body span => do
      let a ← evaluate n first
      let b ← evaluate n last
      note (.counting counter.name a b)
      inScope do
        define counter ⟨a, true⟩
        executeCount n inFunction counter.name a b body span
    | .giveBack value span =>
      if inFunction then do
        let v ← evaluate n value
        pure (.returned v)
      else fail .returnOutsideFunction span
    | .block b => inScope (executeAll n inFunction b.statements)
    | .evaluate e _ => do
      let _ ← evaluate n e
      pure .normal

/-- Runs statements in order, up to the first one that returns. -/
def executeAll : Nat → Bool → List Stmt → Exec C Flow
  | 0, _, _ => unfinished
  | _ + 1, _, [] => pure .normal
  | n + 1, inFunction, s :: ss => do
    match ← execute n inFunction s with
    | .returned v => pure (.returned v)
    | .normal => executeAll n inFunction ss

/-- Runs a body as long as the condition holds. -/
def executeWhile : Nat → Bool → Expr → Block → Exec C Flow
  | 0, _, _, _ => unfinished
  | n + 1, inFunction, condition, body => do
    let v ← evaluate n condition
    if v.isTruthy then
      match ← inScope (executeAll n inFunction body.statements) with
      | .returned v => pure (.returned v)
      | .normal => executeWhile n inFunction condition body
    else pure .normal

/-- Runs a body for each number from `counter` up to `last` in steps of one. The variable
    is set before each round, whatever the body did to it. -/
def executeCount : Nat → Bool → String → Decimal → Decimal → Block → Span → Exec C Flow
  | 0, _, _, _, _, _, _ => unfinished
  | n + 1, inFunction, name, counter, last, body, span => do
    if counter.le last then
      set name counter
      match ← inScope (executeAll n inFunction body.statements) with
      | .returned v => pure (.returned v)
      | .normal =>
        match counter.add .one with
        | some next => executeCount n inFunction name next last body span
        | none => fail (.overflow "again") span
    else pure .normal

end

/-! ## Programs -/

/-- Enters a function of the program. It cannot have the name of another one. -/
def addFunction (f : Function) : Exec C Unit := do
  let name := f.name
  if (← get).functions.contains name.name then
    fail (.duplicateDeclaration name.name) name.span
  else
    if (Builtin.ofName? name.name).isSome then note (.builtinHidden name.name)
    modify fun m => { m with functions := m.functions.insert name.name f }

/-- Enters constants and functions in their order; `constants` have been entered before. -/
def register (constants : Nat) : List Item → Exec C Unit
  | [] => fun m => .ok () (m.note (.registered constants m.functions.size))
  | .constant decl :: items => do
    define decl.name ⟨decl.value.value, false⟩
    register (constants + 1) items
  | .function f :: items => do
    addFunction f
    register constants items
  | .statement _ :: items => register constants items

/-- Runs the statements among the items. -/
def executeItems (n : Nat) : List Item → Exec C Unit
  | [] => pure ()
  | .statement s :: items => do
    let _ ← execute n false s
    executeItems n items
  | .constant _ :: items | .function _ :: items => executeItems n items

/-- Runs a program on the machine's chain. Functions of an earlier program are gone, and
    declarations come before all statements. -/
def runIn (n : Nat) (p : Program) : Exec C Unit := do
  modify fun m => { m with functions := ∅ }
  register 0 p.items
  executeItems n p.items

/-- Runs a program on a chain of its own. -/
def run (n : Nat) (p : Program) : Exec C Unit := fun m =>
  match runIn n p { m with chain := .new } with
  | .ok a m' => .ok a { m' with chain := m.chain }
  | .error e m' => .error e { m' with chain := m.chain }

/-- Reads a program and runs it on a chain of its own. Nothing runs if it cannot be read. -/
def runSource (n : Nat) (source : String) : Exec C Unit :=
  match Program.ofSource source with
  | .ok p => run n p
  | .error e => throw (.failed e)

/-- A bound that no run reaches in practice. -/
def farBound : Nat := Nat.pow 2 60

end Exec

end Bello
