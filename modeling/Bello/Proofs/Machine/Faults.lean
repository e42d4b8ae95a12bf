import Bello.Proofs.Machine.Steps
import Bello.Proofs.Upholds

/- Which errors a run can end in.

   Each form of the syntax can fail over a few things, at places of its own: `Raises` lists
   them. A run ends in an error of its tree, of the body of a function that the machine knows,
   or of the channel. So a law `E` about errors is kept by every run, if what the syntax can
   raise is allowed (`A`) and the law admits what is allowed (`evaluate_faults` and the
   others). Two errors do not arise wherever they are listed: that a return stands outside of
   a function, and that a function ends without one. The law has to admit them only where they
   do. It may rest on a property `I` of the functions that the machine knows. -/
namespace Bello

/-- The channel itself raises the error. -/
def Channel.Raises (C : Type) [Channel C] (e : Error) : Prop :=
  ∃ c c' : C, Channel.read c = .error e c' ∨ ∃ v, Channel.write v c = .error e c'

/-- A script raises an error only when its inputs are used up. -/
theorem Script.eq_of_raises {e : Error} (h : Channel.Raises Script e) :
    e = Cause.inputExhausted.unplaced := by
  obtain ⟨⟨inputs, written⟩, c', hread | ⟨v, hwrite⟩⟩ := h
  · cases inputs with
    | nil => cases hread; rfl
    | cons d rest => cases hread
  · cases hwrite

/-- A cause that any program can give. -/
def Cause.isCommon : Cause → Bool
  | .returnOutsideFunction | .missingReturn _ => false
  | _ => true

/-- A cause that operations on numbers give. -/
def Cause.isArithmetic : Cause → Bool
  | .divisionByZero | .overflow _ | .undefinedPower _ _ => true
  | _ => false

theorem Cause.isCommon_of_isArithmetic {cause : Cause} (h : cause.isArithmetic) :
    cause.isCommon := by
  cases cause with
  | returnOutsideFunction | missingReturn => cases h
  | _ => rfl

theorem orOverflow_isArithmetic {operation : String} {o : Option Decimal} {cause : Cause}
    (h : orOverflow operation o = .error cause) : cause.isArithmetic := by
  cases o with
  | none => cases h; rfl
  | some d => cases h

theorem BinaryOp.apply_isArithmetic {op : BinaryOp} {a b : Decimal} {cause : Cause}
    (h : op.apply a b = .error cause) : cause.isArithmetic := by
  cases op with
  | add | sub | mul => exact orOverflow_isArithmetic h
  | div | rem =>
    simp only [apply] at h
    split at h
    · cases h; rfl
    · exact orOverflow_isArithmetic h
  | pow =>
    simp only [apply] at h
    cases hp : a.pow b with
    | ok d => rw [hp] at h; cases h
    | error fault =>
      rw [hp] at h
      cases h
      cases fault <;> rfl
  | eq | ne | lt | le | gt | ge | and | or => cases h

/-- A function that every program has fails over the number of its arguments only. -/
theorem Builtin.apply_error {b : Builtin} {values : List Decimal} {cause : Cause}
    (h : b.apply values = .error cause) :
    cause = .arityMismatch b.name b.arity values.length := by
  unfold apply at h
  split at h
  · cases h
  · cases h; rfl

/-! ## What the syntax can raise -/

/-- What a call can raise by itself. -/
inductive CallRaises (name : Ident) (span : Span) : Cause → Span → Prop where
  | unknown : CallRaises name span (.unknownFunction name.name) name.span
  | arity (expected : Arity) (args : Nat) :
      CallRaises name span (.arityMismatch name.name expected args) span
  | limit (limit : Nat) : CallRaises name span (.callLimit name.name limit) span
  | missing : CallRaises name span (.missingReturn name.name) span

/-- The cause can arise at the span in the expression, and not only in the body of a function
    that it calls. -/
inductive Expr.Raises : Expr → Cause → Span → Prop where
  | var (name : Ident) : Raises (.var name) (.unknownVariable name.name) name.span
  | operand {op : UnaryOp} {e : Expr} {span s : Span} {cause : Cause} :
      Raises e cause s → Raises (.unary op e span) cause s
  | left {op : BinaryOp} {l r : Expr} {span s : Span} {cause : Cause} :
      Raises l cause s → Raises (.binary op l r span) cause s
  | right {op : BinaryOp} {l r : Expr} {span s : Span} {cause : Cause} :
      Raises r cause s → Raises (.binary op l r span) cause s
  | operation {op : BinaryOp} {l r : Expr} {span : Span} {cause : Cause} {a b : Decimal} :
      op.apply a b = .error cause → Raises (.binary op l r span) cause span
  | argument {name : Ident} {args : List Expr} {e : Expr} {span s : Span} {cause : Cause} :
      e ∈ args → Raises e cause s → Raises (.call name args span) cause s
  | builtin {name : Ident} {args : List Expr} {span : Span} {cause : Cause} {b : Builtin}
      {values : List Decimal} : Builtin.ofName? name.name = some b →
      b.apply values = .error cause → Raises (.call name args span) cause span
  | call {name : Ident} {args : List Expr} {span s : Span} {cause : Cause} :
      CallRaises name span cause s → Raises (.call name args span) cause s
  | text (lexeme : String) (span : Span) :
      Raises (.text lexeme span) (.unsupportedFeature "string literal evaluation") span

/-- The cause can arise at the span in the statement. -/
inductive Stmt.Raises : Stmt → Cause → Span → Prop where
  | declare (name : Ident) (span : Span) :
      Raises (.declare name span) (.duplicateDeclaration name.name) name.span
  | assignValue {target : Ident} {value : Expr} {span s : Span} {cause : Cause} :
      value.Raises cause s → Raises (.assign target value span) cause s
  | assignConstant (target : Ident) (value : Expr) (span : Span) :
      Raises (.assign target value span) (.constantReassignment target.name) target.span
  | assignUnknown (target : Ident) (value : Expr) (span : Span) :
      Raises (.assign target value span) (.unknownVariable target.name) target.span
  | inputConstant (target : Ident) (span : Span) :
      Raises (.input target span) (.constantReassignment target.name) target.span
  | inputDeclared (target : Ident) (span : Span) :
      Raises (.input target span) (.duplicateDeclaration target.name) target.span
  | output {value : Expr} {span s : Span} {cause : Cause} :
      value.Raises cause s → Raises (.output value span) cause s
  | chooseCondition {condition : Expr} {yes : Block} {no : Option Block} {span s : Span}
      {cause : Cause} : condition.Raises cause s → Raises (.choose condition yes no span) cause s
  | chooseYes {condition : Expr} {yes : Block} {no : Option Block} {span s : Span}
      {cause : Cause} {st : Stmt} : st ∈ yes.statements → Raises st cause s →
      Raises (.choose condition yes no span) cause s
  | chooseNo {condition : Expr} {yes b : Block} {span s : Span} {cause : Cause} {st : Stmt} :
      st ∈ b.statements → Raises st cause s →
      Raises (.choose condition yes (some b) span) cause s
  | whileCondition {condition : Expr} {body : Block} {span s : Span} {cause : Cause} :
      condition.Raises cause s → Raises (.repeatWhile condition body span) cause s
  | whileBody {condition : Expr} {body : Block} {span s : Span} {cause : Cause} {st : Stmt} :
      st ∈ body.statements → Raises st cause s →
      Raises (.repeatWhile condition body span) cause s
  | countFirst {counter : Ident} {first last : Expr} {body : Block} {span s : Span}
      {cause : Cause} : first.Raises cause s → Raises (.count counter first last body span) cause s
  | countLast {counter : Ident} {first last : Expr} {body : Block} {span s : Span}
      {cause : Cause} : last.Raises cause s → Raises (.count counter first last body span) cause s
  | countCounter (counter : Ident) (first last : Expr) (body : Block) (span : Span) :
      Raises (.count counter first last body span) (.duplicateDeclaration counter.name)
        counter.span
  | countBody {counter : Ident} {first last : Expr} {body : Block} {span s : Span}
      {cause : Cause} {st : Stmt} : st ∈ body.statements → Raises st cause s →
      Raises (.count counter first last body span) cause s
  | countOverflow (counter : Ident) (first last : Expr) (body : Block) (span : Span) :
      Raises (.count counter first last body span) (.overflow "again") span
  | giveBackValue {value : Expr} {span s : Span} {cause : Cause} :
      value.Raises cause s → Raises (.giveBack value span) cause s
  | giveBackOutside (value : Expr) (span : Span) :
      Raises (.giveBack value span) .returnOutsideFunction span
  | block {b : Block} {s : Span} {cause : Cause} {st : Stmt} : st ∈ b.statements →
      Raises st cause s → Raises (.block b) cause s
  | evaluate {e : Expr} {span s : Span} {cause : Cause} :
      e.Raises cause s → Raises (.evaluate e span) cause s

/-- The cause can arise at the span in a call of the function. -/
inductive Function.Raises (f : Function) : Cause → Span → Prop where
  | param {p : Ident} : p ∈ f.params → Raises f (.duplicateDeclaration p.name) p.span
  | body {s : Stmt} {cause : Cause} {span : Span} : s ∈ f.body.statements →
      s.Raises cause span → Raises f cause span

/-- The cause can arise at the span when the item is entered or run. -/
inductive Item.Raises : Item → Cause → Span → Prop where
  | constant (decl : ConstantDecl) :
      Raises (.constant decl) (.duplicateDeclaration decl.name.name) decl.name.span
  | function (f : Function) :
      Raises (.function f) (.duplicateDeclaration f.name.name) f.name.span
  | statement {s : Stmt} {cause : Cause} {span : Span} :
      s.Raises cause span → Raises (.statement s) cause span

/-- Whatever can be raised is allowed. -/
def Allows (A R : Cause → Span → Prop) : Prop :=
  ∀ (cause : Cause) (span : Span), R cause span → A cause span

namespace Exec

variable {C α : Type} {I : Machine C → Prop} {E : Stop → Prop} {P : α → Prop}

/-- The property is one of the functions that the machine knows. -/
def OfFunctions (I : Machine C → Prop) : Prop :=
  ∀ m m' : Machine C, m'.functions = m.functions → I m → I m'

/-! ## Steps -/

theorem note_upholds (hI : OfFunctions I) (e : Event) :
    Upholds I E (fun _ => True) (note e : Exec C Unit) :=
  fun m hm => .inl ⟨(), m.note e, rfl, hI m _ (by rw [Machine.note_eq]) hm, trivial⟩

theorem lookup_upholds (name : String) :
    Upholds I E (fun _ => True) (lookup name : Exec C (Option Binding)) :=
  fun m hm => .inl ⟨_, m, rfl, hm, trivial⟩

theorem set_upholds (hI : OfFunctions I) (name : String) (v : Decimal) :
    Upholds I E (fun _ => True) (set name v : Exec C Unit) :=
  fun m hm => .inl ⟨(), _, set_ok name v m, hI m _ rfl hm, trivial⟩

theorem define_upholds (hI : OfFunctions I) {name : Ident} (b : Binding)
    (hE : E (.failed (Cause.at (.duplicateDeclaration name.name) name.span))) :
    Upholds I E (fun _ => True) (define name b : Exec C Unit) := by
  intro m hm
  cases hd : m.chain.define name.name b with
  | some chain => exact .inl ⟨(), _, define_ok hd, hI m _ rfl hm, trivial⟩
  | none => exact .inr ⟨_, m, define_error hd, hm, hE⟩

theorem isWritable_upholds {target : Ident}
    (hE : E (.failed (Cause.at (.constantReassignment target.name) target.span))) :
    Upholds I E (fun _ => True) (isWritable target : Exec C Bool) := by
  refine .bind' (lookup_upholds target.name) (fun o _ => ?_)
  cases o with
  | none => exact .pure' trivial
  | some b =>
    show Upholds I E (fun _ => True) (if b.mutable then _ else _)
    split
    · exact .pure' trivial
    · exact .throw' hE

theorem between_upholds {enter leave : Machine C → Machine C} {x : Exec C α}
    (hx : Upholds I E P x) (henter : ∀ m : Machine C, I m → I (enter m))
    (hleave : ∀ m : Machine C, I m → I (leave m)) : Upholds I E P (between enter leave x) := by
  intro m hm
  unfold between
  rcases hx _ (henter m hm) with ⟨a, m', hr, hm', ha⟩ | ⟨e, m', hr, hm', he⟩
  · rw [hr]
    exact .inl ⟨a, _, rfl, hleave m' hm', ha⟩
  · rw [hr]
    exact .inr ⟨e, _, rfl, hleave m' hm', he⟩

theorem inScope_upholds (hI : OfFunctions I) {x : Exec C α} (hx : Upholds I E P x) :
    Upholds I E P (inScope x) := by
  refine between_upholds hx (fun m => hI m _ ?_) (fun m => hI m _ ?_)
  · rw [Machine.pushScope, Machine.note_eq]
  · rw [Machine.popScope, Machine.note_eq]

theorem inFrame_upholds (hI : OfFunctions I) {x : Exec C α} (hx : Upholds I E P x) :
    Upholds I E P (inFrame x) := by
  refine between_upholds hx (fun m => hI m _ ?_) (fun m => hI m _ ?_)
  · rw [Machine.enterCall, Machine.note_eq]
  · rw [Machine.leaveCall, Machine.note_eq]

theorem ofExcept_upholds {span : Span} {r : Except Cause α}
    (hE : ∀ cause, r = .error cause → E (.failed (cause.at span))) :
    Upholds I E (fun _ => True) (ofExcept span r : Exec C α) := by
  cases r with
  | ok a => exact .pure' trivial
  | error cause => exact .throw' (hE cause rfl)

theorem bindParams_upholds (hI : OfFunctions I) : ∀ (params : List Ident) (values : List Decimal),
    (∀ p ∈ params, E (.failed (Cause.at (.duplicateDeclaration p.name) p.span))) →
    Upholds I E (fun _ => True) (bindParams params values : Exec C Unit)
  | [], _, _ => .pure' trivial
  | _ :: _, [], _ => .pure' trivial
  | _ :: params, _ :: values, hE => by
    obtain ⟨hp, hparams⟩ := List.forall_mem_cons.1 hE
    exact .bind' (define_upholds hI _ hp) (fun _ _ => bindParams_upholds hI params values hparams)

theorem nameValue_upholds {name : Ident}
    (hE : E (.failed (Cause.at (.unknownVariable name.name) name.span))) :
    Upholds I E (fun _ => True) (nameValue name : Exec C Decimal) := by
  unfold nameValue
  split
  · exact .pure' trivial
  · refine .bind' (lookup_upholds _) (fun o _ => ?_)
    cases o with
    | some b => exact .pure' trivial
    | none => exact .throw' hE

/-- What is called is a function that the machine knows. -/
theorem callee_upholds {name : Ident} {args : Nat} {span : Span}
    (hunknown : E (.failed (Cause.at (.unknownFunction name.name) name.span)))
    (harity : ∀ expected, E (.failed (Cause.at (.arityMismatch name.name expected args) span)))
    (hlimit : ∀ limit, E (.failed (Cause.at (.callLimit name.name limit) span))) :
    Upholds I E (fun f => ∃ m, I m ∧ m.functions[name.name]? = some f)
      (callee name args span : Exec C Function) := by
  intro m hm
  have hget : (get : Exec C (Machine C)) m = .ok m m := rfl
  unfold callee
  rw [bind_ok hget]
  cases hf : m.functions[name.name]? with
  | none => exact .inr ⟨_, m, rfl, hm, hunknown⟩
  | some f =>
    simp only
    split
    · exact .inr ⟨_, m, rfl, hm, harity _⟩
    split
    · exact .inr ⟨_, m, rfl, hm, hlimit _⟩
    · exact .inl ⟨f, m, rfl, hm, m, hm, hf⟩

theorem addFunction_upholds (hI : OfFunctions I) {f : Function}
    (hknowing : ∀ m : Machine C, I m → I (m.knowing f))
    (hE : E (.failed (Cause.at (.duplicateDeclaration f.name.name) f.name.span))) :
    Upholds I E (fun _ => True) (addFunction f : Exec C Unit) := by
  intro m hm
  have hget : (get : Exec C (Machine C)) m = .ok m m := rfl
  have hnote := hI m (m.note (.builtinHidden f.name.name)) (by rw [Machine.note_eq]) hm
  unfold addFunction
  rw [bind_ok hget]
  split
  · exact .inr ⟨_, m, rfl, hm, hE⟩
  · split
    · exact .inl ⟨(), _, rfl, hknowing _ hnote, trivial⟩
    · exact .inl ⟨(), _, rfl, hknowing m hm, trivial⟩

/-- Registering fails only over a name that is taken. -/
theorem register_upholds (hI : OfFunctions I) (constants : Nat) {items : List Item}
    (hknowing : ∀ f, .function f ∈ items → ∀ m : Machine C, I m → I (m.knowing f))
    (hE : ∀ item ∈ items, ∀ cause span, item.Raises cause span → cause.isCommon →
      E (.failed (cause.at span))) :
    Upholds I E (fun _ => True) (register constants items : Exec C Unit) := by
  induction items generalizing constants with
  | nil => exact fun m hm => .inl ⟨(), _, rfl, hI m _ (by rw [Machine.note_eq]) hm, trivial⟩
  | cons item items ih =>
    obtain ⟨hitem, hitems⟩ := List.forall_mem_cons.1 hE
    have hrest (constants : Nat) := ih constants (fun f hf => hknowing f (.tail _ hf)) hitems
    cases item with
    | constant decl =>
      exact .bind' (define_upholds hI _ (hitem _ _ (.constant decl) rfl)) (fun _ _ => hrest _)
    | function f =>
      refine .bind' (addFunction_upholds hI (hknowing f (.head _)) ?_) (fun _ _ => hrest _)
      exact hitem _ _ (.function f) rfl
    | statement s => exact hrest _

variable [Channel C]

theorem read_upholds (hI : OfFunctions I) (hE : ∀ e, Channel.Raises C e → E (.failed e)) :
    Upholds I E (fun _ => True) (read : Exec C Decimal) := by
  intro m hm
  unfold read
  cases hr : Channel.read m.channel with
  | ok v c => exact .inl ⟨v, _, rfl, hI m _ rfl hm, trivial⟩
  | error e c => exact .inr ⟨_, _, rfl, hI m _ rfl hm, hE e ⟨m.channel, c, .inl hr⟩⟩

theorem write_upholds (hI : OfFunctions I) (hE : ∀ e, Channel.Raises C e → E (.failed e))
    (v : Decimal) : Upholds I E (fun _ => True) (write v : Exec C Unit) := by
  intro m hm
  unfold write
  cases hw : Channel.write v m.channel with
  | ok u c => exact .inl ⟨(), _, rfl, hI m _ rfl hm, trivial⟩
  | error e c => exact .inr ⟨_, _, rfl, hI m _ rfl hm, hE e ⟨m.channel, c, .inr ⟨v, hw⟩⟩⟩

/-! ## Laws about errors -/

/-- A law that admits what is allowed, and a missing return only where a function that the
    machine knows can end without one; and what the bodies of these functions can raise is
    allowed. -/
structure Admits (I : Machine C → Prop) (A : Cause → Span → Prop) (E : Stop → Prop) : Prop where
  ofFunctions : OfFunctions I
  unfinished : E .unfinished
  raised : ∀ e, Channel.Raises C e → E (.failed e)
  common : ∀ (cause : Cause) (span : Span), cause.isCommon → A cause span →
    E (.failed (cause.at span))
  known : ∀ (m : Machine C) (name : String) (f : Function), I m → m.functions[name]? = some f →
    Allows A f.Raises
  missing : ∀ (m m₁ m₂ : Machine C) (name : String) (f : Function) (n : Nat) (span : Span),
    I m → m.functions[name]? = some f → A (.missingReturn name) span →
    inScope (executeAll n true f.body.statements) m₁ = .ok .normal m₂ →
    E (.failed (Cause.at (.missingReturn f.name.name) span))

/-- The law admits a return at this place: in a function, or wherever it may be refused. -/
def Admits.Return (A : Cause → Span → Prop) (E : Stop → Prop) (inFunction : Bool) : Prop :=
  inFunction = false → ∀ span, A .returnOutsideFunction span →
    E (.failed (Cause.at .returnOutsideFunction span))

/-- In a function no return is refused. -/
theorem Admits.Return.inside (A : Cause → Span → Prop) (E : Stop → Prop) : Return A E true :=
  fun hflag => by cases hflag

/-! ## Expressions, statements, loops and calls -/

variable {A : Cause → Span → Prop}

mutual

theorem evaluate_faults (h : Admits I A E) (n : Nat) {e : Expr} (he : Allows A e.Raises) :
    Upholds I E (fun _ => True) (evaluate n e : Exec C Decimal) := by
  match n, e with
  | 0, _ => simp only [evaluate]; exact .throw' h.unfinished
  | n + 1, .number _ _ => exact .pure' trivial
  | n + 1, .constant _ _ => exact .pure' trivial
  | n + 1, .var name => exact nameValue_upholds (h.common _ _ rfl (he _ _ (.var name)))
  | n + 1, .unary _ operand _ =>
    exact .bind' (evaluate_faults h n fun _ _ hr => he _ _ (.operand hr))
      (fun _ _ => .pure' trivial)
  | n + 1, .binary _ left right span =>
    refine .bind' (evaluate_faults h n fun _ _ hr => he _ _ (.left hr)) (fun a _ => ?_)
    refine .bind' (evaluate_faults h n fun _ _ hr => he _ _ (.right hr)) (fun b _ => ?_)
    exact ofExcept_upholds (fun cause hc =>
      h.common cause span (Cause.isCommon_of_isArithmetic (BinaryOp.apply_isArithmetic hc))
        (he _ _ (.operation hc)))
  | n + 1, .call name args span =>
    refine .bind' (evaluateAll_faults h n fun _ hmem _ _ hr => he _ _ (.argument hmem hr))
      (fun values _ => ?_)
    cases hb : Builtin.ofName? name.name with
    | some b =>
      exact ofExcept_upholds (fun cause hc =>
        h.common cause span (by rw [Builtin.apply_error hc]; rfl) (he _ _ (.builtin hb hc)))
    | none => exact invoke_faults h n values fun _ _ hr => he _ _ (.call hr)
  | n + 1, .text lexeme span => exact .throw' (h.common _ span rfl (he _ _ (.text lexeme span)))
termination_by n

theorem evaluateAll_faults (h : Admits I A E) (n : Nat) {es : List Expr}
    (hes : ∀ e ∈ es, Allows A e.Raises) :
    Upholds I E (fun _ => True) (evaluateAll n es : Exec C (List Decimal)) := by
  match n, es with
  | 0, _ => simp only [evaluateAll]; exact .throw' h.unfinished
  | n + 1, [] => exact .pure' trivial
  | n + 1, e :: es =>
    obtain ⟨he, hrest⟩ := List.forall_mem_cons.1 hes
    refine .bind' (evaluate_faults h n he) (fun v _ => ?_)
    exact .bind' (evaluateAll_faults h n hrest) (fun _ _ => .pure' trivial)
termination_by n

theorem invoke_faults (h : Admits I A E) (n : Nat) {name : Ident} (values : List Decimal)
    {span : Span} (hcall : Allows A (CallRaises name span)) :
    Upholds I E (fun _ => True) (invoke n name values span : Exec C Decimal) := by
  match n with
  | 0 => simp only [invoke]; exact .throw' h.unfinished
  | n + 1 =>
    simp only [invoke, deepening_eq]
    refine .bind' (callee_upholds (h.common _ _ rfl (hcall _ _ .unknown))
      (fun _ => h.common _ _ rfl (hcall _ _ (.arity _ _)))
      (fun _ => h.common _ _ rfl (hcall _ _ (.limit _)))) (fun f hf => ?_)
    obtain ⟨m, hm, hfound⟩ := hf
    have hknown := h.known m name.name f hm hfound
    refine .bind' (note_upholds h.ofFunctions _) (fun _ _ => inFrame_upholds h.ofFunctions ?_)
    refine .bind' (bindParams_upholds h.ofFunctions f.params values
      (fun p hp => h.common _ _ rfl (hknown _ _ (.param hp)))) (fun _ _ => ?_)
    -- The body is in a function, whatever the call is in.
    have hbody := inScope_upholds h.ofFunctions (executeAll_faults h n (.inside A E)
      fun _ hmem _ _ hr => hknown _ _ (.body hmem hr))
    refine .bind' hbody.arises (fun flow hflow => ?_)
    cases flow with
    | returned v => exact .pure' trivial
    | normal =>
      obtain ⟨-, m₁, m₂, hnormal⟩ := hflow
      exact .throw' (h.missing m m₁ m₂ name.name f n span hm hfound (hcall _ _ .missing) hnormal)
termination_by n

theorem execute_faults (h : Admits I A E) (n : Nat) {inFunction : Bool}
    (hret : Admits.Return A E inFunction) {s : Stmt} (hs : Allows A s.Raises) :
    Upholds I E (fun _ => True) (execute n inFunction s : Exec C Flow) := by
  match n, s with
  | 0, _ => simp only [execute]; exact .throw' h.unfinished
  | n + 1, .declare name span =>
    have hname := h.common _ _ rfl (hs _ _ (.declare name span))
    exact .bind' (define_upholds h.ofFunctions _ hname) (fun _ _ => .pure' trivial)
  | n + 1, .assign target value span =>
    refine .bind' (evaluate_faults h n fun _ _ hr => hs _ _ (.assignValue hr)) (fun v _ => ?_)
    have hconstant := h.common _ _ rfl (hs _ _ (.assignConstant target value span))
    refine .bind' (isWritable_upholds hconstant) (fun writable _ => ?_)
    cases writable with
    | true => exact .bind' (set_upholds h.ofFunctions _ v) (fun _ _ => .pure' trivial)
    | false => exact .throw' (h.common _ _ rfl (hs _ _ (.assignUnknown target value span)))
  | n + 1, .input target span =>
    have hconstant := h.common _ _ rfl (hs _ _ (.inputConstant target span))
    have hdeclared := h.common _ _ rfl (hs _ _ (.inputDeclared target span))
    refine .bind' (isWritable_upholds hconstant) (fun declared _ => ?_)
    refine .bind' (read_upholds h.ofFunctions h.raised) (fun v _ => ?_)
    cases declared with
    | true => exact .bind' (set_upholds h.ofFunctions _ v) (fun _ _ => .pure' trivial)
    | false =>
      exact .bind' (define_upholds h.ofFunctions _ hdeclared) (fun _ _ => .pure' trivial)
  | n + 1, .output value _ =>
    refine .bind' (evaluate_faults h n fun _ _ hr => hs _ _ (.output hr)) (fun v _ => ?_)
    exact .bind' (write_upholds h.ofFunctions h.raised v) (fun _ _ => .pure' trivial)
  | n + 1, .choose condition yes no _ =>
    refine .bind' (evaluate_faults h n fun _ _ hr => hs _ _ (.chooseCondition hr)) (fun v _ => ?_)
    split
    · exact inScope_upholds h.ofFunctions (executeAll_faults h n hret
        fun _ hmem _ _ hr => hs _ _ (.chooseYes hmem hr))
    · cases no with
      | some b =>
        exact inScope_upholds h.ofFunctions (executeAll_faults h n hret
          fun _ hmem _ _ hr => hs _ _ (.chooseNo hmem hr))
      | none => exact .pure' trivial
  | n + 1, .repeatWhile condition body _ =>
    exact executeWhile_faults h n hret (fun _ _ hr => hs _ _ (.whileCondition hr))
      fun _ hmem _ _ hr => hs _ _ (.whileBody hmem hr)
  | n + 1, .count counter first last body span =>
    have hcounter := h.common _ _ rfl (hs _ _ (.countCounter counter first last body span))
    refine .bind' (evaluate_faults h n fun _ _ hr => hs _ _ (.countFirst hr)) (fun a _ => ?_)
    refine .bind' (evaluate_faults h n fun _ _ hr => hs _ _ (.countLast hr)) (fun b _ => ?_)
    refine .bind' (note_upholds h.ofFunctions _) (fun _ _ => inScope_upholds h.ofFunctions ?_)
    refine .bind' (define_upholds h.ofFunctions _ hcounter) (fun _ _ => ?_)
    exact executeCount_faults h n hret counter.name a b
      (fun _ hmem _ _ hr => hs _ _ (.countBody hmem hr))
      (hs _ _ (.countOverflow counter first last body span))
  | n + 1, .giveBack value span =>
    show Upholds I E _ (if inFunction then _ else _)
    split
    · exact .bind' (evaluate_faults h n fun _ _ hr => hs _ _ (.giveBackValue hr))
        (fun _ _ => .pure' trivial)
    · next hflag =>
      exact .throw' (hret (Bool.eq_false_iff.2 hflag) span (hs _ _ (.giveBackOutside value span)))
  | n + 1, .block b =>
    exact inScope_upholds h.ofFunctions (executeAll_faults h n hret
      fun _ hmem _ _ hr => hs _ _ (.block hmem hr))
  | n + 1, .evaluate e _ =>
    exact .bind' (evaluate_faults h n fun _ _ hr => hs _ _ (.evaluate hr))
      (fun _ _ => .pure' trivial)
termination_by n

theorem executeAll_faults (h : Admits I A E) (n : Nat) {inFunction : Bool}
    (hret : Admits.Return A E inFunction) {ss : List Stmt} (hss : ∀ s ∈ ss, Allows A s.Raises) :
    Upholds I E (fun _ => True) (executeAll n inFunction ss : Exec C Flow) := by
  match n, ss with
  | 0, _ => simp only [executeAll]; exact .throw' h.unfinished
  | n + 1, [] => exact .pure' trivial
  | n + 1, s :: ss =>
    obtain ⟨hs, hrest⟩ := List.forall_mem_cons.1 hss
    refine .bind' (execute_faults h n hret hs) (fun flow _ => ?_)
    cases flow with
    | returned v => exact .pure' trivial
    | normal => exact executeAll_faults h n hret hrest
termination_by n

theorem executeWhile_faults (h : Admits I A E) (n : Nat) {inFunction : Bool}
    (hret : Admits.Return A E inFunction) {condition : Expr} {body : Block}
    (hcondition : Allows A condition.Raises)
    (hbody : ∀ s ∈ body.statements, Allows A s.Raises) :
    Upholds I E (fun _ => True) (executeWhile n inFunction condition body : Exec C Flow) := by
  match n with
  | 0 => simp only [executeWhile]; exact .throw' h.unfinished
  | n + 1 =>
    refine .bind' (evaluate_faults h n hcondition) (fun v _ => ?_)
    split
    · refine .bind' (inScope_upholds h.ofFunctions (executeAll_faults h n hret hbody))
        (fun flow _ => ?_)
      cases flow with
      | returned v => exact .pure' trivial
      | normal => exact executeWhile_faults h n hret hcondition hbody
    · exact .pure' trivial
termination_by n

theorem executeCount_faults (h : Admits I A E) (n : Nat) {inFunction : Bool}
    (hret : Admits.Return A E inFunction) (name : String) (counter last : Decimal) {body : Block}
    (hbody : ∀ s ∈ body.statements, Allows A s.Raises) {span : Span}
    (hspan : A (.overflow "again") span) :
    Upholds I E (fun _ => True)
      (executeCount n inFunction name counter last body span : Exec C Flow) := by
  match n with
  | 0 => simp only [executeCount]; exact .throw' h.unfinished
  | n + 1 =>
    show Upholds I E _ (if counter.le last then _ else _)
    split
    · refine .bind' (set_upholds h.ofFunctions name counter) (fun _ _ => ?_)
      refine .bind' (inScope_upholds h.ofFunctions (executeAll_faults h n hret hbody))
        (fun flow _ => ?_)
      cases flow with
      | returned v => exact .pure' trivial
      | normal =>
        cases counter.add .one with
        | some next => exact executeCount_faults h n hret name next last hbody hspan
        | none => exact .throw' (h.common _ span rfl hspan)
    · exact .pure' trivial
termination_by n

end

/-! ## Programs -/

/-- The statements of a program come outside of functions. -/
theorem executeItems_faults (h : Admits I A E) (hret : Admits.Return A E false) (n : Nat)
    {items : List Item} (hitems : ∀ item ∈ items, Allows A item.Raises) :
    Upholds I E (fun _ => True) (executeItems n items : Exec C Unit) := by
  induction items with
  | nil => exact .pure' trivial
  | cons item items ih =>
    obtain ⟨hitem, hrest⟩ := List.forall_mem_cons.1 hitems
    cases item with
    | constant decl => exact ih hrest
    | function f => exact ih hrest
    | statement s =>
      exact .bind' (execute_faults h n hret fun _ _ hr => hitem _ _ (.statement hr))
        (fun _ _ => ih hrest)

end Exec

end Bello
