import Bello.Proofs.Machine.Steps

/- One program on two kinds of channel.

   Runs touch their channel by reading and writing numbers and in no other way. So if two
   channels, of whatever kinds, answer every read and every write alike, no program can tell
   them apart. `Mirrors S x y` says that from states related by `S` the pieces `x` and `y`
   end alike, in the same value or the same error, and on related states. It is assumed of
   single reads and writes, for a relation `S` between the channels, and proved of programs,
   for machines that are the same but for channels related by `S` (`runIn_mirrors`). -/
namespace Bello

/-- The same value or the same error, on related states. -/
inductive Parallel {ε σ τ α : Type} (S : σ → τ → Prop) :
    EStateM.Result ε σ α → EStateM.Result ε τ α → Prop where
  | ok (a : α) {s : σ} {t : τ} (h : S s t) : Parallel S (.ok a s) (.ok a t)
  | error (e : ε) {s : σ} {t : τ} (h : S s t) : Parallel S (.error e s) (.error e t)

/-- From related states both pieces end alike. -/
def Mirrors {ε σ τ α : Type} (S : σ → τ → Prop) (x : EStateM ε σ α) (y : EStateM ε τ α) : Prop :=
  ∀ s t, S s t → Parallel S (x s) (y t)

namespace Mirrors

variable {ε σ τ α β : Type} {S : σ → τ → Prop}

theorem pure' (a : α) : Mirrors S (pure a : EStateM ε σ α) (pure a) := fun _ _ h => .ok a h

theorem throw' (e : ε) : Mirrors S (throw e : EStateM ε σ α) (throw e) := fun _ _ h => .error e h

theorem bind' {x : EStateM ε σ α} {y : EStateM ε τ α} {f : α → EStateM ε σ β}
    {g : α → EStateM ε τ β} (hx : Mirrors S x y) (hf : ∀ a, Mirrors S (f a) (g a)) :
    Mirrors S (x >>= f) (y >>= g) := by
  intro s t h
  show Parallel S (EStateM.bind x f s) (EStateM.bind y g t)
  have hxy := hx s t h
  unfold EStateM.bind
  generalize x s = r at hxy
  generalize y t = r' at hxy
  cases hxy with
  | ok a h => exact hf a _ _ h
  | error e h => exact .error e h

end Mirrors

namespace Machine

variable {C D : Type}

/-- The same machine on another channel. -/
def tuned (m : Machine C) (d : D) : Machine D :=
  ⟨m.chain, m.functions, m.activeCalls, m.callLimit, d, m.tracing, m.log⟩

/-- The machines are the same but for their channels, which are related. -/
def Faces (S : C → D → Prop) (m : Machine C) (m' : Machine D) : Prop :=
  ∃ d, S m.channel d ∧ m' = m.tuned d

theorem note_tuned (m : Machine C) (d : D) (e : Event) :
    (m.tuned d).note e = (m.note e).tuned d := by
  rw [note_eq, note_eq]
  rfl

namespace Faces

variable {S : C → D → Prop} {m : Machine C} {m' : Machine D}

theorem note (h : Faces S m m') (e : Event) : Faces S (m.note e) (m'.note e) := by
  obtain ⟨d, hd, rfl⟩ := h
  refine ⟨d, ?_, note_tuned m d e⟩
  rw [note_eq]
  exact hd

theorem pushScope (h : Faces S m m') : Faces S m.pushScope m'.pushScope := by
  obtain ⟨d, hd, rfl⟩ := h
  exact note (m := { m with chain := m.chain.pushScope }) ⟨d, hd, rfl⟩ _

theorem popScope (h : Faces S m m') : Faces S m.popScope m'.popScope := by
  obtain ⟨d, hd, rfl⟩ := h
  exact note (m := { m with chain := m.chain.popScope }) ⟨d, hd, rfl⟩ _

theorem enterCall (h : Faces S m m') : Faces S m.enterCall m'.enterCall := by
  obtain ⟨d, hd, rfl⟩ := h
  exact note (m := { m with chain := m.chain.pushFrame, activeCalls := m.activeCalls + 1 })
    ⟨d, hd, rfl⟩ _

theorem leaveCall (h : Faces S m m') : Faces S m.leaveCall m'.leaveCall := by
  obtain ⟨d, hd, rfl⟩ := h
  exact note (m := { m with chain := m.chain.popFrame, activeCalls := m.activeCalls - 1 })
    ⟨d, hd, rfl⟩ _

end Faces

end Machine

theorem Parallel.outcome_final {C D α : Type} {R : Machine C → Machine D → Prop} {x : Exec C α}
    {y : Exec D α} {m : Machine C} {m' : Machine D} (h : Parallel R (x m) (y m')) :
    x.outcome m = y.outcome m' ∧ R (x.final m) (y.final m') := by
  unfold Exec.outcome Exec.final
  generalize x m = r at h
  generalize y m' = r' at h
  cases h with
  | ok a h => exact ⟨rfl, h⟩
  | error e h => exact ⟨rfl, h⟩

namespace Exec

open Machine (Faces)

variable {C D α : Type} {S : C → D → Prop}

/-! ## Steps that do not touch the channel -/

theorem note_mirrors (e : Event) : Mirrors (Faces S) (note e : Exec C Unit) (note e) :=
  fun _ _ h => .ok () (h.note e)

theorem fail_mirrors (cause : Cause) (span : Span) :
    Mirrors (Faces S) (fail cause span : Exec C α) (fail cause span) := .throw' _

theorem ofExcept_mirrors (span : Span) (r : Except Cause α) :
    Mirrors (Faces S) (ofExcept span r : Exec C α) (ofExcept span r) := by
  cases r with
  | ok a => exact .pure' a
  | error cause => exact fail_mirrors cause span

theorem between_mirrors {enter leave : Machine C → Machine C}
    {enter' leave' : Machine D → Machine D} {x : Exec C α} {y : Exec D α}
    (henter : ∀ m m', Faces S m m' → Faces S (enter m) (enter' m'))
    (hleave : ∀ m m', Faces S m m' → Faces S (leave m) (leave' m')) (hx : Mirrors (Faces S) x y) :
    Mirrors (Faces S) (between enter leave x) (between enter' leave' y) := by
  intro m m' h
  have hxy := hx _ _ (henter m m' h)
  unfold between
  generalize x (enter m) = r at hxy ⊢
  generalize y (enter' m') = r' at hxy ⊢
  cases hxy with
  | ok a h => exact .ok a (hleave _ _ h)
  | error e h => exact .error e (hleave _ _ h)

theorem inScope_mirrors {x : Exec C α} {y : Exec D α} (hx : Mirrors (Faces S) x y) :
    Mirrors (Faces S) (inScope x) (inScope y) :=
  between_mirrors (fun _ _ h => h.pushScope) (fun _ _ h => h.popScope) hx

theorem inFrame_mirrors {x : Exec C α} {y : Exec D α} (hx : Mirrors (Faces S) x y) :
    Mirrors (Faces S) (inFrame x) (inFrame y) :=
  between_mirrors (fun _ _ h => h.enterCall) (fun _ _ h => h.leaveCall) hx

theorem define_mirrors (name : Ident) (b : Binding) :
    Mirrors (Faces S) (define name b : Exec C Unit) (define name b) := by
  rintro m _ ⟨d, hd, rfl⟩
  unfold define
  simp only [Machine.tuned]
  cases m.chain.define name.name b with
  | none => exact .error _ ⟨d, hd, rfl⟩
  | some chain => exact .ok () ⟨d, hd, rfl⟩

theorem lookup_mirrors (name : String) :
    Mirrors (Faces S) (lookup name : Exec C (Option Binding)) (lookup name) := by
  rintro m _ ⟨d, hd, rfl⟩
  exact .ok _ ⟨d, hd, rfl⟩

theorem set_mirrors (name : String) (v : Decimal) :
    Mirrors (Faces S) (set name v : Exec C Unit) (set name v) := by
  rintro m _ ⟨d, hd, rfl⟩
  rw [set_ok, set_ok]
  exact .ok () ⟨d, hd, rfl⟩

theorem isWritable_mirrors (target : Ident) :
    Mirrors (Faces S) (isWritable target : Exec C Bool) (isWritable target) := by
  refine .bind' (lookup_mirrors target.name) (fun found => ?_)
  cases found with
  | none => exact .pure' _
  | some b =>
    simp only
    split
    · exact .pure' _
    · exact fail_mirrors _ _

theorem nameValue_mirrors (name : Ident) :
    Mirrors (Faces S) (nameValue name : Exec C Decimal) (nameValue name) := by
  unfold nameValue
  split
  · exact .pure' _
  · refine .bind' (lookup_mirrors name.name) (fun found => ?_)
    cases found with
    | none => exact fail_mirrors _ _
    | some b => exact .pure' _

theorem bindParams_mirrors (params : List Ident) (values : List Decimal) :
    Mirrors (Faces S) (bindParams params values : Exec C Unit) (bindParams params values) := by
  induction params generalizing values with
  | nil => exact .pure' ()
  | cons p params ih =>
    cases values with
    | nil => exact .pure' ()
    | cons v values => exact .bind' (define_mirrors p ⟨v, true⟩) (fun _ => ih values)

theorem callee_mirrors (name : Ident) (args : Nat) (span : Span) :
    Mirrors (Faces S) (callee name args span : Exec C Function) (callee name args span) := by
  rintro m _ ⟨d, hd, rfl⟩
  have hm : Faces S m (m.tuned d) := ⟨d, hd, rfl⟩
  have hget : (get : Exec C (Machine C)) m = .ok m m := rfl
  have hget' : (get : Exec D (Machine D)) (m.tuned d) = .ok (m.tuned d) (m.tuned d) := rfl
  unfold callee
  rw [bind_ok hget, bind_ok hget']
  simp only [Machine.tuned]
  cases m.functions[name.name]? with
  | none => exact fail_mirrors _ _ _ _ hm
  | some f =>
    show Parallel _
      ((if f.params.length ≠ args then _ else if m.callLimit ≤ m.activeCalls then _ else _ :
        Exec C Function) m)
      ((if f.params.length ≠ args then _ else if m.callLimit ≤ m.activeCalls then _ else _ :
        Exec D Function) (m.tuned d))
    by_cases hn : f.params.length ≠ args
    · rw [if_pos hn, if_pos hn]
      exact fail_mirrors _ _ _ _ hm
    · rw [if_neg hn, if_neg hn]
      by_cases hl : m.callLimit ≤ m.activeCalls
      · rw [if_pos hl, if_pos hl]
        exact fail_mirrors _ _ _ _ hm
      · rw [if_neg hl, if_neg hl]
        exact .ok f hm

theorem callResult_mirrors (f : Function) (span : Span) (flow : Flow) :
    Mirrors (Faces S) (callResult f span flow : Exec C Decimal) (callResult f span flow) := by
  cases flow with
  | returned v => exact .pure' v
  | normal => exact fail_mirrors _ _

theorem addFunction_mirrors (f : Function) :
    Mirrors (Faces S) (addFunction f : Exec C Unit) (addFunction f) := by
  rintro m _ ⟨d, hd, rfl⟩
  have hm : Faces S m (m.tuned d) := ⟨d, hd, rfl⟩
  have hget : (get : Exec C (Machine C)) m = .ok m m := rfl
  have hget' : (get : Exec D (Machine D)) (m.tuned d) = .ok (m.tuned d) (m.tuned d) := rfl
  have hknow : ∀ {m : Machine C} {m' : Machine D}, Faces S m m' →
      Faces S (m.knowing f) (m'.knowing f) := by
    rintro m _ ⟨d, hd, rfl⟩
    exact ⟨d, hd, rfl⟩
  unfold addFunction
  rw [bind_ok hget, bind_ok hget']
  show Parallel _ ((if m.functions.contains f.name.name then _ else _ : Exec C Unit) m)
    ((if m.functions.contains f.name.name then _ else _ : Exec D Unit) _)
  split
  · exact fail_mirrors _ _ _ _ hm
  · split
    · exact .ok () (hknow (hm.note _))
    · exact .ok () (hknow hm)

theorem register_mirrors (constants : Nat) (items : List Item) :
    Mirrors (Faces S) (register constants items : Exec C Unit) (register constants items) := by
  induction items generalizing constants with
  | nil =>
    rintro m _ ⟨d, hd, rfl⟩
    exact .ok () (.note ⟨d, hd, rfl⟩ _)
  | cons i items ih =>
    cases i with
    | constant decl => exact .bind' (define_mirrors decl.name _) (fun _ => ih (constants + 1))
    | function f => exact .bind' (addFunction_mirrors f) (fun _ => ih constants)
    | statement s => exact ih constants

/-! ## Reading and writing -/

/-- The channels answer alike. -/
class Tuned [Channel C] [Channel D] (S : C → D → Prop) : Prop where
  read : Mirrors S (Channel.read : EStateM Error C Decimal) Channel.read
  write : ∀ v, Mirrors S (Channel.write v : EStateM Error C Unit) (Channel.write v)

variable [Channel C] [Channel D]

theorem read_mirrors [hS : Tuned S] : Mirrors (Faces S) (read : Exec C Decimal) read := by
  rintro m _ ⟨d, hd, rfl⟩
  have hr := hS.read _ _ hd
  unfold read
  simp only [Machine.tuned]
  generalize Channel.read m.channel = r at hr
  generalize Channel.read d = r' at hr
  cases hr with
  | ok v h => exact .ok v ⟨_, h, rfl⟩
  | error e h => exact .error _ ⟨_, h, rfl⟩

theorem write_mirrors [hS : Tuned S] (v : Decimal) :
    Mirrors (Faces S) (write v : Exec C Unit) (write v) := by
  rintro m _ ⟨d, hd, rfl⟩
  have hw := hS.write v _ _ hd
  unfold write
  simp only [Machine.tuned]
  generalize Channel.write v m.channel = r at hw
  generalize Channel.write v d = r' at hw
  cases hw with
  | ok u h => exact .ok () ⟨_, h, rfl⟩
  | error e h => exact .error _ ⟨_, h, rfl⟩

/-! ## Expressions and statements -/

mutual

theorem evaluate_mirrors [Tuned S] (n : Nat) (e : Expr) :
    Mirrors (Faces S) (evaluate n e : Exec C Decimal) (evaluate n e) := by
  match n, e with
  | 0, _ => simp only [evaluate]; exact .throw' _
  | n + 1, .number v _ => exact .pure' v
  | n + 1, .constant c _ => exact .pure' c.value
  | n + 1, .var name => exact nameValue_mirrors name
  | n + 1, .unary op operand _ =>
    exact .bind' (evaluate_mirrors n operand) (fun v => .pure' (op.apply v))
  | n + 1, .binary op left right span =>
    refine .bind' (evaluate_mirrors n left) (fun a => ?_)
    exact .bind' (evaluate_mirrors n right) (fun b => ofExcept_mirrors span (op.apply a b))
  | n + 1, .call name args span =>
    refine .bind' (evaluateAll_mirrors n args) (fun values => ?_)
    cases Builtin.ofName? name.name with
    | some b => exact ofExcept_mirrors span _
    | none => exact invoke_mirrors n name values span
  | n + 1, .text _ span => exact fail_mirrors _ span
termination_by n

theorem evaluateAll_mirrors [Tuned S] (n : Nat) (es : List Expr) :
    Mirrors (Faces S) (evaluateAll n es : Exec C (List Decimal)) (evaluateAll n es) := by
  match n, es with
  | 0, _ => simp only [evaluateAll]; exact .throw' _
  | n + 1, [] => exact .pure' []
  | n + 1, e :: es =>
    refine .bind' (evaluate_mirrors n e) (fun v => ?_)
    exact .bind' (evaluateAll_mirrors n es) (fun vs => .pure' (v :: vs))
termination_by n

theorem invoke_mirrors [Tuned S] (n : Nat) (name : Ident) (values : List Decimal) (span : Span) :
    Mirrors (Faces S) (invoke n name values span : Exec C Decimal) (invoke n name values span) := by
  match n with
  | 0 => simp only [invoke]; exact .throw' _
  | n + 1 =>
    simp only [invoke, deepening_eq]
    refine .bind' (callee_mirrors name values.length span) (fun f => ?_)
    refine .bind' (note_mirrors _) (fun _ => inFrame_mirrors ?_)
    refine .bind' (bindParams_mirrors f.params values) (fun _ => ?_)
    refine .bind' (inScope_mirrors (executeAll_mirrors n true f.body.statements)) (fun flow => ?_)
    exact callResult_mirrors f span flow
termination_by n

theorem execute_mirrors [Tuned S] (n : Nat) (inFunction : Bool) (s : Stmt) :
    Mirrors (Faces S) (execute n inFunction s : Exec C Flow) (execute n inFunction s) := by
  match n, s with
  | 0, _ => simp only [execute]; exact .throw' _
  | n + 1, .declare name _ =>
    exact .bind' (define_mirrors name _) (fun _ => .pure' _)
  | n + 1, .assign target value _ =>
    refine .bind' (evaluate_mirrors n value) (fun v => ?_)
    refine .bind' (isWritable_mirrors target) (fun writable => ?_)
    cases writable with
    | true => exact .bind' (set_mirrors target.name v) (fun _ => .pure' _)
    | false => exact fail_mirrors _ _
  | n + 1, .input target _ =>
    refine .bind' (isWritable_mirrors target) (fun declared => ?_)
    refine .bind' read_mirrors (fun v => ?_)
    cases declared with
    | true => exact .bind' (set_mirrors target.name v) (fun _ => .pure' _)
    | false => exact .bind' (define_mirrors target _) (fun _ => .pure' _)
  | n + 1, .output value _ =>
    refine .bind' (evaluate_mirrors n value) (fun v => ?_)
    exact .bind' (write_mirrors v) (fun _ => .pure' _)
  | n + 1, .choose condition yes no _ =>
    refine .bind' (evaluate_mirrors n condition) (fun v => ?_)
    split
    · exact inScope_mirrors (executeAll_mirrors n inFunction yes.statements)
    · cases no with
      | some b => exact inScope_mirrors (executeAll_mirrors n inFunction b.statements)
      | none => exact .pure' _
  | n + 1, .repeatWhile condition body _ => exact executeWhile_mirrors n inFunction condition body
  | n + 1, .count counter first last body span =>
    refine .bind' (evaluate_mirrors n first) (fun a => ?_)
    refine .bind' (evaluate_mirrors n last) (fun b => ?_)
    refine .bind' (note_mirrors _) (fun _ => inScope_mirrors ?_)
    refine .bind' (define_mirrors counter _) (fun _ => ?_)
    exact executeCount_mirrors n inFunction counter.name a b body span
  | n + 1, .giveBack value span =>
    show Mirrors (Faces S) (if inFunction then _ else _) (if inFunction then _ else _)
    split
    · exact .bind' (evaluate_mirrors n value) (fun v => .pure' _)
    · exact fail_mirrors _ span
  | n + 1, .block b => exact inScope_mirrors (executeAll_mirrors n inFunction b.statements)
  | n + 1, .evaluate e _ => exact .bind' (evaluate_mirrors n e) (fun _ => .pure' _)
termination_by n

theorem executeAll_mirrors [Tuned S] (n : Nat) (inFunction : Bool) (ss : List Stmt) :
    Mirrors (Faces S) (executeAll n inFunction ss : Exec C Flow) (executeAll n inFunction ss) := by
  match n, ss with
  | 0, _ => simp only [executeAll]; exact .throw' _
  | n + 1, [] => exact .pure' _
  | n + 1, s :: ss =>
    refine .bind' (execute_mirrors n inFunction s) (fun flow => ?_)
    cases flow with
    | returned v => exact .pure' _
    | normal => exact executeAll_mirrors n inFunction ss
termination_by n

theorem executeWhile_mirrors [Tuned S] (n : Nat) (inFunction : Bool) (condition : Expr)
    (body : Block) :
    Mirrors (Faces S) (executeWhile n inFunction condition body : Exec C Flow)
      (executeWhile n inFunction condition body) := by
  match n with
  | 0 => simp only [executeWhile]; exact .throw' _
  | n + 1 =>
    refine .bind' (evaluate_mirrors n condition) (fun v => ?_)
    split
    · refine .bind' (inScope_mirrors (executeAll_mirrors n inFunction body.statements))
        (fun flow => ?_)
      cases flow with
      | returned v => exact .pure' _
      | normal => exact executeWhile_mirrors n inFunction condition body
    · exact .pure' _
termination_by n

theorem executeCount_mirrors [Tuned S] (n : Nat) (inFunction : Bool) (name : String)
    (counter last : Decimal) (body : Block) (span : Span) :
    Mirrors (Faces S) (executeCount n inFunction name counter last body span : Exec C Flow)
      (executeCount n inFunction name counter last body span) := by
  match n with
  | 0 => simp only [executeCount]; exact .throw' _
  | n + 1 =>
    show Mirrors (Faces S) (if counter.le last then _ else _) (if counter.le last then _ else _)
    split
    · refine .bind' (set_mirrors name counter) (fun _ => ?_)
      refine .bind' (inScope_mirrors (executeAll_mirrors n inFunction body.statements))
        (fun flow => ?_)
      cases flow with
      | returned v => exact .pure' _
      | normal =>
        dsimp only
        cases counter.add .one with
        | some next => exact executeCount_mirrors n inFunction name next last body span
        | none => exact fail_mirrors _ span
    · exact .pure' _
termination_by n

end

/-! ## Programs -/

theorem executeItems_mirrors [Tuned S] (n : Nat) (items : List Item) :
    Mirrors (Faces S) (executeItems n items : Exec C Unit) (executeItems n items) := by
  induction items with
  | nil => exact .pure' ()
  | cons i items ih =>
    cases i with
    | statement s => exact .bind' (execute_mirrors n false s) (fun _ => ih)
    | constant decl => exact ih
    | function f => exact ih

/-- A program cannot tell the channels apart. -/
theorem runIn_mirrors [Tuned S] (n : Nat) (p : Program) :
    Mirrors (Faces S) (runIn n p : Exec C Unit) (runIn n p) := by
  have hforget : Mirrors (Faces S) (modify fun m => { m with functions := ∅ } : Exec C Unit)
      (modify fun m => { m with functions := ∅ }) := by
    rintro m _ ⟨d, hd, rfl⟩
    exact .ok () ⟨d, hd, rfl⟩
  refine .bind' hforget (fun _ => ?_)
  exact .bind' (register_mirrors 0 p.items) (fun _ => executeItems_mirrors n p.items)

end Exec

end Bello
