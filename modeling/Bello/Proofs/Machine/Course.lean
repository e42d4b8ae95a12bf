import Bello.Proofs.Machine.Bound
import Bello.Proofs.Machine.Confinement
import Bello.Proofs.Scope.Effects

/- Pieces that are followed to their end.

   Courses are put together as the pieces of a run are, in sequence and in scopes, and an end
   of the whole is made of ends of the parts (`settles_bind`, `settles_inScope`). The courses of blocks, choices, loops and calls are
   related to those of their parts by a law each, in which no bound is left. -/
namespace Bello

namespace Machine

variable {C : Type}

/-- The machine with a new value for what is seen under the name. -/
def assigned (m : Machine C) (name : String) (v : Decimal) : Machine C :=
  { m with chain := (m.chain.set? name v).getD m.chain }

/-- The machine on which a counting loop begins: in a new scope, with its variable. -/
def counting (m : Machine C) (counter : Ident) (first last : Decimal) : Machine C :=
  { (m.note (.counting counter.name first last)).pushScope with
    chain := m.chain.opened counter.name ⟨first, true⟩ }

end Machine

namespace Exec

variable {C α β : Type}

/-- The variable of a counting loop can always be declared. -/
theorem define_counting (m : Machine C) (counter : Ident) (first last : Decimal) :
    define counter ⟨first, true⟩ (m.note (.counting counter.name first last)).pushScope =
      .ok () (m.counting counter first last) := by
  refine define_ok ?_
  simp only [Machine.pushScope, Machine.note_eq]
  exact m.chain.define_pushScope counter.name ⟨first, true⟩

namespace Course

variable {x y : Course C α} {m m' m₁ m₂ : Machine C} {r r' : Except Error α}

/-- What is kept at every bound is kept by the whole course. -/
theorem Settles.keeps {R : Machine C → Machine C → Prop} (h : x.Settles m r m')
    (hx : ∀ n, Keeps R (x.upTo n)) : R m m' := by
  obtain ⟨n, hn⟩ := h
  rw [← final_ending hn]
  exact hx n m

/-- The course that is the other one with its bound grown by one has the same ends. -/
theorem settles_of_succ (h : ∀ n, x.upTo (n + 1) = y.upTo n) :
    x.Settles m r m' ↔ y.Settles m r m' := by
  constructor
  · rintro ⟨n, hn⟩
    exact ⟨n, by rw [← h n]; exact x.later hn 1⟩
  · rintro ⟨n, hn⟩
    exact ⟨n + 1, by rw [h n]; exact hn⟩

/-! ## Putting courses together -/

/-- A step, which needs no bound. -/
def step (x : Exec C α) : Course C α := ⟨fun _ => x, fun _ => .refl x⟩

def bind (x : Course C α) (f : α → Course C β) : Course C β :=
  ⟨fun n => x.upTo n >>= fun a => (f a).upTo n,
    fun n => .bind' (x.grows n) (fun a => (f a).grows n)⟩

theorem bind_upTo (x : Course C α) (f : α → Course C β) (n : Nat) {next : α → Exec C β}
    (h : ∀ a, next a = (f a).upTo n) : x.upTo n >>= next = (x.bind f).upTo n := by
  rw [show next = fun a => (f a).upTo n from funext h]
  rfl

/-- A course with something done before and after it, however it ends. -/
def around (enter leave : Machine C → Machine C) (x : Course C α) : Course C α :=
  ⟨fun n => between enter leave (x.upTo n), fun n => .between' enter leave (x.grows n)⟩

/-- A course in a scope of its own. -/
def inScope (x : Course C α) : Course C α := x.around .pushScope .popScope

/-- A course in a frame of its own. -/
def inFrame (x : Course C α) : Course C α := x.around .enterCall .leaveCall

theorem settles_step {x : Exec C α} : (step x).Settles m r m' ↔ x m = ending r m' :=
  ⟨fun ⟨_, h⟩ => h, fun h => ⟨0, h⟩⟩

theorem settles_step_of_eq {x : Exec C α} {s : Except Error α} (h : x m = ending s m₁) :
    (step x).Settles m r m' ↔ r = s ∧ m' = m₁ := by
  rw [settles_step, h]
  constructor
  · intro he
    obtain ⟨hr, hm⟩ := ending_inj he
    exact ⟨hr.symm, hm.symm⟩
  · rintro ⟨rfl, rfl⟩
    rfl

theorem settles_pure {a : α} : (step (pure a : Exec C α)).Settles m r m' ↔ r = .ok a ∧ m' = m :=
  settles_step_of_eq (s := .ok a) rfl

theorem settles_fail {cause : Cause} {span : Span} :
    (step (fail cause span : Exec C α)).Settles m r m' ↔ r = .error (cause.at span) ∧ m' = m :=
  settles_step_of_eq (s := .error (cause.at span)) rfl

theorem settles_around {enter leave : Machine C → Machine C} :
    (x.around enter leave).Settles m r m' ↔ ∃ m₁, x.Settles (enter m) r m₁ ∧ m' = leave m₁ := by
  constructor
  · rintro ⟨n, hn⟩
    unfold around between at hn
    cases hx : x.upTo n (enter m) with
    | ok a m₁ =>
      simp only [hx] at hn
      obtain ⟨rfl, rfl⟩ := ending_inj (r := .ok a) hn
      exact ⟨m₁, ⟨n, hx⟩, rfl⟩
    | error s m₁ =>
      simp only [hx] at hn
      cases r with
      | ok a => cases hn
      | error e => cases hn; exact ⟨m₁, ⟨n, hx⟩, rfl⟩
  · rintro ⟨m₁, ⟨n, hn⟩, rfl⟩
    refine ⟨n, ?_⟩
    unfold around between
    cases r <;> simp only [hn, ending]

theorem settles_inScope :
    x.inScope.Settles m r m' ↔ ∃ m₁, x.Settles m.pushScope r m₁ ∧ m' = m₁.popScope :=
  settles_around

/-- What follows a course that has come to an end with a value. -/
theorem settles_bind_ok {f : α → Course C β} {a : α} {r : Except Error β}
    (h : x.Settles m (.ok a) m₁) :
    (x.bind f).Settles m r m' ↔ (f a).Settles m₁ r m' := by
  constructor
  · intro hbind
    obtain ⟨n, hx, hall⟩ := h.together hbind
    exact ⟨n, (bind_ok hx).symm.trans hall⟩
  · intro hf
    obtain ⟨n, hx, hrest⟩ := h.together hf
    exact ⟨n, (bind_ok hx).trans hrest⟩

theorem settles_bind {f : α → Course C β} {r : Except Error β} :
    (x.bind f).Settles m r m' ↔
      (∃ a m₁, x.Settles m (.ok a) m₁ ∧ (f a).Settles m₁ r m') ∨
      ∃ e, r = .error e ∧ x.Settles m (.error e) m' := by
  constructor
  · rintro ⟨n, hn⟩
    have hbind : (x.upTo n >>= fun a => (f a).upTo n) m = ending r m' := hn
    cases hx : x.upTo n m with
    | ok a m₁ =>
      rw [bind_ok hx] at hbind
      exact .inl ⟨a, m₁, ⟨n, hx⟩, ⟨n, hbind⟩⟩
    | error s m₁ =>
      rw [bind_error hx] at hbind
      cases r with
      | ok b => cases hbind
      | error e => cases hbind; exact .inr ⟨e, rfl, ⟨n, hx⟩⟩
  · rintro (⟨a, m₁, hx, hf⟩ | ⟨e, rfl, n, hn⟩)
    · exact (settles_bind_ok hx).2 hf
    · exact ⟨n, bind_error hn⟩

/-- The second course runs when the first one ends normally; a return is passed on. -/
def andThen (x y : Course C Flow) : Course C Flow :=
  x.bind fun flow =>
    match flow with
    | .returned v => step (pure (.returned v))
    | .normal => y

/-- Doing so with the flow of the first course is running the two together. -/
theorem andThen_upTo (x y : Course C Flow) (n : Nat) {next : Flow → Exec C Flow}
    (hreturned : ∀ v, next (.returned v) = pure (.returned v))
    (hnormal : next .normal = y.upTo n) : x.upTo n >>= next = (x.andThen y).upTo n := by
  refine bind_upTo x _ n (fun flow => ?_)
  cases flow with
  | normal => exact hnormal
  | returned v => exact hreturned v

theorem settles_andThen {x y : Course C Flow} {r : Except Error Flow} :
    (x.andThen y).Settles m r m' ↔
      (∃ m₁, x.Settles m (.ok .normal) m₁ ∧ y.Settles m₁ r m') ∨
      (r ≠ .ok .normal ∧ x.Settles m r m') := by
  unfold andThen
  rw [settles_bind]
  constructor
  · rintro (⟨flow, m₁, hx, hy⟩ | ⟨e, rfl, hx⟩)
    · cases flow with
      | normal => exact .inl ⟨m₁, hx, hy⟩
      | returned v =>
        obtain ⟨rfl, rfl⟩ := settles_pure.1 hy
        exact .inr ⟨by simp, hx⟩
    · exact .inr ⟨by simp, hx⟩
  · rintro (⟨m₁, hx, hy⟩ | ⟨hr, hx⟩)
    · exact .inl ⟨.normal, m₁, hx, hy⟩
    · cases r with
      | error e => exact .inr ⟨e, rfl, hx⟩
      | ok flow =>
        cases flow with
        | normal => exact absurd rfl hr
        | returned v => exact .inl ⟨.returned v, m', hx, settles_pure.2 ⟨rfl, rfl⟩⟩

/-! ## The courses of a run -/

variable [Channel C]

def value (e : Expr) : Course C Decimal := ⟨fun n => evaluate n e, fun n => evaluate_extends n e⟩

/-- What can be seen is not lost in a value. -/
theorem value_sees {e : Expr} {a : Decimal} (h : (value e).Settles m (.ok a) m')
    (hsee : m.chain.Sees) : m'.chain.Sees := by
  have hg : Confined .value m m' := h.keeps fun n => (evaluate_careful n e).confined
  exact (ScopeChain.sees_congr (hg hsee).size (hg hsee).bases).2 hsee

def call (name : Ident) (values : List Decimal) (span : Span) : Course C Decimal :=
  ⟨fun n => invoke n name values span, fun n => invoke_extends n name values span⟩

def statement (inFunction : Bool) (s : Stmt) : Course C Flow :=
  ⟨fun n => execute n inFunction s, fun n => execute_extends n inFunction s⟩

def sequence (inFunction : Bool) (ss : List Stmt) : Course C Flow :=
  ⟨fun n => executeAll n inFunction ss, fun n => executeAll_extends n inFunction ss⟩

def loop (inFunction : Bool) (condition : Expr) (body : Block) : Course C Flow :=
  ⟨fun n => executeWhile n inFunction condition body,
    fun n => executeWhile_extends n inFunction condition body⟩

/-- A counting loop from the moment when its counter has this value. -/
def rounds (inFunction : Bool) (name : String) (counter last : Decimal) (body : Block)
    (span : Span) : Course C Flow :=
  ⟨fun n => executeCount n inFunction name counter last body span,
    fun n => executeCount_extends n inFunction name counter last body span⟩

/-- The statements of a block in a scope of their own. -/
def block (inFunction : Bool) (b : Block) : Course C Flow :=
  (sequence inFunction b.statements).inScope

variable {inFunction : Bool} {r : Except Error Flow}

theorem settles_block {b : Block} :
    (statement inFunction (.block b)).Settles m r m' ↔ (block inFunction b).Settles m r m' :=
  settles_of_succ fun _ => rfl

/-- The branch of a choice that a value selects. -/
def branch (inFunction : Bool) (v : Decimal) (yes : Block) (no : Option Block) : Course C Flow :=
  if v.isTruthy then block inFunction yes
  else (no.map (block inFunction)).getD (step (pure .normal))

theorem settles_choose {condition : Expr} {yes : Block} {no : Option Block} {span : Span} :
    (statement inFunction (.choose condition yes no span)).Settles m r m' ↔
      ((value condition).bind fun v => branch inFunction v yes no).Settles m r m' := by
  refine settles_of_succ fun n => bind_upTo (value condition) _ n (fun v => ?_)
  unfold branch
  cases v.isTruthy with
  | true => rfl
  | false => cases no <;> rfl

theorem settles_sequence_cons {s : Stmt} {ss : List Stmt} :
    (sequence inFunction (s :: ss)).Settles m r m' ↔
      ((statement inFunction s).andThen (sequence inFunction ss)).Settles m r m' :=
  settles_of_succ fun n => andThen_upTo (statement inFunction s) _ n (fun _ => rfl) rfl

theorem settles_repeatWhile {condition : Expr} {body : Block} {span : Span} :
    (statement inFunction (.repeatWhile condition body span)).Settles m r m' ↔
      (loop inFunction condition body).Settles m r m' :=
  settles_of_succ fun _ => rfl

theorem settles_loop {condition : Expr} {body : Block} :
    (loop inFunction condition body).Settles m r m' ↔
      ((value condition).bind fun v =>
        if v.isTruthy then (block inFunction body).andThen (loop inFunction condition body)
        else step (pure .normal)).Settles m r m' := by
  refine settles_of_succ fun n => bind_upTo (value condition) _ n (fun v => ?_)
  cases v.isTruthy with
  | true => exact andThen_upTo (block inFunction body) _ n (fun _ => rfl) rfl
  | false => rfl

/-- What a call does once its function is known. -/
def callBody (f : Function) (values : List Decimal) (span : Span) : Course C Decimal :=
  (step (bindParams f.params values)).bind fun _ =>
    (block true f.body).bind fun flow => step (callResult f span flow)

theorem settles_call {name : Ident} {values : List Decimal} {span : Span}
    {r : Except Error Decimal} :
    (call name values span).Settles m r m' ↔
      ((step (callee name values.length span)).bind fun f =>
        (step (note (.called name.name values.length))).bind fun _ =>
          (callBody f values span).inFrame).Settles m r m' := by
  refine settles_of_succ fun n => ?_
  show invoke (n + 1) name values span = _
  simp only [invoke, deepening_eq]
  rfl

/-- What comes after a round of a counting loop: the next one, if there is a next number. -/
def nextRound (inFunction : Bool) (name : String) (counter last : Decimal) (body : Block)
    (span : Span) : Course C Flow :=
  match counter.add .one with
  | some next => rounds inFunction name next last body span
  | none => step (fail (.overflow "again") span)

section Counting

variable {name : String} {counter last : Decimal} {body : Block} {span : Span}

theorem settles_rounds_beyond (h : counter.le last = false) :
    (rounds inFunction name counter last body span).Settles m r m' ↔ r = .ok .normal ∧ m' = m := by
  rw [← settles_pure]
  refine settles_of_succ fun n => ?_
  show executeCount (n + 1) inFunction name counter last body span = pure .normal
  simp only [executeCount, h, Bool.false_eq_true, if_false]

theorem settles_rounds (h : counter.le last = true) :
    (rounds inFunction name counter last body span).Settles m r m' ↔
      ((block inFunction body).andThen
        (nextRound inFunction name counter last body span)).Settles
          (m.assigned name counter) r m' := by
  have hset : (step (set name counter)).Settles m (.ok ()) (m.assigned name counter) :=
    settles_step.2 (set_ok name counter m)
  refine Iff.trans (settles_of_succ fun n => ?_) (settles_bind_ok hset
    (f := fun _ => (block inFunction body).andThen
      (nextRound inFunction name counter last body span)))
  show executeCount (n + 1) inFunction name counter last body span = _
  simp only [executeCount, h, if_true]
  refine bind_upTo (step (set name counter)) _ n (fun _ => ?_)
  refine andThen_upTo (block inFunction body) _ n (fun _ => rfl) ?_
  unfold nextRound
  cases counter.add .one <;> rfl

end Counting

theorem settles_count {counter : Ident} {first last : Expr} {a b : Decimal} {body : Block}
    {span : Span} (hfirst : (value first).Settles m (.ok a) m₁)
    (hlast : (value last).Settles m₁ (.ok b) m₂) :
    (statement inFunction (.count counter first last body span)).Settles m r m' ↔
      ∃ m₃, (rounds inFunction counter.name a b body span).Settles (m₂.counting counter a b) r m₃ ∧
        m' = m₃.popScope := by
  have hsucc : (statement inFunction (.count counter first last body span)).Settles m r m' ↔
      ((value first).bind fun a => (value last).bind fun b =>
        (step (note (.counting counter.name a b))).bind fun _ =>
          ((step (define counter ⟨a, true⟩)).bind fun _ =>
            rounds inFunction counter.name a b body span).inScope).Settles m r m' :=
    settles_of_succ fun _ => rfl
  have hnote : (step (note (.counting counter.name a b))).Settles m₂ (.ok ())
      (m₂.note (.counting counter.name a b)) := settles_step.2 rfl
  rw [hsucc, settles_bind_ok hfirst, settles_bind_ok hlast, settles_bind_ok hnote,
    settles_inScope]
  have hdefine : (step (define counter ⟨a, true⟩)).Settles
      (m₂.note (.counting counter.name a b)).pushScope (.ok ()) (m₂.counting counter a b) :=
    settles_step.2 (define_counting m₂ counter a b)
  simp only [settles_bind_ok hdefine]

end Course

end Exec

end Bello
