import Bello.Channel
import Bello.Proofs.Machine.Course
import Bello.Proofs.Machine.Faults

/- A return goes to its call and no further.

   `Enters x m y m' k` is one step inward: in the course of `x` from the machine `m`, the
   course `y` begins on the machine `m'`, with `k` more scopes open. There is one rule for
   each way in which a statement, a sequence of statements or a loop goes on inside itself,
   and none for calls. `Reaches` is any number of such steps.

   A return that an inner course ends with is the end of every course around it, on the same
   machine but for the scopes that are closed on the way (`Reaches.returned`): nothing runs
   in between. And there is no return that does not begin with a return statement
   (`execute_origin` and the others), so there is none outside of functions. -/
namespace Bello

/-- The machine when the innermost scopes are closed, that many of them. -/
def Machine.popScopes {C : Type} (m : Machine C) : Nat → Machine C
  | 0 => m
  | k + 1 => (m.popScopes k).popScope

theorem Machine.popScopes_add {C : Type} (m : Machine C) (j k : Nat) :
    (m.popScopes j).popScopes k = m.popScopes (j + k) := by
  induction k with
  | zero => rfl
  | succ k ih => exact congrArg Machine.popScope ih

namespace Exec

open Course

variable {C α β : Type}

theorem bind_eq_ok {x : Exec C α} {f : α → Exec C β} {m m' : Machine C} {b : β}
    (h : (x >>= f) m = .ok b m') : ∃ a m₁, x m = .ok a m₁ ∧ f a m₁ = .ok b m' := by
  cases hx : x m with
  | ok a m₁ =>
    rw [bind_ok hx] at h
    exact ⟨a, m₁, rfl, h⟩
  | error s m₁ =>
    rw [bind_error hx] at h
    cases h

theorem inScope_eq_ok {x : Exec C α} {m m' : Machine C} {a : α} (h : inScope x m = .ok a m') :
    ∃ m₁, x m.pushScope = .ok a m₁ ∧ m' = m₁.popScope := by
  unfold inScope between at h
  cases hx : x m.pushScope with
  | ok a m₁ =>
    simp only [hx] at h
    cases h
    exact ⟨m₁, rfl, rfl⟩
  | error s m₁ =>
    simp only [hx] at h
    cases h

variable [Channel C]

/-! ## Courses inside courses -/

/-- In the course of `x` from `m`, the course `y` begins on `m'`, so many scopes further in. -/
inductive Enters (inFunction : Bool) :
    Course C Flow → Machine C → Course C Flow → Machine C → Nat → Prop where
  | statements (b : Block) (m : Machine C) :
      Enters inFunction (block inFunction b) m (sequence inFunction b.statements) m.pushScope 1
  | first (s : Stmt) (ss : List Stmt) (m : Machine C) :
      Enters inFunction (sequence inFunction (s :: ss)) m (statement inFunction s) m 0
  | later {s : Stmt} {ss : List Stmt} {m m₁ : Machine C} :
      (statement inFunction s).Settles m (.ok .normal) m₁ →
      Enters inFunction (sequence inFunction (s :: ss)) m (sequence inFunction ss) m₁ 0
  | block (b : Block) (m : Machine C) :
      Enters inFunction (statement inFunction (.block b)) m (block inFunction b) m 0
  | yes {condition : Expr} {v : Decimal} {m m₁ : Machine C} {yes : Block} {no : Option Block}
      {span : Span} :
      (value condition).Settles m (.ok v) m₁ → v.isTruthy = true →
      Enters inFunction (statement inFunction (.choose condition yes no span)) m
        (block inFunction yes) m₁ 0
  | no {condition : Expr} {v : Decimal} {m m₁ : Machine C} {yes no : Block} {span : Span} :
      (value condition).Settles m (.ok v) m₁ → v.isTruthy = false →
      Enters inFunction (statement inFunction (.choose condition yes (some no) span)) m
        (block inFunction no) m₁ 0
  | repeatWhile (condition : Expr) (body : Block) (span : Span) (m : Machine C) :
      Enters inFunction (statement inFunction (.repeatWhile condition body span)) m
        (loop inFunction condition body) m 0
  | body {condition : Expr} {v : Decimal} {m m₁ : Machine C} {body : Block} :
      (value condition).Settles m (.ok v) m₁ → v.isTruthy = true →
      Enters inFunction (loop inFunction condition body) m (block inFunction body) m₁ 0
  | again {condition : Expr} {v : Decimal} {m m₁ m₂ : Machine C} {body : Block} :
      (value condition).Settles m (.ok v) m₁ → v.isTruthy = true →
      (Course.block inFunction body).Settles m₁ (.ok .normal) m₂ →
      Enters inFunction (loop inFunction condition body) m (loop inFunction condition body) m₂ 0
  | count {counter : Ident} {first last : Expr} {a b : Decimal} {m m₁ m₂ : Machine C}
      {body : Block} {span : Span} :
      (value first).Settles m (.ok a) m₁ → (value last).Settles m₁ (.ok b) m₂ →
      Enters inFunction (statement inFunction (.count counter first last body span)) m
        (rounds inFunction counter.name a b body span) (m₂.counting counter a b) 1
  | round {counter last : Decimal} (name : String) (body : Block) (span : Span) (m : Machine C) :
      counter.le last = true →
      Enters inFunction (rounds inFunction name counter last body span) m
        (Course.block inFunction body) (m.assigned name counter) 0
  | next {name : String} {counter last next : Decimal} {body : Block} {span : Span}
      {m m₁ : Machine C} :
      counter.le last = true →
      (Course.block inFunction body).Settles (m.assigned name counter) (.ok .normal) m₁ →
      counter.add .one = some next →
      Enters inFunction (rounds inFunction name counter last body span) m
        (rounds inFunction name next last body span) m₁ 0

/-- In the course of `x` from `m`, the course `y` begins on `m'` at last, so many scopes
    further in. -/
inductive Reaches (inFunction : Bool) :
    Course C Flow → Machine C → Course C Flow → Machine C → Nat → Prop where
  | here (x : Course C Flow) (m : Machine C) : Reaches inFunction x m x m 0
  | enter {x y z : Course C Flow} {m m₁ m₂ : Machine C} {j k : Nat} :
      Enters inFunction x m y m₁ k → Reaches inFunction y m₁ z m₂ j →
      Reaches inFunction x m z m₂ (j + k)

variable {inFunction : Bool} {x y : Course C Flow} {m m₁ m₂ m' : Machine C} {v : Decimal}
  {k : Nat}

/-- A return passes through one step. -/
theorem Enters.returned (h : Enters inFunction x m y m₁ k)
    (hy : y.Settles m₁ (.ok (.returned v)) m₂) :
    x.Settles m (.ok (.returned v)) (m₂.popScopes k) := by
  -- In a sequence the return is not followed by anything.
  have hstop : ∀ {y z : Course C Flow} {m : Machine C}, y.Settles m (.ok (.returned v)) m₂ →
      (y.andThen z).Settles m (.ok (.returned v)) m₂ :=
    fun hy => settles_andThen.2 (.inr ⟨by simp, hy⟩)
  have hgo : ∀ {y z : Course C Flow} {m m₁ : Machine C}, y.Settles m (.ok .normal) m₁ →
      z.Settles m₁ (.ok (.returned v)) m₂ → (y.andThen z).Settles m (.ok (.returned v)) m₂ :=
    fun hy hz => settles_andThen.2 (.inl ⟨_, hy, hz⟩)
  cases h with
  | statements b m => exact settles_inScope.2 ⟨m₂, hy, rfl⟩
  | first s ss m => exact settles_sequence_cons.2 (hstop hy)
  | later hs => exact settles_sequence_cons.2 (hgo hs hy)
  | block b m => exact settles_block.2 hy
  | yes hc hv =>
    refine settles_choose.2 ((settles_bind_ok hc).2 ?_)
    rw [branch, if_pos hv]
    exact hy
  | no hc hv =>
    refine settles_choose.2 ((settles_bind_ok hc).2 ?_)
    rw [branch, if_neg (Bool.eq_false_iff.1 hv)]
    exact hy
  | repeatWhile condition body span m => exact settles_repeatWhile.2 hy
  | body hc hv =>
    refine settles_loop.2 ((settles_bind_ok hc).2 ?_)
    rw [if_pos hv]
    exact hstop hy
  | again hc hv hb =>
    refine settles_loop.2 ((settles_bind_ok hc).2 ?_)
    rw [if_pos hv]
    exact hgo hb hy
  | count hfirst hlast => exact (settles_count hfirst hlast).2 ⟨m₂, hy, rfl⟩
  | round name body span m hle => exact (settles_rounds hle).2 (hstop hy)
  | next hle hb hnext =>
    refine (settles_rounds hle).2 (hgo hb ?_)
    simpa only [nextRound, hnext] using hy

/-- A return passes through all of them, and closes the scopes that it leaves. -/
theorem Reaches.returned (h : Reaches inFunction x m y m₁ k)
    (hy : y.Settles m₁ (.ok (.returned v)) m₂) :
    x.Settles m (.ok (.returned v)) (m₂.popScopes k) := by
  induction h with
  | here x m => exact hy
  | enter hstep _ ih =>
    rw [← Machine.popScopes_add]
    exact hstep.returned (ih hy)

/-! ## Where returns come from -/

/-- The return of the course `x` begins with a return statement somewhere in it. -/
def Origin (inFunction : Bool) (x : Course C Flow) (m : Machine C) (v : Decimal)
    (m' : Machine C) : Prop :=
  ∃ e span m₁ m₂ k, Reaches inFunction x m (statement inFunction (.giveBack e span)) m₁ k ∧
    (statement inFunction (.giveBack e span)).Settles m₁ (.ok (.returned v)) m₂ ∧
    m' = m₂.popScopes k

theorem Origin.enter (h : Enters inFunction x m y m₁ k) (hy : Origin inFunction y m₁ v m₂) :
    Origin inFunction x m v (m₂.popScopes k) := by
  obtain ⟨e, span, n₁, n₂, j, hreach, hset, rfl⟩ := hy
  exact ⟨e, span, n₁, n₂, j + k, .enter h hreach, hset, n₂.popScopes_add j k⟩

theorem block_origin {n : Nat} {b : Block}
    (hall : ∀ {m m' : Machine C}, executeAll n inFunction b.statements m = .ok (.returned v) m' →
      Origin inFunction (sequence inFunction b.statements) m v m')
    (h : inScope (executeAll n inFunction b.statements) m = .ok (.returned v) m') :
    Origin inFunction (block inFunction b) m v m' := by
  obtain ⟨m₁, hx, rfl⟩ := inScope_eq_ok h
  exact (hall hx).enter (.statements b m)

mutual

theorem execute_origin (n : Nat) (s : Stmt) {m m' : Machine C}
    (h : execute n inFunction s m = .ok (.returned v) m') :
    Origin inFunction (statement inFunction s) m v m' := by
  match n, s with
  | 0, _ => cases h
  | n + 1, .declare _ _ =>
    obtain ⟨_, _, -, h⟩ := bind_eq_ok h
    cases h
  | n + 1, .assign _ _ _ =>
    obtain ⟨_, _, -, h⟩ := bind_eq_ok h
    obtain ⟨writable, _, -, h⟩ := bind_eq_ok h
    cases writable with
    | true => obtain ⟨_, _, -, h⟩ := bind_eq_ok h; cases h
    | false => cases h
  | n + 1, .input _ _ =>
    obtain ⟨declared, _, -, h⟩ := bind_eq_ok h
    obtain ⟨_, _, -, h⟩ := bind_eq_ok h
    cases declared with
    | true => obtain ⟨_, _, -, h⟩ := bind_eq_ok h; cases h
    | false => obtain ⟨_, _, -, h⟩ := bind_eq_ok h; cases h
  | n + 1, .output _ _ =>
    obtain ⟨_, _, -, h⟩ := bind_eq_ok h
    obtain ⟨_, _, -, h⟩ := bind_eq_ok h
    cases h
  | n + 1, .choose condition yes no span =>
    obtain ⟨w, m₁, hc, h⟩ := bind_eq_ok h
    have hc : (value condition).Settles m (.ok w) m₁ := ⟨n, hc⟩
    cases hw : w.isTruthy with
    | true =>
      rw [hw] at h
      exact (block_origin (executeAll_origin n yes.statements) h).enter (.yes hc hw)
    | false =>
      rw [hw] at h
      cases no with
      | some b => exact (block_origin (executeAll_origin n b.statements) h).enter (.no hc hw)
      | none => cases h
  | n + 1, .repeatWhile condition body span =>
    exact (executeWhile_origin n condition body h).enter (.repeatWhile condition body span m)
  | n + 1, .count counter first last body span =>
    obtain ⟨a, m₁, hfirst, h⟩ := bind_eq_ok h
    obtain ⟨b, m₂, hlast, h⟩ := bind_eq_ok h
    obtain ⟨_, _, hnote, h⟩ := bind_eq_ok h
    cases hnote
    obtain ⟨m₃, hx, rfl⟩ := inScope_eq_ok h
    rw [bind_ok (define_counting m₂ counter a b)] at hx
    exact (executeCount_origin n counter.name a b body span hx).enter
      (.count ⟨n, hfirst⟩ ⟨n, hlast⟩)
  | n + 1, .giveBack e span => exact ⟨e, span, m, m', 0, .here _ m, ⟨n + 1, h⟩, rfl⟩
  | n + 1, .block b =>
    exact (block_origin (executeAll_origin n b.statements) h).enter (.block b m)
  | n + 1, .evaluate _ _ =>
    obtain ⟨_, _, -, h⟩ := bind_eq_ok h
    cases h
termination_by n

theorem executeAll_origin (n : Nat) (ss : List Stmt) {m m' : Machine C}
    (h : executeAll n inFunction ss m = .ok (.returned v) m') :
    Origin inFunction (sequence inFunction ss) m v m' := by
  match n, ss with
  | 0, _ => cases h
  | n + 1, [] => cases h
  | n + 1, s :: ss =>
    obtain ⟨flow, m₁, hs, h⟩ := bind_eq_ok h
    cases flow with
    | returned w =>
      cases h
      exact (execute_origin n s hs).enter (.first s ss m)
    | normal => exact (executeAll_origin n ss h).enter (.later ⟨n, hs⟩)
termination_by n

theorem executeWhile_origin (n : Nat) (condition : Expr) (body : Block) {m m' : Machine C}
    (h : executeWhile n inFunction condition body m = .ok (.returned v) m') :
    Origin inFunction (loop inFunction condition body) m v m' := by
  match n with
  | 0 => cases h
  | n + 1 =>
    obtain ⟨w, m₁, hc, h⟩ := bind_eq_ok h
    cases hw : w.isTruthy with
    | false => rw [hw] at h; cases h
    | true =>
      rw [hw] at h
      obtain ⟨flow, m₂, hb, h⟩ := bind_eq_ok h
      cases flow with
      | returned u =>
        cases h
        exact (block_origin (executeAll_origin n body.statements) hb).enter (.body ⟨n, hc⟩ hw)
      | normal =>
        exact (executeWhile_origin n condition body h).enter (.again ⟨n, hc⟩ hw ⟨n, hb⟩)
termination_by n

theorem executeCount_origin (n : Nat) (name : String) (counter last : Decimal) (body : Block)
    (span : Span) {m m' : Machine C}
    (h : executeCount n inFunction name counter last body span m = .ok (.returned v) m') :
    Origin inFunction (rounds inFunction name counter last body span) m v m' := by
  match n with
  | 0 => cases h
  | n + 1 =>
    simp only [executeCount] at h
    cases hle : counter.le last with
    | false => rw [hle] at h; cases h
    | true =>
      rw [hle, if_pos rfl, bind_ok (set_ok name counter m)] at h
      obtain ⟨flow, m₁, hb, h⟩ := bind_eq_ok h
      cases flow with
      | returned u =>
        cases h
        exact (block_origin (executeAll_origin n body.statements) hb).enter
          (.round name body span m hle)
      | normal =>
        cases hnext : counter.add .one with
        | none => simp only [hnext] at h; cases h
        | some next =>
          simp only [hnext] at h
          exact (executeCount_origin n name next last body span h).enter (.next hle ⟨n, hb⟩ hnext)
termination_by n

end

theorem returned_iff_origin {s : Stmt} :
    (statement inFunction s).Settles m (.ok (.returned v)) m' ↔
      Origin inFunction (statement inFunction s) m v m' := by
  constructor
  · rintro ⟨n, hn⟩
    exact execute_origin n s hn
  · rintro ⟨e, span, m₁, m₂, k, hreach, hset, rfl⟩
    exact hreach.returned hset

/-- Outside of functions there is no return. -/
theorem execute_false_ne_returned (n : Nat) (s : Stmt) :
    execute n false s m ≠ .ok (.returned v) m' := by
  intro h
  obtain ⟨e, span, m₁, m₂, k, -, ⟨i, hi⟩, -⟩ := execute_origin n s h
  cases i with
  | zero => cases hi
  | succ i => cases hi

/-! ## Where returns are refused -/

/-- A return is refused nowhere, unless the channel says so. -/
def Grants (C : Type) [Channel C] : Stop → Prop
  | .failed e => e.cause = .returnOutsideFunction → Channel.Raises C e
  | .unfinished => True

theorem grants_admits :
    Admits (fun _ : Machine C => True) (fun _ _ => True) (Grants C) where
  ofFunctions _ _ _ h := h
  unfinished := trivial
  raised e he := fun _ => he
  common cause span hcommon _ := by
    intro hcause
    have hcause : cause = .returnOutsideFunction := hcause
    subst hcause
    cases hcommon
  known _ _ _ _ _ _ _ _ := trivial
  missing _ _ _ _ _ _ _ _ _ _ _ := fun h => by cases h

theorem execute_true_grants {n : Nat} {s : Stmt} {e : Error}
    (h : execute n true s m = .error (.failed e) m') (he : e.cause = .returnOutsideFunction) :
    Channel.Raises C e := by
  have hfaults := execute_faults (C := C) (s := s) grants_admits n (.inside _ _)
    (fun _ _ _ => trivial)
  rcases hfaults m trivial with ⟨_, _, hok, -⟩ | ⟨_, _, herr, -, hg⟩
  · rw [h] at hok
    cases hok
  · rw [h] at herr
    cases herr
    exact hg he

/-- What a script raises is about its inputs. -/
theorem script_raises {e : Error} (h : Channel.Raises Script e) : e.phase = .environment := by
  rw [Script.eq_of_raises h]
  rfl

theorem lineValue_error {line : List UInt8} {cause : Cause}
    (h : Console.lineValue line = .error cause) : cause.phase = .environment := by
  unfold Console.lineValue at h
  split at h
  · cases h; rfl
  · simp only at h
    split at h
    · cases h; rfl
    · split at h
      · cases h
      · cases h; rfl

/-- What a console raises is about its input and output. -/
theorem console_raises {e : Error} (h : Channel.Raises Console e) : e.phase = .environment := by
  obtain ⟨c, c', hread | ⟨v, hwrite⟩⟩ := h
  · have hread : Console.read c = .error e c' := hread
    unfold Console.read at hread
    split at hread
    · cases hread; rfl
    · simp only at hread
      split at hread
      · cases hread
      · next hline => cases hread; exact lineValue_error hline
  · have hwrite : Console.write v c = .error e c' := hwrite
    unfold Console.write at hwrite
    simp only at hwrite
    split at hwrite
    · cases hwrite
    · split at hwrite
      · cases hwrite
      · cases hwrite; rfl

theorem script_not_raises {e : Error} (he : e.cause = .returnOutsideFunction) :
    ¬ Channel.Raises Script e := by
  intro h
  have hphase := script_raises h
  rw [Error.phase, he] at hphase
  cases hphase

theorem console_not_raises {e : Error} (he : e.cause = .returnOutsideFunction) :
    ¬ Channel.Raises Console e := by
  intro h
  have hphase := console_raises h
  rw [Error.phase, he] at hphase
  cases hphase

/-! ## The call -/

/-- A call has a value when the body of its function returns it. -/
theorem call_settles_ok {name : Ident} {values : List Decimal} {span : Span} :
    (call name values span).Settles m (.ok v) m' ↔
      ∃ f m₁ m₂, callee name values.length span m = .ok f m ∧
        bindParams f.params values (m.note (.called name.name values.length)).enterCall =
          .ok () m₁ ∧
        (block true f.body).Settles m₁ (.ok (.returned v)) m₂ ∧ m' = m₂.leaveCall := by
  rw [settles_call]
  rcases callee_cases name values.length span m m rfl rfl rfl with ⟨f, hf, -, -⟩ | ⟨s, hs, -⟩
  · have hcallee : (step (callee name values.length span)).Settles m (.ok f) m :=
      settles_step.2 hf
    have hnote : (step (note (.called name.name values.length))).Settles m (.ok ())
        (m.note (.called name.name values.length)) := settles_step.2 rfl
    rw [settles_bind_ok hcallee, settles_bind_ok hnote, Course.inFrame, settles_around]
    constructor
    · rintro ⟨m₂, hbody, rfl⟩
      rcases settles_bind.1 hbody with ⟨_, m₁, hparams, hblock⟩ | ⟨e, he, -⟩
      · rcases settles_bind.1 hblock with ⟨flow, m₃, hflow, hresult⟩ | ⟨e, he, -⟩
        · cases flow with
          | normal => cases settles_step.1 hresult
          | returned w =>
            obtain ⟨hw, rfl⟩ := settles_pure.1 hresult
            cases hw
            exact ⟨f, m₁, m₂, hf, settles_step.1 hparams, hflow, rfl⟩
        · cases he
      · cases he
    · rintro ⟨g, m₁, m₂, hg, hparams, hblock, rfl⟩
      rw [hf] at hg
      cases hg
      refine ⟨m₂, ?_, rfl⟩
      have hparams : (step (bindParams f.params values)).Settles
          (m.note (.called name.name values.length)).enterCall (.ok ()) m₁ :=
        settles_step.2 hparams
      exact (settles_bind_ok hparams).2 ((settles_bind_ok hblock).2 (settles_pure.2 ⟨rfl, rfl⟩))
  · constructor
    · intro h
      rcases settles_bind.1 h with ⟨f, m₁, hcallee, -⟩ | ⟨e, he, -⟩
      · have hcallee : callee name values.length span m = .ok f m₁ := settles_step.1 hcallee
        rw [hs] at hcallee
        cases hcallee
      · cases he
    · rintro ⟨f, m₁, m₂, hf, -⟩
      rw [hs] at hf
      cases hf

/-- **A return is never lost and never escapes.** Outside of functions no statement ends with
    one. In functions none is refused: an error that says so is the channel's own, and the
    channels at hand raise none. Once a statement has ended with a return, inside whatever
    blocks, choices and loops, all of these end with it at once, on the machine that the
    statement left with the scopes in between closed; and so does the call, which has the
    value. No return has another origin. -/
theorem return_reaches_call (C : Type) [Channel C] :
    (∀ n s (m m' : Machine C) v, execute n false s m ≠ .ok (.returned v) m') ∧
    (∀ n s (m m' : Machine C) e, execute n true s m = .error (.failed e) m' →
      e.cause = .returnOutsideFunction → Channel.Raises C e) ∧
    (∀ e, e.cause = .returnOutsideFunction →
      ¬ Channel.Raises Script e ∧ ¬ Channel.Raises Console e) ∧
    (∀ inFunction (x y : Course C Flow) m m₁ m₂ k v, Reaches inFunction x m y m₁ k →
      y.Settles m₁ (.ok (.returned v)) m₂ → x.Settles m (.ok (.returned v)) (m₂.popScopes k)) ∧
    (∀ name values span (m m' : Machine C) v, (call name values span).Settles m (.ok v) m' ↔
      ∃ f m₁ m₂, callee name values.length span m = .ok f m ∧
        bindParams f.params values (m.note (.called name.name values.length)).enterCall =
          .ok () m₁ ∧
        (block true f.body).Settles m₁ (.ok (.returned v)) m₂ ∧ m' = m₂.leaveCall) ∧
    (∀ inFunction s (m m' : Machine C) v,
      (statement inFunction s).Settles m (.ok (.returned v)) m' ↔
        Origin inFunction (statement inFunction s) m v m') :=
  ⟨fun n s _ _ _ => execute_false_ne_returned n s,
    fun _ _ _ _ _ h he => execute_true_grants h he,
    fun _ he => ⟨script_not_raises he, console_not_raises he⟩,
    fun _ _ _ _ _ _ _ _ hreach hy => hreach.returned hy,
    fun _ _ _ _ _ _ => call_settles_ok,
    fun _ _ _ _ _ => returned_iff_origin⟩

/-- A return in a block in a block, with a statement after it that does not run. -/
theorem return_reaches_call_nested :
    let at0 : Span := .point 0
    let inner : Stmt := .giveBack (.number .one at0) at0
    let outer : Stmt := .block ⟨[.block ⟨[inner], at0⟩, .output (.number .zero at0) at0], at0⟩
    let m : Machine Script := .new (.ofInputs []) 128 false
    Reaches true (statement true outer) m (statement true inner) m.pushScope.pushScope 2 ∧
      (statement true outer).Settles m (.ok (.returned .one))
        (m.pushScope.pushScope.popScopes 2) := by
  intro at0 inner outer m
  have hreach : Reaches true (statement true outer) m (statement true inner)
      m.pushScope.pushScope 2 :=
    .enter (.block _ _) (.enter (.statements _ _) (.enter (.first _ _ _) (.enter (.block _ _)
      (.enter (.statements _ _) (.enter (.first _ _ _) (.here _ _))))))
  have hinner : (statement true inner).Settles m.pushScope.pushScope (.ok (.returned .one))
      m.pushScope.pushScope := ⟨2, rfl⟩
  exact ⟨hreach, (return_reaches_call Script).2.2.2.1 _ _ _ _ _ _ _ _ hreach hinner⟩

end Exec

end Bello
