import Bello.Proofs.Machine.Steps

/- A larger bound never changes an answer.

   The functions that run programs are given a bound and stop with `unfinished` where it is
   used up. `Extends x y` says that `y` does what `x` does wherever `x` comes to an end; each
   function extends itself when its bound grows by one. A `Course` is a piece of a run together
   with this fact, so that it can be followed without a bound: `x.Settles m r m'` says that the
   course `x` from the machine `m` comes to an end, with the result `r` and on the machine
   `m'`, and there is at most one such end (`Settles.unique`). `Ends p m r m'` says so of the
   run of the program `p`. -/
namespace Bello.Exec

variable {C α β : Type}

/-- Where `x` comes to an end, `y` does the same. -/
def Extends (x y : Exec C α) : Prop := ∀ m, (∃ m', x m = .error .unfinished m') ∨ y m = x m

namespace Extends

theorem refl (x : Exec C α) : Extends x x := fun _ => .inr rfl

theorem unfinished' (y : Exec C α) : Extends unfinished y := fun m => .inl ⟨m, rfl⟩

theorem bind' {x y : Exec C α} {f g : α → Exec C β} (hx : Extends x y)
    (hf : ∀ a, Extends (f a) (g a)) : Extends (x >>= f) (y >>= g) := by
  intro m
  rcases hx m with ⟨m', e⟩ | e
  · exact .inl ⟨m', bind_error e⟩
  · cases hr : x m with
    | ok a m' =>
      rw [bind_ok hr, bind_ok (e.trans hr)]
      exact hf a m'
    | error s m' => exact .inr ((bind_error (e.trans hr)).trans (bind_error hr).symm)

theorem between' (enter leave : Machine C → Machine C) {x y : Exec C α} (h : Extends x y) :
    Extends (between enter leave x) (between enter leave y) := by
  intro m
  unfold between
  rcases h (enter m) with ⟨m', e⟩ | e
  · exact .inl ⟨leave m', by rw [e]⟩
  · exact .inr (by rw [e])

theorem inScope' {x y : Exec C α} (h : Extends x y) : Extends (inScope x) (inScope y) :=
  .between' _ _ h

theorem inFrame' {x y : Exec C α} (h : Extends x y) : Extends (inFrame x) (inFrame y) :=
  .between' _ _ h

end Extends

/-! ## Expressions and statements -/

section Growth

variable [Channel C]

mutual

theorem evaluate_extends (n : Nat) (e : Expr) :
    Extends (evaluate n e : Exec C Decimal) (evaluate (n + 1) e) := by
  match n, e with
  | 0, _ => simp only [evaluate]; exact .unfinished' _
  | n + 1, .number _ _ => exact .refl _
  | n + 1, .constant _ _ => exact .refl _
  | n + 1, .var _ => exact .refl _
  | n + 1, .unary _ operand _ =>
    exact .bind' (evaluate_extends n operand) (fun _ => .refl _)
  | n + 1, .binary _ left right _ =>
    refine .bind' (evaluate_extends n left) (fun _ => ?_)
    exact .bind' (evaluate_extends n right) (fun _ => .refl _)
  | n + 1, .call name args span =>
    refine .bind' (evaluateAll_extends n args) (fun values => ?_)
    cases Builtin.ofName? name.name with
    | some b => exact .refl _
    | none => exact invoke_extends n name values span
  | n + 1, .text _ _ => exact .refl _
termination_by n

theorem evaluateAll_extends (n : Nat) (es : List Expr) :
    Extends (evaluateAll n es : Exec C (List Decimal)) (evaluateAll (n + 1) es) := by
  match n, es with
  | 0, _ => simp only [evaluateAll]; exact .unfinished' _
  | n + 1, [] => exact .refl _
  | n + 1, e :: es =>
    refine .bind' (evaluate_extends n e) (fun _ => ?_)
    exact .bind' (evaluateAll_extends n es) (fun _ => .refl _)
termination_by n

theorem invoke_extends (n : Nat) (name : Ident) (values : List Decimal) (span : Span) :
    Extends (invoke n name values span : Exec C Decimal) (invoke (n + 1) name values span) := by
  match n with
  | 0 => simp only [invoke]; exact .unfinished' _
  | n + 1 =>
    simp only [invoke, deepening_eq]
    refine .bind' (.refl _) (fun f => .bind' (.refl _) (fun _ => .inFrame' ?_))
    refine .bind' (.refl _) (fun _ => ?_)
    exact .bind' (.inScope' (executeAll_extends n true f.body.statements)) (fun _ => .refl _)
termination_by n

theorem execute_extends (n : Nat) (inFunction : Bool) (s : Stmt) :
    Extends (execute n inFunction s : Exec C Flow) (execute (n + 1) inFunction s) := by
  match n, s with
  | 0, _ => simp only [execute]; exact .unfinished' _
  | n + 1, .declare _ _ => exact .refl _
  | n + 1, .assign _ value _ =>
    exact .bind' (evaluate_extends n value) (fun _ => .refl _)
  | n + 1, .input _ _ => exact .refl _
  | n + 1, .output value _ =>
    exact .bind' (evaluate_extends n value) (fun _ => .refl _)
  | n + 1, .choose condition yes no _ =>
    refine .bind' (evaluate_extends n condition) (fun v => ?_)
    split
    · exact .inScope' (executeAll_extends n inFunction yes.statements)
    · cases no with
      | some b => exact .inScope' (executeAll_extends n inFunction b.statements)
      | none => exact .refl _
  | n + 1, .repeatWhile condition body _ =>
    exact executeWhile_extends n inFunction condition body
  | n + 1, .count counter first last body span =>
    refine .bind' (evaluate_extends n first) (fun a => ?_)
    refine .bind' (evaluate_extends n last) (fun b => ?_)
    refine .bind' (.refl _) (fun _ => .inScope' (.bind' (.refl _) (fun _ => ?_)))
    exact executeCount_extends n inFunction counter.name a b body span
  | n + 1, .giveBack value _ =>
    show Extends (if inFunction then _ else _) (if inFunction then _ else _)
    split
    · exact .bind' (evaluate_extends n value) (fun _ => .refl _)
    · exact .refl _
  | n + 1, .block b =>
    exact .inScope' (executeAll_extends n inFunction b.statements)
  | n + 1, .evaluate e _ =>
    exact .bind' (evaluate_extends n e) (fun _ => .refl _)
termination_by n

theorem executeAll_extends (n : Nat) (inFunction : Bool) (ss : List Stmt) :
    Extends (executeAll n inFunction ss : Exec C Flow) (executeAll (n + 1) inFunction ss) := by
  match n, ss with
  | 0, _ => simp only [executeAll]; exact .unfinished' _
  | n + 1, [] => exact .refl _
  | n + 1, s :: ss =>
    refine .bind' (execute_extends n inFunction s) (fun flow => ?_)
    cases flow with
    | returned v => exact .refl _
    | normal => exact executeAll_extends n inFunction ss
termination_by n

theorem executeWhile_extends (n : Nat) (inFunction : Bool) (condition : Expr) (body : Block) :
    Extends (executeWhile n inFunction condition body : Exec C Flow)
      (executeWhile (n + 1) inFunction condition body) := by
  match n with
  | 0 => simp only [executeWhile]; exact .unfinished' _
  | n + 1 =>
    refine .bind' (evaluate_extends n condition) (fun v => ?_)
    split
    · refine .bind' (.inScope' (executeAll_extends n inFunction body.statements)) (fun flow => ?_)
      cases flow with
      | returned v => exact .refl _
      | normal => exact executeWhile_extends n inFunction condition body
    · exact .refl _
termination_by n

theorem executeCount_extends (n : Nat) (inFunction : Bool) (name : String)
    (counter last : Decimal) (body : Block) (span : Span) :
    Extends (executeCount n inFunction name counter last body span : Exec C Flow)
      (executeCount (n + 1) inFunction name counter last body span) := by
  match n with
  | 0 => simp only [executeCount]; exact .unfinished' _
  | n + 1 =>
    show Extends (if counter.le last then _ else _) (if counter.le last then _ else _)
    split
    · refine .bind' (.refl _) (fun _ => ?_)
      refine .bind' (.inScope' (executeAll_extends n inFunction body.statements)) (fun flow => ?_)
      cases flow with
      | returned v => exact .refl _
      | normal =>
        dsimp only
        cases counter.add .one with
        | some next => exact executeCount_extends n inFunction name next last body span
        | none => exact .refl _
    · exact .refl _
termination_by n

end

/-! ## Programs -/

theorem executeItems_extends (n : Nat) (items : List Item) :
    Extends (executeItems n items : Exec C Unit) (executeItems (n + 1) items) := by
  induction items with
  | nil => exact .refl _
  | cons i items ih =>
    cases i with
    | statement s => exact .bind' (execute_extends n false s) (fun _ => ih)
    | constant decl => exact ih
    | function f => exact ih

theorem runIn_extends (n : Nat) (p : Program) :
    Extends (runIn n p : Exec C Unit) (runIn (n + 1) p) := by
  unfold runIn
  refine .bind' (.refl _) (fun _ => .bind' (.refl _) (fun _ => ?_))
  exact executeItems_extends n p.items

end Growth

/-! ## The end of a run -/

/-- How a piece ends that is followed to its end. -/
def ending (r : Except Error α) (m : Machine C) : EStateM.Result Stop (Machine C) α :=
  match r with
  | .ok a => .ok a m
  | .error e => .error (.failed e) m

theorem ending_inj {r r' : Except Error α} {m m' : Machine C}
    (h : ending r m = ending r' m') : r = r' ∧ m = m' := by
  cases r <;> cases r' <;> simp_all [ending]

theorem final_ending {x : Exec C α} {m m' : Machine C} {r : Except Error α}
    (h : x m = ending r m') : final x m = m' := by
  cases r with
  | ok a => exact final_ok h
  | error e => exact final_error h

namespace Alike

variable {R : Machine C → Machine C → Prop} {r : Except Error α} {m : Machine C}
  {t : EStateM.Result Stop (Machine C) α}

theorem ends (h : Alike R (ending r m) t) : ∃ m', t = ending r m' ∧ R m m' := by
  cases r with
  | ok a => cases h with | ok _ h => exact ⟨_, rfl, h⟩
  | error e => cases h with | error _ h => exact ⟨_, rfl, h⟩

theorem ends' (h : Alike R t (ending r m)) : ∃ m', t = ending r m' ∧ R m' m := by
  cases r with
  | ok a => cases h with | ok _ h => exact ⟨_, rfl, h⟩
  | error e => cases h with | error _ h => exact ⟨_, rfl, h⟩

end Alike

/-! ## Courses -/

/-- What is seen of a piece, the more the larger the bound. -/
structure Course (C α : Type) where
  upTo : Nat → Exec C α
  grows : ∀ n, Extends (upTo n) (upTo (n + 1))

namespace Course

/-- The course comes to an end from `m`, with this result and on the machine `m'`. -/
def Settles (x : Course C α) (m : Machine C) (r : Except Error α) (m' : Machine C) : Prop :=
  ∃ n, x.upTo n m = ending r m'

variable {x : Course C α} {y : Course C β} {m m' m₁ m₂ : Machine C} {r r' : Except Error α}

/-- Once the end is in sight, it stays there. -/
theorem later (x : Course C α) {n : Nat} (h : x.upTo n m = ending r m') (k : Nat) :
    x.upTo (n + k) m = ending r m' := by
  induction k with
  | zero => exact h
  | succ k ih =>
    rcases x.grows (n + k) m with ⟨m₁, e⟩ | e
    · rw [ih] at e
      cases r <;> cases e
    · exact e.trans ih

namespace Settles

/-- What is seen within one bound. -/
theorem ofOutcome {n : Nat} (h : outcome (x.upTo n) m = r.mapError .failed) :
    x.Settles m r (final (x.upTo n) m) := by
  refine ⟨n, ?_⟩
  unfold outcome at h
  unfold final
  generalize x.upTo n m = t at h ⊢
  cases t with
  | ok a m' =>
    cases r with
    | ok b => cases h; rfl
    | error e => cases h
  | error s m' =>
    cases r with
    | ok b => cases h
    | error e => cases h; rfl

/-- Two ends are in sight within one bound. -/
theorem together {r' : Except Error β} (h : x.Settles m r m₁) (h' : y.Settles m' r' m₂) :
    ∃ n, x.upTo n m = ending r m₁ ∧ y.upTo n m' = ending r' m₂ := by
  obtain ⟨n, hn⟩ := h
  obtain ⟨k, hk⟩ := h'
  refine ⟨n + k, x.later hn k, ?_⟩
  rw [Nat.add_comm]
  exact y.later hk n

/-- A course has one end at most. -/
theorem unique (h : x.Settles m r m₁) (h' : x.Settles m r' m₂) : r = r' ∧ m₁ = m₂ := by
  obtain ⟨n, hn, hn'⟩ := h.together h'
  exact ending_inj (hn.symm.trans hn')

end Settles

/-- The run of a program. -/
def program [Channel C] (p : Program) : Course C Unit :=
  ⟨fun n => runIn n p, fun n => runIn_extends n p⟩

end Course

/-- The run of a program from `m` comes to an end, with this result and on the machine
    `m'`. -/
def Ends [Channel C] (p : Program) (m : Machine C) (r : Except Error Unit) (m' : Machine C) :
    Prop :=
  (Course.program p).Settles m r m'

end Bello.Exec
