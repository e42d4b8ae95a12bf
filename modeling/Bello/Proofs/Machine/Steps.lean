import Bello.Machine.Execution

/- What runs are made of.

   Expressions, statements and programs change the machine through a handful of small
   steps and put them together in sequence, in scopes and in frames. `Made x` says that the
   piece `x` is put together in that way: `evaluate_made`, `execute_made` and `runIn_made`
   say so of every expression, statement and program, whatever the bound on its length. A
   law of all runs is then proved by induction on `Made`: once for each kind of step, and
   never again over expressions, statements, loops and calls.

   `Careful role x` says more. Outside of calls a piece that computes a value changes
   nothing, and statements assign only to what they have found to be mutable, or to the
   variable of a loop that is their own.

   Two shapes of law have cases that are always the same: `Keeps` compares the machine
   before a piece with the machine after it, and `Respects` runs a piece on two machines. -/
namespace Bello

/-- A piece stops so by itself: it is out of bounds, or it fails at a place in the program.
    What has no place comes from the channel. -/
def Stop.isPlaced : Stop → Bool
  | .failed e => e.span.isSome
  | .unfinished => true

namespace Machine

variable {C : Type}

/-- The machine with a function entered. -/
def knowing (m : Machine C) (f : Function) : Machine C :=
  { m with functions := m.functions.insert f.name.name f }

/-- The events that a machine logs for one. -/
def noted (m : Machine C) (e : Event) : List Event := if m.tracing then [e] else []

/-- Noting an event changes the log and nothing else. -/
theorem note_eq (m : Machine C) (e : Event) :
    m.note e = { m with log := m.noted e ++ m.log } := by
  unfold note noted
  cases h : m.tracing with
  | true => rfl
  | false => cases m; simp at h; simp [h]

end Machine

namespace Exec

variable {C : Type} {α β : Type}

/-- The machine that a piece leaves behind, however it ends. -/
def final (x : Exec C α) (m : Machine C) : Machine C :=
  match x m with
  | .ok _ m' => m'
  | .error _ m' => m'

/-- How a piece ends: a value, or the reason why it stopped. -/
def outcome (x : Exec C α) (m : Machine C) : Except Stop α :=
  match x m with
  | .ok a _ => .ok a
  | .error e _ => .error e

theorem final_ok {x : Exec C α} {m m' : Machine C} {a : α} (h : x m = .ok a m') :
    final x m = m' := by
  simp only [final, h]

theorem final_error {x : Exec C α} {m m' : Machine C} {e : Stop} (h : x m = .error e m') :
    final x m = m' := by
  simp only [final, h]

theorem final_congr {x y : Exec C α} {m m' : Machine C} (h : x m = y m') :
    final x m = final y m' := by
  simp only [final, h]

theorem bind_ok {x : Exec C α} {f : α → Exec C β} {m m' : Machine C} {a : α}
    (h : x m = .ok a m') : (x >>= f) m = f a m' := by
  show EStateM.bind x f m = f a m'
  simp only [EStateM.bind, h]

theorem bind_error {x : Exec C α} {f : α → Exec C β} {m m' : Machine C} {e : Stop}
    (h : x m = .error e m') : (x >>= f) m = .error e m' := by
  show EStateM.bind x f m = .error e m'
  simp only [EStateM.bind, h]

/-- A piece in sequence ends where its second half ends, or its first half if that stops. -/
theorem final_bind (x : Exec C α) (f : α → Exec C β) (m : Machine C) :
    (∃ a m', x m = .ok a m' ∧ final (x >>= f) m = final (f a) m') ∨
    (∃ e m', x m = .error e m' ∧ final (x >>= f) m = m') := by
  cases h : x m with
  | ok a m' => exact .inl ⟨a, m', rfl, final_congr (bind_ok h)⟩
  | error e m' => exact .inr ⟨e, m', rfl, final_error (bind_error h)⟩

theorem final_bind_pure (x : Exec C α) (b : β) (m : Machine C) :
    final (x >>= fun _ => pure b) m = final x m := by
  rcases final_bind x (fun _ => pure b) m with ⟨a, m', e, hb⟩ | ⟨s, m', e, hb⟩
  · rw [hb, final_ok e]; rfl
  · rw [hb, final_error e]

theorem final_between (enter leave : Machine C → Machine C) (x : Exec C α) (m : Machine C) :
    final (between enter leave x) m = leave (final x (enter m)) := by
  simp only [final, between]
  cases x (enter m) <;> rfl

theorem define_ok {name : Ident} {b : Binding} {m : Machine C} {chain : ScopeChain}
    (h : m.chain.define name.name b = some chain) : define name b m = .ok () { m with chain } := by
  simp only [define, h]

theorem define_error {name : Ident} {b : Binding} {m : Machine C}
    (h : m.chain.define name.name b = none) :
    define name b m =
      .error (.failed (Cause.at (.duplicateDeclaration name.name) name.span)) m := by
  simp only [define, h]

/-- An assignment to what is not bound changes nothing. -/
theorem set_ok (name : String) (v : Decimal) (m : Machine C) :
    set name v m = .ok () { m with chain := (m.chain.set? name v).getD m.chain } := by
  unfold set
  cases m.chain.set? name v with
  | none => rfl
  | some chain => rfl

/-- The target of an assignment is mutable, or not bound, or it is refused; in each case the
    machine stays as it is. -/
theorem isWritable_cases (target : Ident) (m : Machine C) :
    (∃ b, m.chain.lookup target.name = some b ∧ b.mutable = true ∧
      isWritable target m = .ok true m) ∨
    (m.chain.lookup target.name = none ∧ isWritable target m = .ok false m) ∨
    (∃ e, isWritable target m = .error e m) := by
  have hlook : (lookup target.name : Exec C (Option Binding)) m =
      .ok (m.chain.lookup target.name) m := rfl
  unfold isWritable
  rw [bind_ok hlook]
  cases m.chain.lookup target.name with
  | none => exact .inr (.inl ⟨rfl, rfl⟩)
  | some b =>
    cases hb : b.mutable with
    | true => exact .inl ⟨b, rfl, hb, by simp only [hb, if_true]; rfl⟩
    | false => exact .inr (.inr ⟨_, by simp only [hb]; rfl⟩)

/-- Whether a call can be made, and of what, depends on the functions and the number of
    calls alone; it is made only below the limit. A machine with a higher limit answers alike
    unless the first one is at its limit. -/
theorem callee_cases_of_le (name : Ident) (args : Nat) (span : Span) (m m' : Machine C)
    (hf : m'.functions = m.functions) (ha : m'.activeCalls = m.activeCalls)
    (hl : m.callLimit ≤ m'.callLimit) :
    (∃ f, callee name args span m = .ok f m ∧ callee name args span m' = .ok f m' ∧
      m.activeCalls < m.callLimit) ∨
    (∃ e, callee name args span m = .error e m ∧ callee name args span m' = .error e m') ∨
    (m.callLimit < m'.callLimit ∧ callee name args span m =
        .error (.failed (Cause.at (.callLimit name.name m.callLimit) span)) m ∧
      ((∃ f, callee name args span m' = .ok f m') ∨
        ∃ e, callee name args span m' = .error e m')) := by
  have hget : ∀ m : Machine C, (get : Exec C (Machine C)) m = .ok m m := fun _ => rfl
  unfold callee
  rw [bind_ok (hget m), bind_ok (hget m'), hf, ha]
  cases m.functions[name.name]? with
  | none => exact .inr (.inl ⟨_, rfl, rfl⟩)
  | some f =>
    by_cases hn : f.params.length = args
    · simp only [hn, ne_eq, not_true_eq_false, if_false]
      by_cases hlim : m.callLimit ≤ m.activeCalls
      · rw [if_pos hlim]
        rcases Nat.lt_or_eq_of_le hl with hlt | heq
        · refine .inr (.inr ⟨hlt, rfl, ?_⟩)
          by_cases hlim' : m'.callLimit ≤ m.activeCalls
          · rw [if_pos hlim']; exact .inr ⟨_, rfl⟩
          · rw [if_neg hlim']; exact .inl ⟨f, rfl⟩
        · rw [← heq, if_pos hlim]; exact .inr (.inl ⟨_, rfl, rfl⟩)
      · rw [if_neg hlim, if_neg (by omega)]; exact .inl ⟨f, rfl, rfl, by omega⟩
    · simp only [hn, ne_eq, not_false_eq_true, if_true]
      exact .inr (.inl ⟨_, rfl, rfl⟩)

/-- Machines with the same limit answer alike. -/
theorem callee_cases (name : Ident) (args : Nat) (span : Span) (m m' : Machine C)
    (hf : m'.functions = m.functions) (ha : m'.activeCalls = m.activeCalls)
    (hl : m'.callLimit = m.callLimit) :
    (∃ f, callee name args span m = .ok f m ∧ callee name args span m' = .ok f m' ∧
      m.activeCalls < m.callLimit) ∨
    (∃ e, callee name args span m = .error e m ∧ callee name args span m' = .error e m') := by
  rcases callee_cases_of_le name args span m m' hf ha (Nat.le_of_eq hl.symm) with h | h | ⟨hlt, -⟩
  · exact .inl h
  · exact .inr h
  · omega

/-- Whether a function can be entered depends on the functions alone. -/
theorem addFunction_cases (f : Function) (m m' : Machine C) (hf : m'.functions = m.functions) :
    (∃ e, addFunction f m = .error e m ∧ addFunction f m' = .error e m') ∨
    (addFunction f m = .ok () (m.knowing f) ∧ addFunction f m' = .ok () (m'.knowing f)) ∨
    (addFunction f m = .ok () ((m.note (.builtinHidden f.name.name)).knowing f) ∧
      addFunction f m' = .ok () ((m'.note (.builtinHidden f.name.name)).knowing f)) := by
  have hget : ∀ m : Machine C, (get : Exec C (Machine C)) m = .ok m m := fun _ => rfl
  unfold addFunction
  rw [bind_ok (hget m), bind_ok (hget m'), hf]
  by_cases hc : m.functions.contains f.name.name
  · rw [if_pos hc]; exact .inl ⟨_, rfl, rfl⟩
  · rw [if_neg hc]
    by_cases hb : (Builtin.ofName? f.name.name).isSome
    · rw [if_pos hb]; exact .inr (.inr ⟨rfl, rfl⟩)
    · rw [if_neg hb]; exact .inr (.inl ⟨rfl, rfl⟩)

theorem callee_placed {name : Ident} {args : Nat} {span : Span} {m n : Machine C} {s : Stop}
    (h : callee name args span m = .error s n) : s.isPlaced := by
  have hget : (get : Exec C (Machine C)) m = .ok m m := rfl
  unfold callee at h
  rw [bind_ok hget] at h
  cases hf : m.functions[name.name]? with
  | none => rw [hf] at h; cases h; rfl
  | some f =>
    rw [hf] at h
    simp only at h
    split at h
    · cases h; rfl
    · split at h
      · cases h; rfl
      · cases h

theorem addFunction_placed {f : Function} {m n : Machine C} {s : Stop}
    (h : addFunction f m = .error s n) : s.isPlaced := by
  have hget : (get : Exec C (Machine C)) m = .ok m m := rfl
  unfold addFunction at h
  rw [bind_ok hget] at h
  split at h
  · cases h; rfl
  · split at h
    · cases h
    · cases h

/-- A call from the look at its function to the end of its frame. -/
def calling (name : Ident) (args : Nat) (span : Span) (body : Function → Exec C Decimal) :
    Exec C Decimal := do
  let f ← callee name args span
  note (.called name.name args)
  inFrame (body f)

theorem calling_ok {name : Ident} {args : Nat} {span : Span} {body : Function → Exec C Decimal}
    {m : Machine C} {f : Function} (h : callee name args span m = .ok f m) :
    calling name args span body m = inFrame (body f) (m.note (.called name.name args)) := by
  unfold calling
  rw [bind_ok h]
  rfl

theorem calling_error {name : Ident} {args : Nat} {span : Span}
    {body : Function → Exec C Decimal} {m : Machine C} {e : Stop}
    (h : callee name args span m = .error e m) : calling name args span body m = .error e m :=
  bind_error h

/-! ## Laws about the machine before and after -/

/-- Whatever the machine, the piece leaves one behind that is related to it. -/
def Keeps (R : Machine C → Machine C → Prop) (x : Exec C α) : Prop := ∀ m, R m (final x m)

namespace Keeps

variable {R : Machine C → Machine C → Prop}

theorem pure' (refl : ∀ m, R m m) (a : α) : Keeps R (pure a : Exec C α) := fun m => refl m

theorem stop (refl : ∀ m, R m m) (s : Stop) : Keeps R (throw s : Exec C α) := fun m => refl m

theorem bind' (trans : ∀ ⦃m₁ m₂ m₃⦄, R m₁ m₂ → R m₂ m₃ → R m₁ m₃) {x : Exec C α}
    {f : α → Exec C β} (hx : Keeps R x) (hf : ∀ a, Keeps R (f a)) : Keeps R (x >>= f) := by
  intro m
  have h := hx m
  rcases final_bind x f m with ⟨a, m', e, hb⟩ | ⟨s, m', e, hb⟩
  · rw [final_ok e] at h
    rw [hb]
    exact trans h (hf a m')
  · rw [final_error e] at h
    rw [hb]
    exact h

end Keeps

/-! ## Laws about two machines -/

/-- The same value or the same reason to stop, on related machines. -/
inductive Alike (R : Machine C → Machine C → Prop) :
    EStateM.Result Stop (Machine C) α → EStateM.Result Stop (Machine C) α → Prop where
  | ok (a : α) {m m' : Machine C} (h : R m m') : Alike R (.ok a m) (.ok a m')
  | error (e : Stop) {m m' : Machine C} (h : R m m') : Alike R (.error e m) (.error e m')

/-- On related machines the piece does the same, and leaves related machines. -/
def Respects (R : Machine C → Machine C → Prop) (x : Exec C α) : Prop :=
  ∀ m m', R m m' → Alike R (x m) (x m')

theorem Alike.mono {R S : Machine C → Machine C → Prop} (hRS : ∀ m m', R m m' → S m m')
    {r r' : EStateM.Result Stop (Machine C) α} (h : Alike R r r') : Alike S r r' := by
  cases h with
  | ok a h => exact .ok a (hRS _ _ h)
  | error e h => exact .error e (hRS _ _ h)

theorem Alike.cases {R : Machine C → Machine C → Prop}
    {r r' : EStateM.Result Stop (Machine C) α} (h : Alike R r r') :
    (∃ a m m', r = .ok a m ∧ r' = .ok a m' ∧ R m m') ∨
    (∃ e m m', r = .error e m ∧ r' = .error e m' ∧ R m m') := by
  cases h with
  | ok a h => exact .inl ⟨a, _, _, rfl, rfl, h⟩
  | error e h => exact .inr ⟨e, _, _, rfl, rfl, h⟩

theorem Alike.outcome_final {R : Machine C → Machine C → Prop} {x : Exec C α}
    {m m' : Machine C} (h : Alike R (x m) (x m')) :
    outcome x m = outcome x m' ∧ R (final x m) (final x m') := by
  unfold outcome final
  rcases h.cases with ⟨a, n, n', e, e', hn⟩ | ⟨s, n, n', e, e', hn⟩
  · rw [e, e']; exact ⟨rfl, hn⟩
  · rw [e, e']; exact ⟨rfl, hn⟩

namespace Respects

variable {R : Machine C → Machine C → Prop}

theorem pure' (a : α) : Respects R (pure a : Exec C α) := fun _ _ h => .ok a h

theorem stop (s : Stop) : Respects R (throw s : Exec C α) := fun _ _ h => .error s h

theorem bind' {x : Exec C α} {f : α → Exec C β} (hx : Respects R x)
    (hf : ∀ a, Respects R (f a)) : Respects R (x >>= f) := by
  intro m m' h
  rcases (hx m m' h).cases with ⟨a, n, n', e, e', hn⟩ | ⟨s, n, n', e, e', hn⟩
  · rw [bind_ok e, bind_ok e']; exact hf a n n' hn
  · rw [bind_error e, bind_error e']; exact .error s hn

/-- Machines with the same functions agree on whether another one is entered. -/
theorem addFunction' (f : Function) (hf : ∀ m m', R m m' → m'.functions = m.functions)
    (hnote : ∀ m m' e, R m m' → R (m.note e) (m'.note e))
    (hknowing : ∀ m m', R m m' → R (m.knowing f) (m'.knowing f)) :
    Respects R (addFunction f : Exec C Unit) := by
  intro m m' h
  rcases addFunction_cases f m m' (hf m m' h) with ⟨s, e, e'⟩ | ⟨e, e'⟩ | ⟨e, e'⟩
  · rw [e, e']; exact .error s h
  · rw [e, e']; exact .ok () (hknowing m m' h)
  · rw [e, e']; exact .ok () (hknowing _ _ (hnote m m' _ h))

end Respects

/-- Related machines have the same channel, and are still related when it has moved on. -/
def SharesChannel (R : Machine C → Machine C → Prop) : Prop :=
  ∀ m m', R m m' → m'.channel = m.channel ∧
    ∀ channel, R { m with channel } { m' with channel }

/-- What runs in between may respect another relation, which it is entered and left by. -/
theorem Alike.between' {R S : Machine C → Machine C → Prop} {enter leave : Machine C → Machine C}
    {x : Exec C α} {m m' : Machine C} (h : Alike R (x (enter m)) (x (enter m')))
    (hl : ∀ n n', R n n' → S (leave n) (leave n')) :
    Alike S (between enter leave x m) (between enter leave x m') := by
  unfold between
  rcases h.cases with ⟨a, n, n', e, e', hn⟩ | ⟨s, n, n', e, e', hn⟩
  · rw [e, e']; exact .ok a (hl n n' hn)
  · rw [e, e']; exact .error s (hl n n' hn)

/-- Machines with the same functions and as many calls agree on whether a call is made. -/
theorem Alike.calling' {R S : Machine C → Machine C → Prop} {m m' : Machine C} (name : Ident)
    (args : Nat) (span : Span) {body : Function → Exec C Decimal} (h : S m m')
    (hf : m'.functions = m.functions) (ha : m'.activeCalls = m.activeCalls)
    (hl : m'.callLimit = m.callLimit)
    (hbody : ∀ f, Alike R (body f (m.note (.called name.name args)).enterCall)
      (body f (m'.note (.called name.name args)).enterCall))
    (hleave : ∀ n n', R n n' → S n.leaveCall n'.leaveCall) :
    Alike S (calling name args span body m) (calling name args span body m') := by
  rcases callee_cases name args span m m' hf ha hl with ⟨f, e, e', -⟩ | ⟨s, e, e'⟩
  · rw [calling_ok e, calling_ok e']
    exact .between' (hbody f) hleave
  · rw [calling_error e, calling_error e']
    exact .error s h

/-! ## The steps -/

variable [Channel C]

/-- Pieces that are put together from the steps of a run. -/
inductive Made : {α : Type} → Exec C α → Prop where
  | pure {α : Type} (a : α) : Made (pure a : Exec C α)
  | stop {α : Type} (s : Stop) : s.isPlaced → Made (throw s : Exec C α)
  | bind {α β : Type} {x : Exec C α} {f : α → Exec C β} :
      Made x → (∀ a, Made (f a)) → Made (x >>= f)
  | lookup (name : String) : Made (lookup name : Exec C (Option Binding))
  | define (name : Ident) (b : Binding) : Made (define name b : Exec C Unit)
  | set (name : String) (v : Decimal) : Made (set name v : Exec C Unit)
  | read : Made (read : Exec C Decimal)
  | write (v : Decimal) : Made (write v : Exec C Unit)
  | counting (name : String) (first last : Decimal) :
      Made (note (.counting name first last) : Exec C Unit)
  | inScope {α : Type} {x : Exec C α} : Made x → Made (inScope x)
  | call (name : Ident) (args : Nat) (span : Span) {body : Function → Exec C Decimal} :
      (∀ f, Made (body f)) → Made (calling name args span body)
  | forget : Made (modify fun m => { m with functions := ∅ } : Exec C Unit)
  | addFunction (f : Function) : Made (addFunction f : Exec C Unit)
  | registered (constants : Nat) :
      Made (fun m => .ok () (m.note (.registered constants m.functions.size)) : Exec C Unit)

/-- What a piece is for: to compute a value, or to run statements. -/
inductive Role where
  | value
  | action

/-- Pieces of expressions and statements, which assign with care. -/
inductive Careful : Role → {α : Type} → Exec C α → Prop where
  | pure {α : Type} (a : α) : Careful .value (pure a : Exec C α)
  | stop {α : Type} (s : Stop) : s.isPlaced → Careful .value (throw s : Exec C α)
  | lookup (name : String) : Careful .value (lookup name : Exec C (Option Binding))
  | bind {role : Role} {α β : Type} {x : Exec C α} {f : α → Exec C β} :
      Careful role x → (∀ a, Careful role (f a)) → Careful role (x >>= f)
  | call (name : Ident) (args : Nat) (span : Span) {body : Function → Exec C Decimal} :
      (∀ f, Careful .action (body f)) → Careful .value (calling name args span body)
  | act {α : Type} {x : Exec C α} : Careful .value x → Careful .action x
  | declare (name : Ident) (v : Decimal) : Careful .action (define name ⟨v, true⟩ : Exec C Unit)
  | assign (target : Ident) (v : Decimal) :
      Careful .action (do
        if ← isWritable target then
          set target.name v
          Pure.pure Flow.normal
        else fail (.unknownVariable target.name) target.span : Exec C Flow)
  | input (target : Ident) :
      Careful .action (do
        let declared ← isWritable target
        let v ← read
        if declared then set target.name v else define target ⟨v, true⟩
        Pure.pure Flow.normal : Exec C Flow)
  | write (v : Decimal) : Careful .action (write v : Exec C Unit)
  | counting (name : String) (first last : Decimal) :
      Careful .action (note (.counting name first last) : Exec C Unit)
  | inScope {α : Type} {x : Exec C α} : Careful .action x → Careful .action (inScope x)
  /-- A counting loop sets its variable without a look at what it is bound to. -/
  | count (n : Nat) (inFunction : Bool) (counter : Ident) (first last : Decimal) (body : Block)
      (span : Span) :
      (∀ k < n, Careful .action (executeAll k inFunction body.statements : Exec C Flow)) →
      Careful .action (Exec.inScope do
        define counter ⟨first, true⟩
        executeCount n inFunction counter.name first last body span : Exec C Flow)

namespace Careful

theorem fail' {α : Type} (cause : Cause) (span : Span) :
    Careful .value (fail cause span : Exec C α) := .stop _ rfl

theorem unfinished' {α : Type} : Careful .value (unfinished : Exec C α) := .stop _ rfl

theorem ofExcept' {α : Type} (span : Span) : ∀ r : Except Cause α,
    Careful .value (ofExcept span r : Exec C α)
  | .ok a => .pure a
  | .error cause => fail' cause span

theorem callResult' (f : Function) (span : Span) : ∀ flow : Flow,
    Careful .value (callResult f span flow : Exec C Decimal)
  | .returned v => .pure v
  | .normal => fail' _ span

theorem nameValue' (name : Ident) : Careful .value (nameValue name : Exec C Decimal) := by
  unfold nameValue
  split
  · exact .pure _
  · refine .bind (.lookup _) (fun found => ?_)
    cases found with
    | some b => exact .pure _
    | none => exact fail' _ _

theorem bindParams' : ∀ (params : List Ident) (values : List Decimal),
    Careful .action (bindParams params values : Exec C Unit)
  | p :: params, v :: values => by
    simp only [bindParams]
    exact .bind (.declare p v) (fun _ => bindParams' params values)
  | [], _ => by simp only [bindParams]; exact .act (.pure ())
  | _ :: _, [] => by simp only [bindParams]; exact .act (.pure ())

end Careful

/-- Reading and writing go to the channel. -/
theorem read_cases (m : Machine C) :
    (∃ v channel, (read : Exec C Decimal) m = .ok v { m with channel }) ∨
    (∃ e channel, (read : Exec C Decimal) m = .error e { m with channel }) := by
  unfold read
  cases Channel.read m.channel with
  | ok v channel => exact .inl ⟨v, channel, rfl⟩
  | error e channel => exact .inr ⟨_, channel, rfl⟩

theorem write_cases (v : Decimal) (m : Machine C) :
    (∃ channel, (write v : Exec C Unit) m = .ok () { m with channel }) ∨
    (∃ e channel, (write v : Exec C Unit) m = .error e { m with channel }) := by
  unfold write
  cases Channel.write v m.channel with
  | ok _ channel => exact .inl ⟨channel, rfl⟩
  | error e channel => exact .inr ⟨_, channel, rfl⟩

theorem Respects.read' {R : Machine C → Machine C → Prop} (hR : SharesChannel R) :
    Respects R (read : Exec C Decimal) := by
  intro m m' h
  obtain ⟨hsame, hmoved⟩ := hR m m' h
  unfold read
  rw [hsame]
  cases Channel.read m.channel with
  | ok v channel => exact .ok v (hmoved channel)
  | error e channel => exact .error _ (hmoved channel)

theorem Respects.write' {R : Machine C → Machine C → Prop} (hR : SharesChannel R) (v : Decimal) :
    Respects R (write v : Exec C Unit) := by
  intro m m' h
  obtain ⟨hsame, hmoved⟩ := hR m m' h
  unfold write
  rw [hsame]
  cases Channel.write v m.channel with
  | ok _ channel => exact .ok () (hmoved channel)
  | error e channel => exact .error _ (hmoved channel)

/-! ## Expressions and statements -/

mutual

-- As the definitions do, the proofs recurse on the bound and not on the syntax: the body of
-- a function is no part of the call.
theorem evaluate_careful (n : Nat) (e : Expr) : Careful .value (evaluate n e : Exec C Decimal) := by
  match n, e with
  | 0, _ => simp only [evaluate]; exact .unfinished'
  | n + 1, .number v _ => simp only [evaluate]; exact .pure v
  | n + 1, .constant c _ => simp only [evaluate]; exact .pure c.value
  | n + 1, .var name => simp only [evaluate]; exact .nameValue' name
  | n + 1, .unary op operand _ =>
    simp only [evaluate]
    exact .bind (evaluate_careful n operand) (fun v => .pure (op.apply v))
  | n + 1, .binary op left right span =>
    simp only [evaluate]
    refine .bind (evaluate_careful n left) (fun a => ?_)
    exact .bind (evaluate_careful n right) (fun b => .ofExcept' span (op.apply a b))
  | n + 1, .call name args span =>
    simp only [evaluate]
    refine .bind (evaluateAll_careful n args) (fun values => ?_)
    split
    · exact .ofExcept' span _
    · exact invoke_careful n name values span
  | n + 1, .text _ span => simp only [evaluate]; exact .fail' _ span
termination_by n

theorem evaluateAll_careful (n : Nat) (es : List Expr) :
    Careful .value (evaluateAll n es : Exec C (List Decimal)) := by
  match n, es with
  | 0, _ => simp only [evaluateAll]; exact .unfinished'
  | n + 1, [] => simp only [evaluateAll]; exact .pure []
  | n + 1, e :: es =>
    simp only [evaluateAll]
    refine .bind (evaluate_careful n e) (fun v => ?_)
    exact .bind (evaluateAll_careful n es) (fun vs => .pure (v :: vs))
termination_by n

theorem invoke_careful (n : Nat) (name : Ident) (values : List Decimal) (span : Span) :
    Careful .value (invoke n name values span : Exec C Decimal) := by
  match n with
  | 0 => simp only [invoke]; exact .unfinished'
  | n + 1 =>
    simp only [invoke, deepening_eq]
    refine .call name values.length span (fun f => ?_)
    refine .bind (.bindParams' f.params values) (fun _ => ?_)
    refine .bind (.inScope (executeAll_careful n true f.body.statements)) (fun flow => ?_)
    exact .act (.callResult' f span flow)
termination_by n

theorem execute_careful (n : Nat) (inFunction : Bool) (s : Stmt) :
    Careful .action (execute n inFunction s : Exec C Flow) := by
  match n, s with
  | 0, _ => simp only [execute]; exact .act .unfinished'
  | n + 1, .declare name _ =>
    simp only [execute]
    exact .bind (.declare name .zero) (fun _ => .act (.pure _))
  | n + 1, .assign target value _ =>
    simp only [execute]
    exact .bind (.act (evaluate_careful n value)) (fun v => .assign target v)
  | n + 1, .input target _ => simp only [execute]; exact .input target
  | n + 1, .output value _ =>
    simp only [execute]
    refine .bind (.act (evaluate_careful n value)) (fun v => ?_)
    exact .bind (.write v) (fun _ => .act (.pure _))
  | n + 1, .choose condition yes no _ =>
    simp only [execute]
    refine .bind (.act (evaluate_careful n condition)) (fun v => ?_)
    split
    · exact .inScope (executeAll_careful n inFunction yes.statements)
    · cases no with
      | some b => exact .inScope (executeAll_careful n inFunction b.statements)
      | none => exact .act (.pure _)
  | n + 1, .repeatWhile condition body _ =>
    simp only [execute]
    exact executeWhile_careful n inFunction condition body
  | n + 1, .count counter first last body span =>
    simp only [execute]
    refine .bind (.act (evaluate_careful n first)) (fun a => ?_)
    refine .bind (.act (evaluate_careful n last)) (fun b => ?_)
    refine .bind (.counting counter.name a b) (fun _ => ?_)
    exact .count n inFunction counter a b body span
      (fun k hk => executeAll_careful k inFunction body.statements)
  | n + 1, .giveBack value span =>
    simp only [execute]
    split
    · exact .bind (.act (evaluate_careful n value)) (fun v => .act (.pure _))
    · exact .act (.fail' _ span)
  | n + 1, .block b =>
    simp only [execute]
    exact .inScope (executeAll_careful n inFunction b.statements)
  | n + 1, .evaluate e _ =>
    simp only [execute]
    exact .bind (.act (evaluate_careful n e)) (fun _ => .act (.pure _))
termination_by n

theorem executeAll_careful (n : Nat) (inFunction : Bool) (ss : List Stmt) :
    Careful .action (executeAll n inFunction ss : Exec C Flow) := by
  match n, ss with
  | 0, _ => simp only [executeAll]; exact .act .unfinished'
  | n + 1, [] => simp only [executeAll]; exact .act (.pure _)
  | n + 1, s :: ss =>
    simp only [executeAll]
    refine .bind (execute_careful n inFunction s) (fun flow => ?_)
    cases flow with
    | returned v => exact .act (.pure _)
    | normal => exact executeAll_careful n inFunction ss
termination_by n

theorem executeWhile_careful (n : Nat) (inFunction : Bool) (condition : Expr) (body : Block) :
    Careful .action (executeWhile n inFunction condition body : Exec C Flow) := by
  match n with
  | 0 => simp only [executeWhile]; exact .act .unfinished'
  | n + 1 =>
    simp only [executeWhile]
    refine .bind (.act (evaluate_careful n condition)) (fun v => ?_)
    split
    · refine .bind (.inScope (executeAll_careful n inFunction body.statements)) (fun flow => ?_)
      cases flow with
      | returned v => exact .act (.pure _)
      | normal => exact executeWhile_careful n inFunction condition body
    · exact .act (.pure _)
termination_by n

end

/-! ## Care apart -/

namespace Made

theorem isWritable' (target : Ident) : Made (isWritable target : Exec C Bool) := by
  unfold isWritable
  refine .bind (.lookup _) (fun found => ?_)
  cases found with
  | none => exact .pure _
  | some b =>
    simp only
    split
    · exact .pure _
    · exact .stop _ rfl

theorem executeCount' {inFunction : Bool} {name : String} {last : Decimal} {body : Block}
    {span : Span} : ∀ (n : Nat) (counter : Decimal),
    (∀ k < n, Made (executeAll k inFunction body.statements : Exec C Flow)) →
    Made (executeCount n inFunction name counter last body span : Exec C Flow)
  | 0, _, _ => by simp only [executeCount]; exact .stop _ rfl
  | n + 1, counter, hbody => by
    simp only [executeCount]
    split
    · refine .bind (.set name counter) (fun _ => ?_)
      refine .bind (.inScope (hbody n (by omega))) (fun flow => ?_)
      cases flow with
      | returned v => exact .pure _
      | normal =>
        cases counter.add .one with
        | some next => exact executeCount' n next (fun k hk => hbody k (by omega))
        | none => exact .stop _ rfl
    · exact .pure _

end Made

theorem Careful.made {role : Role} {x : Exec C α} (h : Careful role x) : Made x := by
  induction h with
  | pure a => exact .pure a
  | stop s hs => exact .stop s hs
  | lookup name => exact .lookup name
  | bind _ _ hx hf => exact .bind hx hf
  | call name args span _ hbody => exact .call name args span hbody
  | act _ hx => exact hx
  | declare name v => exact .define name _
  | assign target v =>
    refine .bind (.isWritable' target) (fun w => ?_)
    cases w with
    | true => exact .bind (.set _ v) (fun _ => .pure _)
    | false => exact .stop _ rfl
  | input target =>
    refine .bind (.isWritable' target) (fun declared => ?_)
    refine .bind .read (fun v => ?_)
    cases declared with
    | true => exact .bind (.set _ v) (fun _ => .pure _)
    | false => exact .bind (.define _ _) (fun _ => .pure _)
  | write v => exact .write v
  | counting name first last => exact .counting name first last
  | inScope _ hx => exact .inScope hx
  | count n inFunction counter first last body span _ hbody =>
    exact .inScope (.bind (.define _ _) (fun _ => .executeCount' n first hbody))

theorem evaluate_made (n : Nat) (e : Expr) : Made (evaluate n e : Exec C Decimal) :=
  (evaluate_careful n e).made

theorem execute_made (n : Nat) (inFunction : Bool) (s : Stmt) :
    Made (execute n inFunction s : Exec C Flow) := (execute_careful n inFunction s).made

/-! ## Programs -/

theorem register_made : ∀ (constants : Nat) (items : List Item),
    Made (register constants items : Exec C Unit)
  | constants, [] => .registered constants
  | constants, .constant decl :: items => by
    simp only [register]
    exact .bind (.define _ _) (fun _ => register_made (constants + 1) items)
  | constants, .function f :: items => by
    simp only [register]
    exact .bind (.addFunction f) (fun _ => register_made constants items)
  | constants, .statement _ :: items => by
    simp only [register]
    exact register_made constants items

theorem executeItems_made (n : Nat) : ∀ items : List Item,
    Made (executeItems n items : Exec C Unit)
  | [] => by simp only [executeItems]; exact .pure ()
  | .statement s :: items => by
    simp only [executeItems]
    exact .bind (execute_made n false s) (fun _ => executeItems_made n items)
  | .constant _ :: items => by simp only [executeItems]; exact executeItems_made n items
  | .function _ :: items => by simp only [executeItems]; exact executeItems_made n items

theorem runIn_made (n : Nat) (p : Program) : Made (runIn n p : Exec C Unit) := by
  unfold runIn
  refine .bind .forget (fun _ => ?_)
  exact .bind (register_made 0 p.items) (fun _ => executeItems_made n p.items)

end Exec

end Bello
