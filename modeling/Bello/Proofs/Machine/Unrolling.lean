import Bello.Proofs.Machine.Balance
import Bello.Proofs.Machine.Course
import Bello.Proofs.Machine.Isolation

/- A loop is a choice with the loop in it.

   When the first round of a loop is written out, the rest of the loop stands in the block of
   a choice, and so it runs with one more scope around it. Nothing is ever declared in that
   scope. `Padded k` relates a machine to one with such an empty scope below its `k` innermost
   ones. Names are looked up and assigned through the empty scope as if it were not there,
   and a call sees neither it nor what is around it; so a piece does the same on both
   machines. There is one thing that may not happen: that a name is declared right into the
   scope. Expressions declare nothing (`Careful.padded`), and what a statement declares goes
   to a scope that has been opened since (`Made.padded`). A loop is made of both: of
   conditions, and of bodies in scopes of their own (`executeWhile_padded`).

   When the scope is closed, what is left differs in the log alone. Courses that end alike up
   to that are `Interchangeable`, and a course that cannot declare into the innermost scope
   is so with itself in a scope of its own (`interchangeable_inScope`). -/
namespace Bello

/-! ## Chains with an empty scope -/

namespace ScopeChain

/-- The second chain has one scope more, an empty one between `own` and `below`. It is among
    those that can be seen. -/
structure Padded (own below : List Scope) (c c' : ScopeChain) : Prop where
  locals : c.locals = own ++ below
  locals' : c'.locals = own ++ ∅ :: below
  globals : c'.globals = c.globals
  bases : c'.bases = c.bases
  seen : c.base ≤ below.length + 1

theorem base_congr {c c' : ScopeChain} (h : c'.bases = c.bases) : c'.base = c.base := by
  rw [base, base, h]

/-- A change passes an empty scope by. -/
theorem updateWithin_empty (name : String) (f : Binding → Binding) (n : Nat)
    (below : List Scope) :
    updateWithin name f (n + 1) (∅ :: below) = (updateWithin name f n below).map (∅ :: ·) := by
  have hempty : Scope.update? ∅ name f = none := by
    rw [Scope.update?, Std.ExtTreeMap.getElem?_empty, Option.map_none]
  rw [updateWithin, hempty]

namespace Padded

variable {own below : List Scope} {s : Scope} {c c' d d' : ScopeChain}

/-- Chains with the same parts are as good. -/
theorem ofParts (h : Padded own below c c') (hl : d.locals = c.locals)
    (hl' : d'.locals = c'.locals) (hg : d'.globals = d.globals) (hb : d.bases = c.bases)
    (hb' : d'.bases = c'.bases) : Padded own below d d' where
  locals := hl.trans h.locals
  locals' := hl'.trans h.locals'
  globals := hg
  bases := by rw [hb, hb', h.bases]
  seen := by rw [base_congr hb]; exact h.seen

/-- As many scopes can be seen below `own` as before, and the empty one. -/
theorem visibleCount (h : Padded own below c c') :
    ∃ n, c.visibleCount = own.length + n ∧ c'.visibleCount = own.length + (n + 1) := by
  have hsize : c.size = own.length + below.length := by
    rw [c.size_eq, h.locals, List.length_append]
  have hsize' : c'.size = own.length + (below.length + 1) := by
    rw [c'.size_eq, h.locals', List.length_append, List.length_cons]
  have hseen := h.seen
  refine ⟨below.length + 1 - c.base, ?_, ?_⟩
  · rw [ScopeChain.visibleCount, depth, hsize]
    omega
  · rw [ScopeChain.visibleCount, depth, hsize', base_congr h.bases]
    omega

theorem lookup (h : Padded own below c c') (name : String) :
    c'.lookup name = c.lookup name := by
  obtain ⟨n, hn, hn'⟩ := h.visibleCount
  rw [lookup_eq, lookup_eq, hn, hn', h.locals, h.locals', h.globals,
    List.take_length_add_append, List.take_length_add_append, List.take_succ_cons,
    List.findSome?_append, List.findSome?_append, List.findSome?_cons,
    Std.ExtTreeMap.getElem?_empty]

theorem update (h : Padded own below c c') (name : String) (f : Binding → Binding) :
    ∃ own' below', own'.length = own.length ∧
      Padded own' below' ((c.update? name f).getD c) ((c'.update? name f).getD c') := by
  obtain ⟨n, hn, hn'⟩ := h.visibleCount
  obtain ⟨hl, hg, hb⟩ := c.update?_parts name f
  obtain ⟨hl', hg', hb'⟩ := c'.update?_parts name f
  rw [hn, h.locals, updateWithin_append] at hl hg
  rw [hn', h.locals', updateWithin_append, updateWithin_empty] at hl' hg'
  have hbases := (hb'.trans h.bases).trans hb.symm
  have hseen := h.seen
  rw [← base_congr hb] at hseen
  -- The scope that is changed is above the empty one, below it, or global.
  cases ho : updateWithin name f own.length own with
  | some own' =>
    rw [ho] at hl hg hl' hg'
    exact ⟨own', below, length_updateWithin ho, hl, hl', hg'.trans (h.globals.trans hg.symm),
      hbases, hseen⟩
  | none =>
    rw [ho] at hl hg hl' hg'
    cases hr : updateWithin name f n below with
    | some below' =>
      rw [hr] at hl hg hl' hg'
      rw [← length_updateWithin hr] at hseen
      exact ⟨own, below', rfl, hl, hl', hg'.trans (h.globals.trans hg.symm), hbases, hseen⟩
    | none =>
      rw [hr] at hl hg hl' hg'
      rw [h.globals] at hg'
      exact ⟨own, below, rfl, hl, hl', hg'.trans hg.symm, hbases, hseen⟩

/-- A declaration goes to a scope above the empty one. -/
theorem define (h : Padded (s :: own) below c c') (name : String) (b : Binding) :
    (c.define name b = none ∧ c'.define name b = none) ∨
    ∃ d d', c.define name b = some d ∧ c'.define name b = some d' ∧
      Padded (s.insert name b :: own) below d d' := by
  rcases define_of_locals h.locals name b with ⟨hc, e⟩ | ⟨hc, d, e, hl, hg, hb⟩ <;>
  rcases define_of_locals h.locals' name b with ⟨hc', e'⟩ | ⟨hc', d', e', hl', hg', hb'⟩
  · exact .inl ⟨e, e'⟩
  · rw [hc] at hc'; cases hc'
  · rw [hc] at hc'; cases hc'
  · refine .inr ⟨d, d', e, e', hl, hl', ?_, ?_, ?_⟩
    · rw [hg, hg', h.globals]
    · rw [hb, hb', h.bases]
    · rw [base_congr hb]; exact h.seen

theorem pushScope (h : Padded own below c c') :
    Padded (∅ :: own) below c.pushScope c'.pushScope where
  locals := congrArg (∅ :: ·) h.locals
  locals' := congrArg (∅ :: ·) h.locals'
  globals := h.globals
  bases := h.bases
  seen := h.seen

theorem popScope (h : Padded (s :: own) below c c') :
    Padded own below c.popScope c'.popScope where
  locals := congrArg List.tail h.locals
  locals' := congrArg List.tail h.locals'
  globals := h.globals
  bases := h.bases
  seen := h.seen

/-- A new scope is such an empty one. -/
theorem begin (h : c.Sees) : Padded [] c.locals c c.pushScope where
  locals := rfl
  locals' := rfl
  globals := rfl
  bases := rfl
  seen := by
    rw [← c.size_eq]
    exact Nat.le_succ_of_le h

/-- Closing it brings back the chain without it. -/
theorem popScope_eq (h : Padded [] below c c') : c'.popScope = c := by
  refine eq_of_parts ?_ h.globals h.bases
  rw [h.locals]
  exact congrArg List.tail h.locals'

end Padded

end ScopeChain

namespace Exec

variable {C α β : Type}

/-! ## Machines with an empty scope -/

/-- Peers of which the second has an empty scope below its `k` innermost ones. -/
structure Padded (k : Nat) (m m' : Machine C) : Prop extends Peers m m' where
  chain : ∃ own below : List Scope, own.length = k ∧ m.chain.Padded own below m'.chain

namespace Padded

variable {k : Nat} {m m' n n' : Machine C}

theorem ofAside (h : Padded k m m') (ha : Aside m.chain m'.chain n n') : Padded k n n' := by
  obtain ⟨own, below, hk, hc⟩ := h.chain
  exact ⟨ha.toPeers, own, below, hk,
    hc.ofParts ha.locals₁ ha.locals₂ ha.globals ha.bases₁ ha.bases₂⟩

/-- The machines with other chains. -/
theorem withChain (h : Padded k m m') {own below : List Scope} {c c' : ScopeChain}
    (hc : c.Padded own below c') :
    Padded own.length { m with chain := c } { m' with chain := c' } :=
  ⟨⟨hc.globals, h.functions, h.activeCalls, h.callLimit, h.channel⟩, own, below, rfl, hc⟩

theorem note (h : Padded k m m') (e e' : Event) : Padded k (m.note e) (m'.note e') := by
  refine h.ofAside ⟨h.toPeers.note e e', ?_, ?_, ?_, ?_⟩
  all_goals rw [Machine.note_eq]

theorem pushScope (h : Padded k m m') : Padded (k + 1) m.pushScope m'.pushScope := by
  obtain ⟨own, below, rfl, hc⟩ := h.chain
  exact (h.withChain hc.pushScope).note _ _

theorem popScope (h : Padded (k + 1) m m') : Padded k m.popScope m'.popScope := by
  obtain ⟨own, below, hk, hc⟩ := h.chain
  obtain ⟨s, own, rfl⟩ := List.exists_cons_of_length_eq_add_one hk
  obtain rfl : own.length = k := Nat.succ.inj hk
  exact (h.withChain hc.popScope).note _ _

theorem begin (h : m.chain.Sees) : Padded 0 m m.pushScope := by
  simp only [Machine.pushScope, Machine.note_eq]
  exact ⟨⟨rfl, rfl, rfl, rfl, rfl⟩, [], m.chain.locals, rfl, .begin h⟩

theorem popScope_quiet (h : Padded 0 m m') : m'.popScope.quiet = m.quiet := by
  obtain ⟨own, below, hk, hc⟩ := h.chain
  obtain rfl := List.length_eq_zero_iff.1 hk
  rw [Machine.popScope, Machine.note_quiet]
  simp only [Machine.quiet, hc.popScope_eq, h.functions, h.activeCalls, h.callLimit, h.channel]

end Padded

/-! ## Courses that can stand for each other -/

namespace Course

/-- No bound is large enough to see an end. -/
def RunsForEver (x : Course C α) (m : Machine C) : Prop :=
  ∀ n, outcome (x.upTo n) m = .error .unfinished

/-- If one of the courses comes to an end from `m`, the other one does with the same result,
    and what they leave differs in the log at most. -/
structure Interchangeable (m : Machine C) (x y : Course C α) : Prop where
  left : ∀ r m₁, x.Settles m r m₁ → ∃ m₂, y.Settles m r m₂ ∧ m₂.quiet = m₁.quiet
  right : ∀ r m₂, y.Settles m r m₂ → ∃ m₁, x.Settles m r m₁ ∧ m₂.quiet = m₁.quiet

variable {m : Machine C} {x x' y y' : Course C α}

theorem runsForEver_or_settles (x : Course C α) (m : Machine C) :
    x.RunsForEver m ∨ ∃ r m', x.Settles m r m' := by
  by_cases h : x.RunsForEver m
  · exact .inl h
  · obtain ⟨n, hn⟩ := Classical.not_forall.1 h
    refine .inr ?_
    cases hx : x.upTo n m with
    | ok a m' => exact ⟨.ok a, m', n, hx⟩
    | error s m' =>
      cases s with
      | failed e => exact ⟨.error e, m', n, hx⟩
      | unfinished =>
        refine absurd ?_ hn
        rw [outcome, hx]

theorem Settles.not_runsForEver {r : Except Error α} {m' : Machine C} (h : x.Settles m r m') :
    ¬ x.RunsForEver m := by
  intro hever
  obtain ⟨n, hn⟩ := h
  have hout := hever n
  rw [outcome, hn] at hout
  cases r with
  | ok a => cases hout
  | error e => cases hout

namespace Interchangeable

theorem refl (m : Machine C) (x : Course C α) : Interchangeable m x x :=
  ⟨fun _ m₁ h => ⟨m₁, h, rfl⟩, fun _ m₁ h => ⟨m₁, h, rfl⟩⟩

theorem ofSettles (h : Interchangeable m x' y')
    (hx : ∀ r m', x.Settles m r m' ↔ x'.Settles m r m')
    (hy : ∀ r m', y.Settles m r m' ↔ y'.Settles m r m') : Interchangeable m x y := by
  constructor
  · intro r m₁ h₁
    obtain ⟨m₂, h₂, hq⟩ := h.left r m₁ ((hx r m₁).1 h₁)
    exact ⟨m₂, (hy r m₂).2 h₂, hq⟩
  · intro r m₂ h₂
    obtain ⟨m₁, h₁, hq⟩ := h.right r m₂ ((hy r m₂).1 h₂)
    exact ⟨m₁, (hx r m₁).2 h₁, hq⟩

/-- Courses after the same first half. -/
theorem bind {f g : α → Course C β}
    (h : ∀ a m₁, x.Settles m (.ok a) m₁ → Interchangeable m₁ (f a) (g a)) :
    Interchangeable m (x.bind f) (x.bind g) := by
  constructor
  · intro r m₂ hf
    rcases settles_bind.1 hf with ⟨a, m₁, hx, hf⟩ | ⟨e, rfl, hx⟩
    · obtain ⟨m₃, hg, hq⟩ := (h a m₁ hx).left r m₂ hf
      exact ⟨m₃, (settles_bind_ok hx).2 hg, hq⟩
    · exact ⟨m₂, settles_bind.2 (.inr ⟨e, rfl, hx⟩), rfl⟩
  · intro r m₂ hg
    rcases settles_bind.1 hg with ⟨a, m₁, hx, hg⟩ | ⟨e, rfl, hx⟩
    · obtain ⟨m₃, hf, hq⟩ := (h a m₁ hx).right r m₂ hg
      exact ⟨m₃, (settles_bind_ok hx).2 hf, hq⟩
    · exact ⟨m₂, settles_bind.2 (.inr ⟨e, rfl, hx⟩), rfl⟩

theorem runForEver_or_settle (h : Interchangeable m x y) :
    (x.RunsForEver m ∧ y.RunsForEver m) ∨
    ∃ r m₁ m₂, x.Settles m r m₁ ∧ y.Settles m r m₂ ∧ m₂.quiet = m₁.quiet := by
  rcases x.runsForEver_or_settles m with hx | ⟨r, m₁, hx⟩
  · refine .inl ⟨hx, ?_⟩
    rcases y.runsForEver_or_settles m with hy | ⟨r, m₂, hy⟩
    · exact hy
    · obtain ⟨m₁, hx', -⟩ := h.right r m₂ hy
      exact absurd hx hx'.not_runsForEver
  · obtain ⟨m₂, hy, hq⟩ := h.left r m₁ hx
    exact .inr ⟨r, m₁, m₂, hx, hy, hq⟩

end Interchangeable

/-- A course that does not notice an empty scope is as good in a scope of its own. -/
theorem interchangeable_inScope (hx : ∀ n, Respects (Padded 0) (x.upTo n))
    (hsee : m.chain.Sees) : Interchangeable m x x.inScope := by
  constructor
  · rintro r m₁ ⟨n, hn⟩
    have halike := hx n m m.pushScope (.begin hsee)
    rw [hn] at halike
    obtain ⟨m₂, hn', hpad⟩ := halike.ends
    exact ⟨m₂.popScope, settles_inScope.2 ⟨m₂, ⟨n, hn'⟩, rfl⟩, hpad.popScope_quiet⟩
  · intro r m₂ h
    obtain ⟨m₂, ⟨n, hn⟩, rfl⟩ := settles_inScope.1 h
    have halike := hx n m m.pushScope (.begin hsee)
    rw [hn] at halike
    obtain ⟨m₁, hn', hpad⟩ := halike.ends'
    exact ⟨m₁, ⟨n, hn'⟩, hpad.popScope_quiet⟩

theorem andThen_respects {R : Machine C → Machine C → Prop} {x y : Course C Flow}
    (hx : ∀ n, Respects R (x.upTo n)) (hy : ∀ n, Respects R (y.upTo n)) (n : Nat) :
    Respects R ((x.andThen y).upTo n) := by
  refine .bind' (hx n) (fun flow => ?_)
  cases flow with
  | normal => exact hy n
  | returned v => exact .pure' _

end Course

/-! ## Every step -/

section Steps

variable {k : Nat}

theorem lookup_padded (name : String) :
    Respects (Padded k) (lookup name : Exec C (Option Binding)) := by
  intro m m' h
  obtain ⟨own, below, -, hc⟩ := h.chain
  unfold Exec.lookup
  rw [hc.lookup name]
  exact .ok _ h

theorem set_padded (name : String) (v : Decimal) :
    Respects (Padded k) (set name v : Exec C Unit) := by
  intro m m' h
  obtain ⟨own, below, rfl, hc⟩ := h.chain
  obtain ⟨own', below', hk, hset⟩ := hc.update name _
  rw [set_ok, set_ok, ← hk]
  exact .ok () (h.withChain hset)

theorem define_padded (name : Ident) (b : Binding) :
    Respects (Padded (k + 1)) (define name b : Exec C Unit) := by
  intro m m' h
  obtain ⟨own, below, hk, hc⟩ := h.chain
  obtain ⟨s, own, rfl⟩ := List.exists_cons_of_length_eq_add_one hk
  rcases hc.define name.name b with ⟨e, e'⟩ | ⟨d, d', e, e', hd⟩
  · rw [define_error e, define_error e']
    exact .error _ h
  · rw [define_ok e, define_ok e']
    obtain rfl : own.length = k := Nat.succ.inj hk
    exact .ok () (h.withChain hd)

theorem inScope_padded {x : Exec C α} (hx : Respects (Padded (k + 1)) x) :
    Respects (Padded k) (inScope x) :=
  fun _ _ h => .between' (hx _ _ h.pushScope) (fun _ _ => .popScope)

theorem calling_padded (name : Ident) (args : Nat) (span : Span)
    {body : Function → Exec C Decimal} (hbody : ∀ f, Isolated (body f)) :
    Respects (Padded k) (calling name args span body) :=
  fun _ _ h => (calling_aside name args span hbody h.toPeers).mono (fun _ _ => h.ofAside)

theorem addFunction_padded (f : Function) :
    Respects (Padded k) (addFunction f : Exec C Unit) := by
  refine .addFunction' f (fun _ _ h => h.functions) (fun _ _ e h => h.note e e) (fun _ _ h => ?_)
  exact { h with functions := by simp only [Machine.knowing, h.functions] }

theorem Padded.sharesChannel (k : Nat) :
    SharesChannel (Padded k : Machine C → Machine C → Prop) :=
  fun _ _ h => ⟨h.channel, fun _ => { h with channel := rfl }⟩

end Steps

variable [Channel C]

/-- Below a scope that has been opened since, nothing notices the empty one. -/
theorem Made.padded {x : Exec C α} (h : Made x) : ∀ k, Respects (Padded (k + 1)) x := by
  induction h with
  | pure a => exact fun k => .pure' a
  | stop s => exact fun k => .stop s
  | bind _ _ hx hf => exact fun k => .bind' (hx k) (fun a => hf a k)
  | lookup name => exact fun k => lookup_padded name
  | define name b => exact fun k => define_padded name b
  | set name v => exact fun k => set_padded name v
  | read => exact fun k => .read' (Padded.sharesChannel (k + 1))
  | write v => exact fun k => .write' (Padded.sharesChannel (k + 1)) v
  | counting name first last => exact fun k m m' h => .ok () (h.note _ _)
  | inScope _ hx => exact fun k => inScope_padded (hx (k + 1))
  | call name args span hbody =>
    exact fun k => calling_padded name args span (fun f => (hbody f).isolated)
  | forget => exact fun k m m' h => .ok () { h with functions := rfl }
  | addFunction f => exact fun k => addFunction_padded f
  | registered constants => exact fun k m m' h => .ok () (h.note _ _)

/-- Computing a value does not notice it either, where it is the innermost one. -/
theorem Careful.padded {role : Role} {x : Exec C α} (h : Careful role x) (hrole : role = .value)
    (k : Nat) : Respects (Padded k) x := by
  induction h with
  | pure a => exact .pure' a
  | stop s => exact .stop s
  | lookup name => exact lookup_padded name
  | bind _ _ hx hf => exact .bind' (hx hrole) (fun a => hf a hrole)
  | call name args span hbody =>
    exact calling_padded name args span (fun f => (hbody f).made.isolated)
  | _ => cases hrole

variable (inFunction : Bool) (condition : Expr) (body : Block)

theorem block_padded (n k : Nat) :
    Respects (Padded k) (inScope (executeAll n inFunction body.statements) : Exec C Flow) :=
  inScope_padded ((executeAll_careful n inFunction body.statements).made.padded k)

/-- What a loop declares goes to the scopes of its rounds. -/
theorem executeWhile_padded (n k : Nat) :
    Respects (Padded k) (executeWhile n inFunction condition body : Exec C Flow) := by
  induction n with
  | zero =>
    simp only [executeWhile]
    exact .stop _
  | succ n ih =>
    simp only [executeWhile]
    refine .bind' ((evaluate_careful n condition).padded rfl k) (fun v => ?_)
    split
    · refine .bind' (block_padded inFunction body n k) (fun flow => ?_)
      cases flow with
      | returned v => exact .pure' _
      | normal => exact ih
    · exact .pure' _

/-! ## Loops -/

namespace Course

variable {inFunction condition body} {m m' : Machine C} {r : Except Error Flow}

/-- A sequence of one statement is the statement. -/
theorem settles_sequence_singleton {s : Stmt} :
    (sequence inFunction [s]).Settles m r m' ↔ (statement inFunction s).Settles m r m' := by
  have hnil : ∀ {m r m'}, (sequence inFunction [] : Course C Flow).Settles m r m' ↔
      r = .ok .normal ∧ m' = m := fun {_ _ _} =>
    (settles_of_succ (y := step (pure .normal)) fun _ => rfl).trans settles_pure
  rw [settles_sequence_cons, settles_andThen]
  simp only [hnil]
  constructor
  · rintro (⟨m₁, h, rfl, rfl⟩ | ⟨-, h⟩)
    · exact h
    · exact h
  · intro h
    by_cases hr : r = .ok .normal
    · subst hr
      exact .inl ⟨m', h, rfl, rfl⟩
    · exact .inr ⟨hr, h⟩

/-- The first round of a loop and the rest of it, as the statements of a block. -/
theorem settles_sequence_round {span : Span} :
    (sequence inFunction [.block body, .repeatWhile condition body span]).Settles m r m' ↔
      ((block inFunction body).andThen (loop inFunction condition body)).Settles m r m' := by
  rw [settles_sequence_cons, settles_andThen, settles_andThen]
  simp only [settles_block, settles_sequence_singleton, settles_repeatWhile]

theorem round_padded (n : Nat) : Respects (Padded 0)
    (((block inFunction body).andThen (loop inFunction condition body)).upTo n : Exec C Flow) :=
  andThen_respects (fun n => block_padded inFunction body n 0)
    (fun n => executeWhile_padded inFunction condition body n 0) n

/-- **Loops can be unrolled.** Take a loop, and the choice with the same condition that has in
    its block the body of the loop and then the loop. Both run for ever, or both end with the
    same flow or the same error and leave the same behind: the chain, the functions, the calls
    and the channel, everything but the log. -/
theorem repeatWhile_unrolls (inFunction : Bool) (condition : Expr) (body : Block)
    (h : m.chain.base < m.chain.depth) (span span' blockSpan choiceSpan : Span) :
    let rolled := statement inFunction (.repeatWhile condition body span)
    let unrolled := statement inFunction (.choose condition
      ⟨[.block body, .repeatWhile condition body span'], blockSpan⟩ none choiceSpan)
    (rolled.RunsForEver m ∧ unrolled.RunsForEver m) ∨
    ∃ r m₁ m₂, rolled.Settles m r m₁ ∧ unrolled.Settles m r m₂ ∧ m₂.quiet = m₁.quiet := by
  intro rolled unrolled
  have hsee : m.chain.Sees := Nat.le_of_lt_succ h
  -- Both look at the condition first, and it leaves as many scopes as it finds.
  have hsame : Interchangeable m rolled unrolled := by
    refine .ofSettles (.bind fun v m₁ hv => ?_)
      (fun _ _ => settles_repeatWhile.trans settles_loop) (fun _ _ => settles_choose)
    unfold branch
    cases v.isTruthy with
    | false => exact .refl m₁ _
    | true =>
      refine (interchangeable_inScope round_padded (value_sees hv hsee)).ofSettles
        (fun _ _ => Iff.rfl) (fun _ _ => ?_)
      show (sequence inFunction [.block body, .repeatWhile condition body span']).inScope.Settles
        _ _ _ ↔ _
      simp only [settles_inScope, settles_sequence_round]
  exact hsame.runForEver_or_settle

/-- A loop in a call that counts a variable down, and hides it in each round once it has
    done so. -/
theorem repeatWhile_unrolls_countdown :
    let at0 : Span := .point 0
    let x : Ident := ⟨"x", at0⟩
    let c : ScopeChain := ⟨[{("x", ⟨.one, true⟩)}, {("x", ⟨.zero, false⟩)}], ∅, [2], 2, rfl⟩
    let m : Machine Script := { Machine.new (.ofInputs []) 128 true with chain := c }
    let body : Block :=
      ⟨[.assign x (.binary .sub (.var x) (.number .one at0) at0) at0, .declare x at0], at0⟩
    let rolled := statement true (.repeatWhile (.var x) body at0)
    let unrolled := statement true (.choose (.var x)
      ⟨[.block body, .repeatWhile (.var x) body at0], at0⟩ none at0)
    m.chain.base < m.chain.depth ∧
    ∃ r m₁ m₂, rolled.Settles m r m₁ ∧ unrolled.Settles m r m₂ ∧ m₂.quiet = m₁.quiet := by
  dsimp only
  refine ⟨by decide, Or.resolve_left (repeatWhile_unrolls _ _ _ (by decide) _ _ _ _) ?_⟩
  -- Nine steps are enough to see the end.
  intro ⟨hever, _⟩
  have hends : (.ok .normal : Except Stop Flow) = .error .unfinished := hever 9
  cases hends

end Course

end Exec

end Bello
