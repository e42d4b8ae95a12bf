import Bello.Proofs.Machine.Steps
import Bello.Proofs.Scope.Operations

/- A call cannot tell from where it is made.

   Two machines with the same global scope, functions and channel, but with any local
   scopes and frames, make the same of a call. `Twin c₁ c₂ k` relates them while the call
   lasts: on top of the chains `c₁` and `c₂`, which may be of different length, both have a
   frame with the same scopes of its own, one and `k` more. Every step looks at those and at
   the global scope alone, so it does the same on both machines and leaves `c₁` and `c₂`
   where they are (`Made.isolated`). A call inside of the call begins the same argument
   anew, with the frame of its caller among what it cannot see. -/
namespace Bello

/-! ## Chains with a frame on top -/

namespace ScopeChain

variable {c below : ScopeChain} {own : List Scope}

/-- What can be seen are the scopes of the frame. -/
theorem visibleCount_of_frame (hl : c.locals = own ++ below.locals)
    (hb : c.bases = below.depth :: below.bases) : c.visibleCount = own.length := by
  have hs : c.size = own.length + below.size := by
    rw [c.size_eq, hl, List.length_append, below.size_eq]
  simp only [visibleCount, depth, base, hb, hs, List.head?_cons, Option.getD_some]
  omega

theorem lookup_of_frame (hl : c.locals = own ++ below.locals)
    (hb : c.bases = below.depth :: below.bases) (name : String) :
    c.lookup name = (own.findSome? (·[name]?)).or c.globals[name]? := by
  rw [lookup_eq, visibleCount_of_frame hl hb, hl, List.take_left]

theorem define_of_locals {s : Scope} {rest : List Scope} (hl : c.locals = s :: rest)
    (name : String) (b : Binding) :
    (s.contains name = true ∧ c.define name b = none) ∨
    (s.contains name = false ∧ ∃ c', c.define name b = some c' ∧
      c'.locals = s.insert name b :: rest ∧ c'.globals = c.globals ∧ c'.bases = c.bases) := by
  unfold define
  split
  · next h => rw [h] at hl; cases hl
  · next h =>
    rw [h] at hl
    cases hl
    cases hc : s.contains name with
    | true => exact .inl ⟨rfl, rfl⟩
    | false => exact .inr ⟨rfl, _, rfl, rfl, rfl, rfl⟩

/-- A change in a frame is made in a scope of the frame, or else in the global one. -/
theorem update?_of_frame (hl : c.locals = own ++ below.locals)
    (hb : c.bases = below.depth :: below.bases) (name : String) (f : Binding → Binding) :
    let c' := (c.update? name f).getD c
    c'.locals = (updateWithin name f own.length own).getD own ++ below.locals ∧
    c'.globals = (if (updateWithin name f own.length own).isSome then c.globals
      else (Scope.update? c.globals name f).getD c.globals) ∧
    c'.bases = c.bases := by
  -- The scopes below the frame have no part in it.
  have hset : updateWithin name f c.visibleCount c.locals =
      (updateWithin name f own.length own).map (· ++ below.locals) := by
    have happend := updateWithin_append name f 0 own below.locals
    rw [visibleCount_of_frame hl hb, hl]
    simpa [updateWithin] using happend
  obtain ⟨hl', hg', hb'⟩ := c.update?_parts name f
  rw [hset] at hl' hg'
  refine ⟨?_, ?_, hb'⟩
  · rw [hl', hl]
    cases updateWithin name f own.length own with
    | none => rfl
    | some own' => rfl
  · rw [hg', Option.isSome_map]

end ScopeChain

namespace Exec

variable {C : Type} {α : Type}

/-! ## Machines that differ in their callers -/

/-- The machines agree on everything that a call can see: on all but their local scopes and
    frames, and on the events, which tell how many scopes there are. -/
structure Peers (m₁ m₂ : Machine C) : Prop where
  globals : m₂.chain.globals = m₁.chain.globals
  functions : m₂.functions = m₁.functions
  activeCalls : m₂.activeCalls = m₁.activeCalls
  callLimit : m₂.callLimit = m₁.callLimit
  channel : m₂.channel = m₁.channel

/-- Peers with the local scopes and frames of the given chains. -/
structure Aside (c₁ c₂ : ScopeChain) (m₁ m₂ : Machine C) : Prop extends Peers m₁ m₂ where
  locals₁ : m₁.chain.locals = c₁.locals
  locals₂ : m₂.chain.locals = c₂.locals
  bases₁ : m₁.chain.bases = c₁.bases
  bases₂ : m₂.chain.bases = c₂.bases

/-- Peers in a frame that began on the given chains. The frame has the same scopes on both,
    `k` besides its first. -/
structure Twin (c₁ c₂ : ScopeChain) (k : Nat) (m₁ m₂ : Machine C) : Prop
    extends Peers m₁ m₂ where
  locals : ∃ own : List Scope, own.length = k + 1 ∧
    m₁.chain.locals = own ++ c₁.locals ∧ m₂.chain.locals = own ++ c₂.locals
  bases₁ : m₁.chain.bases = c₁.depth :: c₁.bases
  bases₂ : m₂.chain.bases = c₂.depth :: c₂.bases

theorem Peers.note {m₁ m₂ : Machine C} (h : Peers m₁ m₂) (e e' : Event) :
    Peers (m₁.note e) (m₂.note e') := by
  simp only [Machine.note_eq]
  exact ⟨h.globals, h.functions, h.activeCalls, h.callLimit, h.channel⟩

theorem Peers.aside {m₁ m₂ : Machine C} (h : Peers m₁ m₂) : Aside m₁.chain m₂.chain m₁ m₂ :=
  { h with locals₁ := rfl, locals₂ := rfl, bases₁ := rfl, bases₂ := rfl }

namespace Twin

variable {c₁ c₂ : ScopeChain} {k : Nat} {m₁ m₂ n₁ n₂ : Machine C}

/-- Chains with the same parts are as good. -/
theorem ofAside (h : Twin c₁ c₂ k m₁ m₂) (ha : Aside m₁.chain m₂.chain n₁ n₂) :
    Twin c₁ c₂ k n₁ n₂ where
  toPeers := ha.toPeers
  locals := by rw [ha.locals₁, ha.locals₂]; exact h.locals
  bases₁ := ha.bases₁.trans h.bases₁
  bases₂ := ha.bases₂.trans h.bases₂

theorem note (h : Twin c₁ c₂ k m₁ m₂) (e e' : Event) :
    Twin c₁ c₂ k (m₁.note e) (m₂.note e') := by
  refine h.ofAside ⟨h.toPeers.note e e', ?_, ?_, ?_, ?_⟩
  all_goals rw [Machine.note_eq]

theorem lookup (h : Twin c₁ c₂ k m₁ m₂) (name : String) :
    m₂.chain.lookup name = m₁.chain.lookup name := by
  obtain ⟨own, -, hl₁, hl₂⟩ := h.locals
  rw [ScopeChain.lookup_of_frame hl₁ h.bases₁, ScopeChain.lookup_of_frame hl₂ h.bases₂,
    h.globals]

theorem update (h : Twin c₁ c₂ k m₁ m₂) (name : String) (f : Binding → Binding) :
    Twin c₁ c₂ k { m₁ with chain := (m₁.chain.update? name f).getD m₁.chain }
      { m₂ with chain := (m₂.chain.update? name f).getD m₂.chain } := by
  obtain ⟨own, hk, hl₁, hl₂⟩ := h.locals
  obtain ⟨hs₁, hg₁, hb₁⟩ := ScopeChain.update?_of_frame hl₁ h.bases₁ name f
  obtain ⟨hs₂, hg₂, hb₂⟩ := ScopeChain.update?_of_frame hl₂ h.bases₂ name f
  refine ⟨⟨?_, h.functions, h.activeCalls, h.callLimit, h.channel⟩,
    ⟨_, ?_, hs₁, hs₂⟩, hb₁.trans h.bases₁, hb₂.trans h.bases₂⟩
  · rw [hg₁, hg₂, h.globals]
  · cases ho : ScopeChain.updateWithin name f own.length own with
    | none => exact hk
    | some own' => exact (ScopeChain.length_updateWithin ho).trans hk

theorem pushScope (h : Twin c₁ c₂ k m₁ m₂) : Twin c₁ c₂ (k + 1) m₁.pushScope m₂.pushScope := by
  obtain ⟨own, hk, hl₁, hl₂⟩ := h.locals
  simp only [Machine.pushScope, Machine.note_eq]
  refine ⟨⟨h.globals, h.functions, h.activeCalls, h.callLimit, h.channel⟩,
    ⟨∅ :: own, by rw [List.length_cons, hk], ?_, ?_⟩, h.bases₁, h.bases₂⟩
  · simp only [ScopeChain.pushScope, hl₁, List.cons_append]
  · simp only [ScopeChain.pushScope, hl₂, List.cons_append]

theorem popScope (h : Twin c₁ c₂ (k + 1) m₁ m₂) : Twin c₁ c₂ k m₁.popScope m₂.popScope := by
  obtain ⟨own, hk, hl₁, hl₂⟩ := h.locals
  obtain ⟨s, rest, rfl⟩ := List.exists_cons_of_length_eq_add_one hk
  simp only [Machine.popScope, Machine.note_eq]
  refine ⟨⟨h.globals, h.functions, h.activeCalls, h.callLimit, h.channel⟩,
    ⟨rest, by simpa using hk, ?_, ?_⟩, h.bases₁, h.bases₂⟩
  · simp only [ScopeChain.popScope, hl₁, List.cons_append, List.tail_cons]
  · simp only [ScopeChain.popScope, hl₂, List.cons_append, List.tail_cons]

/-- A frame begins on any two peers. -/
theorem enterCall (h : Peers m₁ m₂) : Twin m₁.chain m₂.chain 0 m₁.enterCall m₂.enterCall := by
  simp only [Machine.enterCall, Machine.note_eq]
  exact ⟨⟨h.globals, h.functions, congrArg (· + 1) h.activeCalls, h.callLimit, h.channel⟩,
    ⟨[∅], rfl, rfl, rfl⟩, rfl, rfl⟩

/-- Its end brings back what was below it. -/
theorem leaveCall (h : Twin c₁ c₂ 0 m₁ m₂) : Aside c₁ c₂ m₁.leaveCall m₂.leaveCall := by
  obtain ⟨own, hk, hl₁, hl₂⟩ := h.locals
  obtain ⟨s, rfl⟩ := List.length_eq_one_iff.1 hk
  have hpop : ∀ {c below : ScopeChain}, c.locals = [s] ++ below.locals →
      c.bases = below.depth :: below.bases →
      c.popFrame.locals = below.locals ∧ c.popFrame.globals = c.globals ∧
        c.popFrame.bases = below.bases := by
    intro c below hl hb
    have hs : c.size = below.size + 1 := by rw [c.size_eq, hl, below.size_eq]; rfl
    obtain ⟨hl', hg', hb', -⟩ := ScopeChain.popFrame_of_bases hb hs
    exact ⟨by rw [hl', hl]; rfl, hg', hb'⟩
  obtain ⟨hp₁, hg₁, hb₁⟩ := hpop hl₁ h.bases₁
  obtain ⟨hp₂, hg₂, hb₂⟩ := hpop hl₂ h.bases₂
  simp only [Machine.leaveCall, Machine.note_eq]
  exact ⟨⟨by rw [hg₁, hg₂, h.globals], h.functions, congrArg (· - 1) h.activeCalls, h.callLimit,
    h.channel⟩, hp₁, hp₂, hb₁, hb₂⟩

end Twin

/-- On machines that differ in their chains, the piece does the same: it ends alike, with
    the same channel and the same global scope; and it leaves the local scopes and the
    frames of each chain as they are. -/
structure Separate (x : Exec C α) (m : Machine C) (c₁ c₂ : ScopeChain) : Prop where
  outcome : outcome x { m with chain := c₂ } = outcome x { m with chain := c₁ }
  channel : (final x { m with chain := c₂ }).channel = (final x { m with chain := c₁ }).channel
  globals : (final x { m with chain := c₂ }).chain.globals =
    (final x { m with chain := c₁ }).chain.globals
  locals₁ : (final x { m with chain := c₁ }).chain.locals = c₁.locals
  locals₂ : (final x { m with chain := c₂ }).chain.locals = c₂.locals
  bases₁ : (final x { m with chain := c₁ }).chain.bases = c₁.bases
  bases₂ : (final x { m with chain := c₂ }).chain.bases = c₂.bases

theorem Alike.separate {x : Exec C α} {m : Machine C} {c₁ c₂ : ScopeChain}
    (h : Alike (Aside c₁ c₂) (x { m with chain := c₁ }) (x { m with chain := c₂ })) :
    Separate x m c₁ c₂ := by
  obtain ⟨ho, ha⟩ := h.outcome_final
  exact ⟨ho.symm, ha.channel, ha.globals, ha.locals₁, ha.locals₂, ha.bases₁, ha.bases₂⟩

/-! ## Every step -/

/-- In a frame of its own the piece does the same, whatever is below. -/
def Isolated (x : Exec C α) : Prop := ∀ c₁ c₂ k, Respects (Twin c₁ c₂ k) x

theorem define_isolated (name : Ident) (b : Binding) :
    Isolated (define name b : Exec C Unit) := by
  intro c₁ c₂ k m₁ m₂ h
  obtain ⟨own, hk, hl₁, hl₂⟩ := h.locals
  obtain ⟨s, rest, rfl⟩ := List.exists_cons_of_length_eq_add_one hk
  rcases ScopeChain.define_of_locals hl₁ name.name b with
    ⟨hc, e₁⟩ | ⟨hc, c₁', e₁, hs₁, hg₁, hb₁⟩ <;>
  rcases ScopeChain.define_of_locals hl₂ name.name b with
    ⟨hc', e₂⟩ | ⟨hc', c₂', e₂, hs₂, hg₂, hb₂⟩
  · rw [define_error e₁, define_error e₂]
    exact .error _ h
  · rw [hc] at hc'; cases hc'
  · rw [hc] at hc'; cases hc'
  · rw [define_ok e₁, define_ok e₂]
    exact .ok () ⟨⟨by rw [hg₁, hg₂, h.globals], h.functions, h.activeCalls, h.callLimit,
      h.channel⟩, ⟨s.insert name.name b :: rest, by simpa using hk, hs₁, hs₂⟩,
      hb₁.trans h.bases₁, hb₂.trans h.bases₂⟩

theorem set_isolated (name : String) (v : Decimal) :
    Isolated (set name v : Exec C Unit) := by
  intro c₁ c₂ k m₁ m₂ h
  rw [set_ok, set_ok]
  exact .ok () (h.update name _)

theorem inScope_isolated {x : Exec C α} (hx : Isolated x) : Isolated (inScope x) :=
  fun c₁ c₂ k _ _ h => .between' (hx c₁ c₂ (k + 1) _ _ h.pushScope) (fun _ _ => .popScope)

theorem calling_aside (name : Ident) (args : Nat) (span : Span)
    {body : Function → Exec C Decimal} (hbody : ∀ f, Isolated (body f)) {m₁ m₂ : Machine C}
    (h : Peers m₁ m₂) :
    Alike (Aside m₁.chain m₂.chain) (calling name args span body m₁)
      (calling name args span body m₂) := by
  refine .calling' (R := Twin m₁.chain m₂.chain 0) name args span h.aside h.functions
    h.activeCalls h.callLimit (fun f => hbody f _ _ _ _ _ ?_) (fun _ _ => Twin.leaveCall)
  have := Twin.enterCall (h.note (.called name.name args) (.called name.name args))
  simpa only [Machine.note_eq] using this

theorem addFunction_isolated (f : Function) : Isolated (addFunction f : Exec C Unit) := by
  intro c₁ c₂ k
  refine .addFunction' f (fun _ _ h => h.functions) (fun _ _ e h => h.note e e) (fun _ _ h => ?_)
  exact { h with functions := by simp only [Machine.knowing, h.functions] }

theorem Twin.sharesChannel (c₁ c₂ : ScopeChain) (k : Nat) :
    SharesChannel (Twin c₁ c₂ k : Machine C → Machine C → Prop) :=
  fun _ _ h => ⟨h.channel, fun _ => { h with channel := rfl }⟩

variable [Channel C]

theorem Made.isolated {x : Exec C α} (h : Made x) : Isolated x := by
  induction h with
  | pure a => exact fun c₁ c₂ k => .pure' a
  | stop s => exact fun c₁ c₂ k => .stop s
  | bind _ _ hx hf => exact fun c₁ c₂ k => .bind' (hx c₁ c₂ k) (fun a => hf a c₁ c₂ k)
  | lookup name =>
    intro c₁ c₂ k m₁ m₂ h
    unfold Exec.lookup
    rw [h.lookup name]
    exact .ok _ h
  | define name b => exact define_isolated name b
  | set name v => exact set_isolated name v
  | read => exact fun c₁ c₂ k => .read' (Twin.sharesChannel c₁ c₂ k)
  | write v => exact fun c₁ c₂ k => .write' (Twin.sharesChannel c₁ c₂ k) v
  | counting name first last => exact fun c₁ c₂ k m₁ m₂ h => .ok () (h.note _ _)
  | inScope _ hx => exact inScope_isolated hx
  | call name args span _ hbody =>
    -- Twins are peers, so the call sees no difference; it gives back both frames as they were.
    intro c₁ c₂ k m₁ m₂ h
    exact (calling_aside name args span hbody h.toPeers).mono (fun _ _ => h.ofAside)
  | forget => exact fun c₁ c₂ k m₁ m₂ h => .ok () { h with functions := rfl }
  | addFunction f => exact addFunction_isolated f
  | registered constants => exact fun c₁ c₂ k m₁ m₂ h => .ok () (h.note _ _)

/-! ## Calls -/

theorem invoke_aside (n : Nat) (name : Ident) (values : List Decimal) (span : Span)
    {m₁ m₂ : Machine C} (h : Peers m₁ m₂) :
    Alike (Aside m₁.chain m₂.chain) (invoke n name values span m₁)
      (invoke n name values span m₂) := by
  cases n with
  | zero => simp only [invoke]; exact .error _ h.aside
  | succ n =>
    simp only [invoke, deepening_eq]
    refine calling_aside name values.length span (fun f => Made.isolated ?_) h
    refine .bind (Careful.bindParams' f.params values).made (fun _ => ?_)
    refine .bind (.inScope (executeAll_careful n true f.body.statements).made) (fun flow => ?_)
    exact (Careful.callResult' f span flow).made

/-- Numbers as arguments are their own values, if the bound lets them be looked at. -/
theorem evaluateAll_numbers (span : Span) : ∀ (n : Nat) (values : List Decimal),
    (evaluateAll n (values.map (Expr.number · span)) : Exec C (List Decimal)) = unfinished ∨
    (evaluateAll n (values.map (Expr.number · span)) : Exec C (List Decimal)) = pure values
  | 0, _ => .inl (by simp only [evaluateAll])
  | n + 1, [] => .inr (by simp only [List.map_nil, evaluateAll])
  -- The list takes one unit of the bound, and its head another.
  | 0 + 1, v :: values => .inl (by simp only [List.map_cons, evaluateAll, evaluate]; rfl)
  | n + 1 + 1, v :: values => by
    simp only [List.map_cons]
    rw [evaluateAll, evaluate]
    rcases evaluateAll_numbers span (n + 1) values with h | h
    · rw [h]; exact .inl rfl
    · rw [h]; exact .inr rfl

theorem evaluate_call_aside (n : Nat) (name : Ident) (values : List Decimal) (s span : Span)
    {m₁ m₂ : Machine C} (h : Peers m₁ m₂) :
    Alike (Aside m₁.chain m₂.chain)
      (evaluate n (.call name (values.map (Expr.number · s)) span) m₁)
      (evaluate n (.call name (values.map (Expr.number · s)) span) m₂) := by
  cases n with
  | zero => simp only [evaluate]; exact .error _ h.aside
  | succ n =>
    simp only [evaluate]
    rcases evaluateAll_numbers (C := C) s n values with e | e
    · rw [e]; exact .error _ h.aside
    · rw [e]
      simp only [pure_bind]
      cases Builtin.ofName? name.name with
      | none => exact invoke_aside n name values span h
      | some b =>
        simp only
        cases b.apply values with
        | ok v => exact .ok v h.aside
        | error cause => exact .error _ h.aside

/-- A call of any name with any values cannot tell two chains with the same global scope
    apart, whether it is made by itself or as an expression. -/
theorem calls_isolated (n : Nat) (m : Machine C) (name : Ident) (values : List Decimal)
    (span : Span) (c₁ c₂ : ScopeChain) (h : c₂.globals = c₁.globals) :
    Separate (invoke n name values span) m c₁ c₂ ∧
    ∀ s, Separate (evaluate n (.call name (values.map (Expr.number · s)) span)) m c₁ c₂ := by
  have hp : Peers { m with chain := c₁ } { m with chain := c₂ } := ⟨h, rfl, rfl, rfl, rfl⟩
  exact ⟨(invoke_aside n name values span hp).separate,
    fun s => (evaluate_call_aside n name values s span hp).separate⟩

/-- A function that gives back `x` sees no `x` of its caller. -/
theorem calls_isolated_of_local :
    let at0 : Span := .point 0
    let f : Function := ⟨⟨"f", at0⟩, [], ⟨[.giveBack (.var ⟨"x", at0⟩) at0], at0⟩, at0⟩
    let m : Machine Script := { Machine.new ⟨[], []⟩ 128 false with functions := {("f", f)} }
    let c : ScopeChain := ⟨[{("x", ⟨.one, true⟩)}], ∅, [], 1, rfl⟩
    c.globals = ScopeChain.new.globals ∧ Separate (invoke 9 ⟨"f", at0⟩ [] at0) m .new c := by
  intro at0 f m c
  have hc : c.globals = ScopeChain.new.globals := rfl
  exact ⟨hc, (calls_isolated 9 m ⟨"f", at0⟩ [] at0 .new c hc).1⟩

end Exec

end Bello
