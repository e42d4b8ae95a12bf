import Bello.Proofs.Machine.Steps
import Bello.Proofs.Scope.Operations

/- The stack is the same after a run as before it.

   Scopes, frames and the count of active calls are pushed by blocks, counting loops and
   calls, and every one of them can be left by an error or a return at any depth.
   `Machine.Balanced m m'` says that `m'` has as many scopes as `m`, the same frames and
   the same count of calls, and what the calls in between did: `Event.CallsWithin` reads
   them off the events that were logged, every one of which is a moment of the run. Every
   piece that is made of the steps of a run is balanced (`Made.balanced`), by one case for
   each step.

   What is logged depends on whether events are kept, but nothing else does: a piece does
   the same on the machine that keeps none (`Made.hushed`). So the bound on calls, read off
   the log of one machine, holds of the run on every machine. -/
namespace Bello

/-! ## Calls in a log -/

namespace Event

/-- A call begins. -/
def isCall : Event → Bool
  | called _ _ => true
  | _ => false

/-- A call ends. -/
def isReturn : Event → Bool
  | framePopped _ => true
  | _ => false

/-- How many calls have begun and not ended, by the events of a log. -/
def underWay (log : List Event) : Int := log.countP isCall - log.countP isReturn

theorem underWay_nil : underWay [] = 0 := rfl

theorem underWay_append (l₁ l₂ : List Event) :
    underWay (l₁ ++ l₂) = underWay l₁ + underWay l₂ := by
  simp only [underWay, List.countP_append]
  omega

/-- The events of a log, last first, begin and end calls in turn. At each moment, when only
    the events from the `i`-th on had happened, those under way fit the limit, unless they
    were beyond it from the start. -/
structure CallsWithin (active limit : Nat) (events : List Event) : Prop where
  closed : underWay events = 0
  begun : ∀ i, 0 ≤ underWay (events.drop i)
  bounded : ∀ i, active + underWay (events.drop i) ≤ max active limit

namespace CallsWithin

variable {active limit : Nat} {events later : List Event}

theorem nil : CallsWithin active limit [] := by
  have hu : ∀ i, underWay (([] : List Event).drop i) = 0 := by
    intro i
    rw [List.drop_nil, underWay_nil]
  refine ⟨rfl, fun i => Int.le_of_eq (hu i).symm, fun i => ?_⟩
  rw [hu i]
  omega

/-- What happened later is judged from the state that was reached, which is the first one. -/
theorem append (h : CallsWithin active limit events) (h' : CallsWithin active limit later) :
    CallsWithin active limit (later ++ events) := by
  -- A moment lies among the later events, when all the earlier calls are over, or before.
  have hsplit : ∀ i, underWay ((later ++ events).drop i) = underWay (later.drop i) ∨
      underWay ((later ++ events).drop i) = underWay (events.drop (i - later.length)) := by
    intro i
    rw [List.drop_append, underWay_append]
    by_cases hi : i ≤ later.length
    · rw [Nat.sub_eq_zero_of_le hi, List.drop_zero, h.closed]
      exact .inl (Int.add_zero _)
    · rw [List.drop_eq_nil_of_le (by omega), underWay_nil]
      exact .inr (Int.zero_add _)
  refine ⟨by rw [underWay_append, h.closed, h'.closed]; rfl, fun i => ?_, fun i => ?_⟩
  · rcases hsplit i with e | e
    · rw [e]; exact h'.begun i
    · rw [e]; exact h.begun _
  · rcases hsplit i with e | e
    · rw [e]; exact h'.bounded i
    · rw [e]; exact h.bounded _

theorem single {e : Event} (hc : e.isCall = false) (hr : e.isReturn = false) :
    CallsWithin active limit [e] := by
  have hu : ∀ i, underWay ([e].drop i) = 0 := by
    intro i
    cases i with
    | zero => simp [underWay, hc, hr]
    | succ i => simp [underWay]
  refine ⟨hu 0, fun i => Int.le_of_eq (hu i).symm, fun i => ?_⟩
  rw [hu i]
  omega

/-- The calls of a body are fine from outside of its call too. -/
theorem lower (hlt : active < limit) (h : CallsWithin (active + 1) limit events) :
    CallsWithin active limit events := by
  refine ⟨h.closed, h.begun, fun i => ?_⟩
  have := h.bounded i
  omega

/-- A whole call: its beginning, the scope of its frame, its body and its end. -/
theorem call (hlt : active < limit) (h : CallsWithin (active + 1) limit events)
    (name : String) (args depth depth' : Nat) :
    CallsWithin active limit
      (framePopped depth' :: (events ++ [scopePushed depth, called name args])) := by
  have hpair : ∀ i, 0 ≤ underWay ([scopePushed depth, called name args].drop i) ∧
      underWay ([scopePushed depth, called name args].drop i) ≤ 1 := by
    intro i
    match i with
    | 0 => simp [underWay, isCall, isReturn]
    | 1 => simp [underWay, isCall, isReturn]
    | i + 2 => simp [underWay]
  -- As long as the body runs, its call is under way besides those that the body makes.
  have hrest : ∀ i, 0 ≤ underWay ((events ++ [scopePushed depth, called name args]).drop i) ∧
      active + underWay ((events ++ [scopePushed depth, called name args]).drop i) ≤
        max active limit := by
    intro i
    rw [List.drop_append, underWay_append]
    have hp := hpair (i - events.length)
    by_cases hi : i ≤ events.length
    · have hb := h.bounded i
      have hn := h.begun i
      omega
    · rw [List.drop_eq_nil_of_le (by omega), underWay_nil]
      omega
  have hall : underWay (framePopped depth' :: (events ++ [scopePushed depth, called name args])) =
      0 := by
    have := h.closed
    simp only [underWay, List.countP_cons, List.countP_append, List.countP_nil, isCall,
      isReturn] at this ⊢
    simp only [if_true, Bool.false_eq_true, if_false]
    omega
  refine ⟨hall, fun i => ?_, fun i => ?_⟩
  · cases i with
    | zero => exact Int.le_of_eq hall.symm
    | succ i => exact (hrest i).1
  · cases i with
    | zero => rw [List.drop_zero, hall]; omega
    | succ i => exact (hrest i).2

end CallsWithin

end Event

/-! ## Machines with the same stack -/

namespace Machine

variable {C : Type}

theorem noted_within (m : Machine C) {e : Event} (hc : e.isCall = false)
    (hr : e.isReturn = false) {active limit : Nat} :
    Event.CallsWithin active limit (m.noted e) := by
  unfold noted
  split
  · exact .single hc hr
  · exact .nil

/-- As many scopes, the same frames and as many calls under way; the log grew by the events
    of calls that began within the limit and ended. -/
structure Balanced (m m' : Machine C) : Prop where
  depth : m'.chain.depth = m.chain.depth
  bases : m'.chain.bases = m.chain.bases
  activeCalls : m'.activeCalls = m.activeCalls
  callLimit : m'.callLimit = m.callLimit
  tracing : m'.tracing = m.tracing
  log : ∃ events, m'.log = events ++ m.log ∧
    Event.CallsWithin m.activeCalls m.callLimit events

namespace Balanced

variable {m m' m₁ m₂ m₃ : Machine C}

theorem refl (m : Machine C) : Balanced m m := ⟨rfl, rfl, rfl, rfl, rfl, [], rfl, .nil⟩

theorem trans ⦃m₁ m₂ m₃ : Machine C⦄ (h : Balanced m₁ m₂) (h' : Balanced m₂ m₃) :
    Balanced m₁ m₃ := by
  obtain ⟨events, hl, hc⟩ := h.log
  obtain ⟨later, hl', hc'⟩ := h'.log
  rw [h.activeCalls, h.callLimit] at hc'
  refine ⟨h'.depth.trans h.depth, h'.bases.trans h.bases, h'.activeCalls.trans h.activeCalls,
    h'.callLimit.trans h.callLimit, h'.tracing.trans h.tracing, later ++ events, ?_, ?_⟩
  · rw [hl', hl, List.append_assoc]
  · exact hc.append hc'

theorem ofChain {chain : ScopeChain} (hs : chain.size = m.chain.size)
    (hb : chain.bases = m.chain.bases) : Balanced m { m with chain } :=
  ⟨by simp only [ScopeChain.depth, hs], hb, rfl, rfl, rfl, [], rfl, .nil⟩

theorem ofChannel (channel : C) : Balanced m { m with channel } :=
  ⟨rfl, rfl, rfl, rfl, rfl, [], rfl, .nil⟩

theorem ofFunctions (functions : Std.ExtTreeMap String Function) :
    Balanced m { m with functions } :=
  ⟨rfl, rfl, rfl, rfl, rfl, [], rfl, .nil⟩

theorem note {e : Event} (hc : e.isCall = false) (hr : e.isReturn = false) :
    Balanced m (m.note e) := by
  rw [note_eq]
  exact ⟨rfl, rfl, rfl, rfl, rfl, m.noted e, rfl, m.noted_within hc hr⟩

/-- A scope that is opened before and closed after. -/
theorem inScope (h : Balanced m.pushScope m') : Balanced m m'.popScope := by
  have hp : m.pushScope.activeCalls = m.activeCalls ∧ m.pushScope.callLimit = m.callLimit ∧
      m.pushScope.tracing = m.tracing ∧ m.pushScope.chain = m.chain.pushScope := by
    simp only [pushScope, note_eq, and_self]
  obtain ⟨ha, hlim, ht, hch⟩ := hp
  obtain ⟨events, hl, hc⟩ := h.log
  rw [ha, hlim] at hc
  have hd := h.depth
  have hb := h.bases
  rw [hch] at hd hb
  simp only [ScopeChain.depth, ScopeChain.pushScope] at hd hb
  refine ⟨?_, ?_, ?_, ?_, ?_, ?_⟩
  · simp only [popScope, note_eq, ScopeChain.depth, ScopeChain.popScope]; omega
  · simp only [popScope, note_eq, ScopeChain.popScope, hb]
  · simp only [popScope, note_eq, h.activeCalls, ha]
  · simp only [popScope, note_eq, h.callLimit, hlim]
  · simp only [popScope, note_eq, h.tracing, ht]
  · refine ⟨m'.noted (.scopePopped m'.chain.popScope.depth) ++
      (events ++ m.noted (.scopePushed m.chain.pushScope.depth)), ?_, ?_⟩
    · simp only [popScope, note_eq, hl, pushScope, noted, List.append_assoc]
    · exact ((m.noted_within rfl rfl).append hc).append (m'.noted_within rfl rfl)

/-- A call below the limit, from its announcement to the end of its frame. -/
theorem inFrame {name : String} {args : Nat} (hlt : m.activeCalls < m.callLimit)
    (h : Balanced (m.note (.called name args)).enterCall m') : Balanced m m'.leaveCall := by
  have hp : (m.note (.called name args)).enterCall =
      { m with
        chain := m.chain.pushFrame, activeCalls := m.activeCalls + 1,
        log := m.noted (.scopePushed m.chain.pushFrame.depth) ++
          (m.noted (.called name args) ++ m.log) } := by
    simp only [enterCall, note_eq, noted]
  rw [hp] at h
  obtain ⟨events, hl, hc⟩ := h.log
  have hd := h.depth
  have hb := h.bases
  simp only [ScopeChain.depth, ScopeChain.pushFrame, ScopeChain.pushScope] at hd hb
  simp only at hl hc
  obtain ⟨-, -, hbases, hsize⟩ :=
    ScopeChain.popFrame_of_bases (c := m.chain) hb (by omega)
  refine ⟨?_, ?_, ?_, ?_, ?_, ?_⟩
  · simp only [leaveCall, note_eq, ScopeChain.depth, hsize]
  · simp only [leaveCall, note_eq, hbases]
  · simp only [leaveCall, note_eq, h.activeCalls, Nat.add_sub_cancel]
  · simp only [leaveCall, note_eq, h.callLimit]
  · simp only [leaveCall, note_eq, h.tracing]
  · have ht : m'.tracing = m.tracing := h.tracing
    refine ⟨m'.noted (.framePopped m'.chain.popFrame.depth) ++ (events ++
      (m.noted (.scopePushed m.chain.pushFrame.depth) ++ m.noted (.called name args))), ?_, ?_⟩
    · simp only [leaveCall, note_eq, hl, noted, List.append_assoc]
    · simp only [noted, ht]
      -- Without events the call is not seen, and the body's bound is that of the whole.
      cases m.tracing with
      | true => exact .call hlt hc name args _ _
      | false =>
        simp only [Bool.false_eq_true, if_false, List.append_nil, List.nil_append]
        exact .lower hlt hc

end Balanced

/-- The machine with an empty log, which it fills from now on. -/
def traced (m : Machine C) : Machine C := { m with tracing := true, log := [] }

/-- The machine when no events are kept. -/
def quiet (m : Machine C) : Machine C := { m with tracing := false, log := [] }

theorem note_quiet (m : Machine C) (e : Event) : (m.note e).quiet = m.quiet := by
  rw [note_eq]; rfl

theorem knowing_quiet (m : Machine C) (f : Function) :
    (m.knowing f).quiet = m.quiet.knowing f := rfl

theorem pushScope_quiet (m : Machine C) : m.pushScope.quiet = m.quiet.pushScope := by
  rw [pushScope, note_quiet]; rfl

theorem popScope_quiet (m : Machine C) : m.popScope.quiet = m.quiet.popScope := by
  rw [popScope, note_quiet]; rfl

theorem enterCall_quiet (m : Machine C) : m.enterCall.quiet = m.quiet.enterCall := by
  rw [enterCall, note_quiet]; rfl

theorem leaveCall_quiet (m : Machine C) : m.leaveCall.quiet = m.quiet.leaveCall := by
  rw [leaveCall, note_quiet]; rfl

end Machine

/-! ## Pieces of a run -/

namespace Exec

open Machine (Balanced)

variable {C : Type} {α : Type}

theorem define_balanced (name : Ident) (b : Binding) :
    Keeps Balanced (define name b : Exec C Unit) := by
  intro m
  cases h : m.chain.define name.name b with
  | none => rw [final_error (define_error h)]; exact .refl m
  | some chain =>
    obtain ⟨hs, hb, -⟩ := ScopeChain.define_some h
    rw [final_ok (define_ok h)]
    exact .ofChain hs hb

theorem set_balanced (name : String) (v : Decimal) :
    Keeps Balanced (set name v : Exec C Unit) := by
  intro m
  rw [final_ok (set_ok name v m)]
  cases h : m.chain.set? name v with
  | none => exact .refl m
  | some chain =>
    obtain ⟨hs, hb, -⟩ := ScopeChain.update?_some h
    exact .ofChain hs hb

theorem inScope_balanced {x : Exec C α} (h : Keeps Balanced x) : Keeps Balanced (inScope x) := by
  intro m
  rw [inScope, final_between]
  exact .inScope (h m.pushScope)

theorem note_balanced {e : Event} (hc : e.isCall = false) (hr : e.isReturn = false) :
    Keeps Balanced (note e : Exec C Unit) := fun _ => .note hc hr

/-! ## Pieces on machines that keep no events -/

/-- The outcome with a machine that keeps no events. -/
def hush : EStateM.Result Stop (Machine C) α → EStateM.Result Stop (Machine C) α
  | .ok a m => .ok a m.quiet
  | .error e m => .error e m.quiet

/-- The second machine is the first one without its events. -/
def Hushes (m m' : Machine C) : Prop := m' = m.quiet

theorem Alike.hush_eq {r r' : EStateM.Result Stop (Machine C) α} (h : Alike Hushes r r') :
    r' = hush r := by
  cases h with
  | ok a h => rw [h]; rfl
  | error e h => rw [h]; rfl

theorem sharesChannel_hushes : SharesChannel (Hushes : Machine C → Machine C → Prop) := by
  rintro m _ rfl
  exact ⟨rfl, fun _ => rfl⟩

/-! ## Every step -/

variable [Channel C]

theorem read_balanced : Keeps Balanced (read : Exec C Decimal) := by
  intro m
  rcases read_cases m with ⟨v, channel, e⟩ | ⟨s, channel, e⟩
  · rw [final_ok e]; exact .ofChannel channel
  · rw [final_error e]; exact .ofChannel channel

theorem write_balanced (d : Decimal) : Keeps Balanced (write d : Exec C Unit) := by
  intro m
  rcases write_cases d m with ⟨channel, e⟩ | ⟨s, channel, e⟩
  · rw [final_ok e]; exact .ofChannel channel
  · rw [final_error e]; exact .ofChannel channel

theorem Made.balanced {x : Exec C α} (h : Made x) : Keeps Balanced x := by
  induction h with
  | pure a => exact .pure' .refl a
  | stop s => exact .stop .refl s
  | bind _ _ hx hf => exact .bind' .trans hx hf
  | lookup name => exact fun m => .refl m
  | define name b => exact define_balanced name b
  | set name v => exact set_balanced name v
  | read => exact read_balanced
  | write v => exact write_balanced v
  | counting name first last => exact note_balanced rfl rfl
  | inScope _ hx => exact inScope_balanced hx
  | call name args span _ hbody =>
    intro m
    rcases callee_cases name args span m m rfl rfl rfl with ⟨f, e, -, hlt⟩ | ⟨s, e, -⟩
    · rw [final_congr (calling_ok e), inFrame, final_between]
      exact .inFrame hlt (hbody f _)
    · rw [final_error (calling_error e)]
      exact .refl m
  | forget => exact fun m => .ofFunctions ∅
  | addFunction f =>
    intro m
    rcases addFunction_cases f m m rfl with ⟨s, e, -⟩ | ⟨e, -⟩ | ⟨e, -⟩
    · rw [final_error e]; exact .refl m
    · rw [final_ok e]; exact .ofFunctions _
    · rw [final_ok e]; exact .trans (.note rfl rfl) (.ofFunctions _)
  | registered constants => exact fun m => .note rfl rfl

/-- No step looks at the log. -/
theorem Made.hushed {x : Exec C α} (h : Made x) : Respects Hushes x := by
  induction h with
  | pure a => exact .pure' a
  | stop s => exact .stop s
  | bind _ _ hx hf => exact .bind' hx hf
  | lookup name => rintro m _ rfl; exact .ok _ rfl
  | define name b =>
    rintro m _ rfl
    unfold Exec.define
    simp only [Machine.quiet]
    cases m.chain.define name.name b with
    | none => exact .error _ rfl
    | some chain => exact .ok _ rfl
  | set name v =>
    rintro m _ rfl
    rw [set_ok, set_ok]
    exact .ok () rfl
  | read => exact .read' sharesChannel_hushes
  | write v => exact .write' sharesChannel_hushes v
  | counting name first last => rintro m _ rfl; exact .ok () (m.note_quiet _).symm
  | inScope _ hx =>
    rintro m _ rfl
    exact .between' (hx _ _ m.pushScope_quiet.symm)
      (by rintro n _ rfl; exact n.popScope_quiet.symm)
  | call name args span _ hbody =>
    rintro m _ rfl
    refine .calling' name args span rfl rfl rfl rfl (fun f => hbody f _ _ ?_)
      (by rintro n _ rfl; exact n.leaveCall_quiet.symm)
    rw [Hushes, Machine.enterCall_quiet, Machine.note_quiet]
    rfl
  | forget => rintro m _ rfl; exact .ok () rfl
  | addFunction f =>
    refine .addFunction' f ?_ ?_ ?_
    · rintro m _ rfl; rfl
    · rintro m _ e rfl; exact (m.note_quiet e).symm
    · rintro m _ rfl; exact (m.knowing_quiet f).symm
  | registered constants => rintro m _ rfl; exact .ok () (m.note_quiet _).symm

/-! ## Every run -/

/-- Whatever the machine, the piece leaves its stack as it found it, and at no moment are
    more calls under way than the limit allows, those from before included. -/
structure Disciplined (x : Exec C α) : Prop where
  depth : ∀ m : Machine C, (final x m).chain.depth = m.chain.depth
  bases : ∀ m : Machine C, (final x m).chain.bases = m.chain.bases
  activeCalls : ∀ m : Machine C, (final x m).activeCalls = m.activeCalls
  /-- The log of the run, last event first, shows each of its moments. -/
  calls : ∀ (m : Machine C) (i : Nat), 0 ≤ Event.underWay ((final x m.traced).log.drop i) ∧
    m.activeCalls + Event.underWay ((final x m.traced).log.drop i) ≤
      max m.activeCalls m.callLimit
  /-- The run that is logged is the run itself. -/
  logged : ∀ m : Machine C, hush (x m.traced) = hush (x m)

theorem Made.disciplined {x : Exec C α} (h : Made x) : Disciplined x where
  depth m := (h.balanced m).depth
  bases m := (h.balanced m).bases
  activeCalls m := (h.balanced m).activeCalls
  calls m i := by
    obtain ⟨events, hl, hc⟩ := (h.balanced m.traced).log
    have hlog : (final x m.traced).log = events := by
      rw [hl]; exact List.append_nil events
    rw [hlog]
    exact ⟨hc.begun i, hc.bounded i⟩
  logged m := by
    -- Both are the run of the machine that keeps no events.
    have ht := (h.hushed m.traced m.quiet rfl).hush_eq
    have hm := (h.hushed m m.quiet rfl).hush_eq
    rw [← ht, hm]

/-- However expressions, statements and programs end, after whatever calls, blocks and
    loops: the number of scopes, the frames and the number of active calls are what they
    were, and calls never nest beyond the limit. -/
theorem stack_restored (n : Nat) :
    (∀ e, Disciplined (evaluate n e : Exec C Decimal)) ∧
    (∀ inFunction s, Disciplined (execute n inFunction s : Exec C Flow)) ∧
    (∀ p, Disciplined (runIn n p : Exec C Unit)) :=
  ⟨fun e => (evaluate_made n e).disciplined,
    fun inFunction s => (execute_made n inFunction s).disciplined,
    fun p => (runIn_made n p).disciplined⟩

end Exec

end Bello
