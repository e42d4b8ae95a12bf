import Bello.Proofs.Scope.Effects

/- What a chain stands for.

   A chain keeps all local scopes in one list, with a list of bases beside it. What is meant
   is a stack of calls: a global scope, the scopes that were opened outside any call, and for
   each call the scopes that were opened in it, of which there is always one. `CallStack` is
   just that, and says of each operation what it does in these terms; `CallStack.chain` lays
   the stack out as a chain.

   The two agree after every history in which each scope that is closed was opened in the same
   call (`frames_over_globals`). A history without that discipline can close the last scope of
   a call, and then the scope of a caller is the innermost one. `Stranded` says so, and it is
   the only case in which a name that was just declared is not seen (`declared_seen`). -/
namespace Bello

/-! ## Histories -/

namespace ScopeChain

/-- What can be done to a chain. -/
inductive Change where
  | pushScope
  | popScope
  | pushFrame
  | popFrame
  | define (name : String) (b : Binding)
  | update (name : String) (f : Binding → Binding)

/-- The chain after a change. A name that cannot be declared or is not seen changes nothing. -/
def apply (c : ScopeChain) : Change → ScopeChain
  | .pushScope => c.pushScope
  | .popScope => c.popScope
  | .pushFrame => c.pushFrame
  | .popFrame => c.popFrame
  | .define name b => (c.define name b).getD c
  | .update name f => (c.update? name f).getD c

def after (c : ScopeChain) (history : List Change) : ScopeChain := history.foldl apply c

/-- Every scope that is closed was opened by `pushScope` in the same frame, or outside any
    frame, and was still open. The numbers tell how many such scopes there are: `n` in the
    current frame, and `around` in the frames around it and, last, outside any frame. -/
def matched : Nat → List Nat → List Change → Bool
  | _, _, [] => true
  | n, around, .pushScope :: history => matched (n + 1) around history
  | 0, _, .popScope :: _ => false
  | n + 1, around, .popScope :: history => matched n around history
  | n, around, .pushFrame :: history => matched 0 (n :: around) history
  | n, [], .popFrame :: history => matched n [] history
  | _, n :: around, .popFrame :: history => matched n around history
  | n, around, .define _ _ :: history => matched n around history
  | n, around, .update _ _ :: history => matched n around history

/-- A history of a new chain, with that discipline. -/
def Matched (history : List Change) : Prop := matched 0 [] history = true

instance (history : List Change) : Decidable (Matched history) :=
  inferInstanceAs (Decidable (_ = true))

/-- The history ends `k` frames and those that it begins itself, and no others. -/
def framesEnd : Nat → List Change → Bool
  | k, [] => k == 0
  | k, .pushFrame :: history => framesEnd (k + 1) history
  | 0, .popFrame :: _ => false
  | k + 1, .popFrame :: history => framesEnd k history
  | k, _ :: history => framesEnd k history

/-! ## Declaring, by what is open -/

variable {c : ScopeChain} {name : String} {b : Binding}

theorem define_of_nil (h : c.locals = []) :
    c.define name b = if c.globals.contains name then none
      else some { c with globals := c.globals.insert name b } := by
  unfold define
  split
  · rfl
  · next hl => rw [h] at hl; cases hl

theorem define_of_cons {t : Scope} {rest : List Scope} (h : c.locals = t :: rest) :
    c.define name b = if t.contains name then none
      else some { c with
        locals := t.insert name b :: rest
        size_eq := by rw [c.size_eq, h, List.length_cons, List.length_cons] } := by
  unfold define
  split
  · next hl => rw [h] at hl; cases hl
  · next t' rest' hl => rw [h] at hl; cases hl; rfl

end ScopeChain

/-! ## Stacks of calls -/

/-- The scopes of a call: the innermost one and those around it. -/
structure Frame where
  innermost : Scope
  outer : List Scope

def Frame.scopes (f : Frame) : List Scope := f.innermost :: f.outer

/-- A global scope, the local scopes outside any call, and the calls under way; scopes and
    calls are listed innermost first. -/
structure CallStack where
  globals : Scope
  outside : List Scope
  frames : List Frame

namespace CallStack

open ScopeChain (Change)

variable {s : CallStack} {name : String}

def empty : CallStack := ⟨∅, [], []⟩

/-- The scopes of the innermost call, or those outside any call if there is none. -/
def current (s : CallStack) : List Scope :=
  match s.frames with
  | [] => s.outside
  | f :: _ => f.scopes

/-- Puts other scopes in their place. A call is not left without any. -/
def withCurrent (s : CallStack) (scopes : List Scope) : CallStack :=
  match s.frames, scopes with
  | [], _ => { s with outside := scopes }
  | _ :: fs, innermost :: outer => { s with frames := ⟨innermost, outer⟩ :: fs }
  | _ :: _, [] => s

/-- One of the scopes that can be seen. -/
inductive Place where
  | nth (i : Nat)
  | global
deriving DecidableEq

/-- Where a name is found: in the innermost of the current scopes that has it, or else in the
    global scope. -/
def home (s : CallStack) (name : String) : Place :=
  match s.current.findIdx? (·.contains name) with
  | some i => .nth i
  | none => .global

/-- Where names are declared: in the innermost scope. -/
def front (s : CallStack) : Place := if s.current.isEmpty then .global else .nth 0

def scopeAt (s : CallStack) : Place → Scope
  | .nth i => s.current[i]?.getD ∅
  | .global => s.globals

def modify (s : CallStack) (f : Scope → Scope) : Place → CallStack
  | .nth i => s.withCurrent (s.current.modify i f)
  | .global => { s with globals := f s.globals }

/-- The binding of a name where it is found. -/
def find (s : CallStack) (name : String) : Option Binding := (s.scopeAt (s.home name))[name]?

/-- Binds a name in the innermost scope, unless it is there. -/
def declare (s : CallStack) (name : String) (b : Binding) : Option CallStack :=
  if (s.scopeAt s.front).contains name then none
  else some (s.modify (·.insert name b) s.front)

/-- Changes the binding of a name where it is found. -/
def update (s : CallStack) (name : String) (f : Binding → Binding) : Option CallStack :=
  (s.find name).map fun b => s.modify (·.insert name (f b)) (s.home name)

def apply (s : CallStack) : Change → CallStack
  | .pushScope => s.withCurrent (∅ :: s.current)
  | .popScope => s.withCurrent s.current.tail
  | .pushFrame => { s with frames := ⟨∅, []⟩ :: s.frames }
  | .popFrame => { s with frames := s.frames.tail }
  | .define name b => (s.declare name b).getD s
  | .update name f => (s.update name f).getD s

def after (s : CallStack) (history : List Change) : CallStack := history.foldl apply s

/-! ## The chain of a stack -/

/-- All local scopes. -/
def locals (outside : List Scope) (frames : List Frame) : List Scope :=
  frames.flatMap Frame.scopes ++ outside

/-- For each call, how many scopes there were when it began. -/
def bases (outside : List Scope) : List Frame → List Nat
  | [] => []
  | _ :: fs => ((locals outside fs).length + 1) :: bases outside fs

/-- The stack laid out as a chain. -/
def chain (s : CallStack) : ScopeChain :=
  ⟨locals s.outside s.frames, s.globals, bases s.outside s.frames,
    (locals s.outside s.frames).length, rfl⟩

/-- The local scopes below the current ones. -/
def below (s : CallStack) : List Scope :=
  match s.frames with
  | [] => []
  | _ :: fs => locals s.outside fs

theorem locals_cons (outside : List Scope) (f : Frame) (fs : List Frame) :
    locals outside (f :: fs) = f.scopes ++ locals outside fs := by
  simp [locals]

theorem chain_locals (s : CallStack) : s.chain.locals = s.current ++ s.below := by
  obtain ⟨globals, outside, frames⟩ := s
  cases frames with
  | nil => simp [chain, locals, current, below]
  | cons f fs => exact locals_cons outside f fs

theorem current_ne_nil (h : s.frames ≠ []) : s.current ≠ [] := by
  obtain ⟨globals, outside, frames⟩ := s
  cases frames with
  | nil => exact absurd rfl h
  | cons f fs => exact List.cons_ne_nil _ _

/-- The current scopes are replaced, and the chain keeps its other parts. -/
theorem chain_withCurrent {scopes : List Scope} (h : s.frames ≠ [] → scopes ≠ []) :
    (s.withCurrent scopes).chain.locals = scopes ++ s.below ∧
      (s.withCurrent scopes).chain.globals = s.chain.globals ∧
      (s.withCurrent scopes).chain.bases = s.chain.bases := by
  obtain ⟨globals, outside, frames⟩ := s
  cases frames with
  | nil => simp [chain, locals, withCurrent, below, bases]
  | cons f fs =>
    cases scopes with
    | nil => exact absurd rfl (h (List.cons_ne_nil _ _))
    | cons innermost outer => exact ⟨locals_cons outside ⟨innermost, outer⟩ fs, rfl, rfl⟩

/-- The chain sees the current scopes. Outside any call it counts the global scope in. -/
theorem visibleCount_chain (s : CallStack) :
    ∃ k, s.chain.visibleCount = s.current.length + k ∧ (k = 0 ∨ s.below = []) := by
  obtain ⟨globals, outside, frames⟩ := s
  cases frames with
  | nil => exact ⟨1, rfl, .inr rfl⟩
  | cons f fs =>
    refine ⟨0, ?_, .inl rfl⟩
    show (locals outside (f :: fs)).length + 1 - ((locals outside fs).length + 1) = f.scopes.length
    rw [locals_cons, List.length_append]
    omega

theorem take_visible (s : CallStack) :
    s.chain.locals.take s.chain.visibleCount = s.current := by
  obtain ⟨k, hcount, hk⟩ := visibleCount_chain s
  rw [chain_locals, hcount, List.take_append, List.take_of_length_le (Nat.le_add_right ..),
    Nat.add_sub_cancel_left]
  rcases hk with rfl | hbelow
  · simp
  · simp [hbelow]

/-! ## Finding and changing -/

/-- The first scope that has a binding is the first that contains the name. -/
theorem findSome?_eq_bind (name : String) (scopes : List Scope) :
    scopes.findSome? (·[name]?) =
      (scopes.findIdx? (·.contains name)).bind fun i => (scopes[i]?.getD ∅)[name]? := by
  induction scopes with
  | nil => rfl
  | cons t rest ih =>
    rw [List.findSome?_cons, List.findIdx?_cons, Std.ExtTreeMap.contains_eq_isSome_getElem?, ih]
    cases hb : t[name]? with
    | none => cases rest.findIdx? (·.contains name) <;> rfl
    | some b => simp [hb]

theorem updateWithin_eq_bind (name : String) (f : Binding → Binding) (scopes : List Scope) :
    ScopeChain.updateWithin name f scopes.length scopes =
      (scopes.findIdx? (·.contains name)).bind fun i =>
        (scopes[i]?.getD ∅)[name]?.map fun b =>
          scopes.modify i (·.insert name (f b)) := by
  induction scopes with
  | nil => rfl
  | cons t rest ih =>
    rw [List.length_cons, ScopeChain.updateWithin, List.findIdx?_cons,
      Std.ExtTreeMap.contains_eq_isSome_getElem?, ih, Scope.update?]
    cases hb : t[name]? with
    | none => simp [Option.bind_map, Option.map_bind, Function.comp_def]
    | some b => simp [hb]

theorem exists_of_findIdx? {scopes : List Scope} {i : Nat}
    (h : scopes.findIdx? (·.contains name) = some i) :
    ∃ t b, scopes[i]? = some t ∧ t[name]? = some b := by
  obtain ⟨hi, hc, -⟩ := List.findIdx?_eq_some_iff_getElem.1 h
  rw [Std.ExtTreeMap.contains_eq_isSome_getElem?] at hc
  obtain ⟨b, hb⟩ := Option.isSome_iff_exists.1 hc
  exact ⟨_, b, List.getElem?_eq_getElem hi, hb⟩

theorem lookup_chain (s : CallStack) (name : String) : s.chain.lookup name = s.find name := by
  rw [ScopeChain.lookup_eq, take_visible, findSome?_eq_bind, find, home]
  cases hi : s.current.findIdx? (·.contains name) with
  | none => rfl
  | some i =>
    obtain ⟨t, b, ht, hb⟩ := exists_of_findIdx? hi
    simp [scopeAt, ht, hb]

/-- A change on the chain looks at the current scopes first. -/
theorem updateWithin_chain (s : CallStack) (name : String) (f : Binding → Binding) :
    ScopeChain.updateWithin name f s.chain.visibleCount s.chain.locals =
      (ScopeChain.updateWithin name f s.current.length s.current).map (· ++ s.below) := by
  obtain ⟨k, hcount, hk⟩ := visibleCount_chain s
  have hbelow : ScopeChain.updateWithin name f k s.below = none := by
    rcases hk with rfl | hbelow
    · simp [ScopeChain.updateWithin]
    · simp [ScopeChain.updateWithin, hbelow]
  rw [chain_locals, hcount, ScopeChain.updateWithin_append, hbelow, Option.map_none, Option.or_none]

theorem chain_modify_nth (s : CallStack) (f : Scope → Scope) (i : Nat) :
    (s.modify f (.nth i)).chain.locals = s.current.modify i f ++ s.below ∧
      (s.modify f (.nth i)).chain.globals = s.chain.globals ∧
      (s.modify f (.nth i)).chain.bases = s.chain.bases := by
  refine chain_withCurrent (fun h hnil => current_ne_nil h ?_)
  simpa using hnil

theorem update?_chain (s : CallStack) (name : String) (f : Binding → Binding) :
    s.chain.update? name f = (s.update name f).map chain := by
  have hset := updateWithin_chain s name f
  rw [updateWithin_eq_bind] at hset
  unfold ScopeChain.update? update find home
  split
  · next locals hl =>
    rw [hl] at hset
    cases hi : s.current.findIdx? (·.contains name) with
    | none => simp [hi] at hset
    | some i =>
      obtain ⟨t, b, ht, hb⟩ := exists_of_findIdx? hi
      obtain ⟨hlocals, hglobals, hbases⟩ :=
        chain_modify_nth s (·.insert name (f b)) i
      simp only [hi, ht, hb, Option.bind_some, Option.getD_some, Option.map_some,
        Option.some.injEq] at hset
      simp only [scopeAt, ht, hb, Option.getD_some, Option.map_some, Option.some.injEq]
      exact ScopeChain.eq_of_parts (hset.trans hlocals.symm) hglobals.symm hbases.symm
  · next hl =>
    rw [hl] at hset
    cases hi : s.current.findIdx? (·.contains name) with
    | none =>
      simp only [Scope.update?, scopeAt, Option.map_map]
      rfl
    | some i =>
      obtain ⟨t, b, ht, hb⟩ := exists_of_findIdx? hi
      simp [hi, ht, hb] at hset

/-! ## Declaring -/

theorem below_eq_nil (h : s.current = []) : s.below = [] := by
  obtain ⟨globals, outside, frames⟩ := s
  cases frames with
  | nil => rfl
  | cons f fs => cases h

theorem define_chain (s : CallStack) (name : String) (b : Binding) :
    s.chain.define name b = (s.declare name b).map chain := by
  have hlocals := chain_locals s
  unfold declare front
  cases hcurrent : s.current with
  | nil =>
    -- Nothing is open, so the global scope is the innermost one.
    rw [hcurrent, below_eq_nil hcurrent] at hlocals
    rw [ScopeChain.define_of_nil hlocals, List.isEmpty_nil, if_pos rfl,
      apply_ite (Option.map chain)]
    rfl
  | cons t rest =>
    rw [hcurrent, List.cons_append] at hlocals
    obtain ⟨hlocals', hglobals, hbases⟩ := chain_modify_nth s (·.insert name b) 0
    rw [hcurrent, List.modify_zero_cons, List.cons_append] at hlocals'
    have hscope : s.scopeAt (.nth 0) = t := by simp [scopeAt, hcurrent]
    rw [ScopeChain.define_of_cons hlocals, List.isEmpty_cons, if_neg Bool.false_ne_true, hscope,
      apply_ite (Option.map chain), Option.map_none, Option.map_some]
    congr 2
    exact ScopeChain.eq_of_parts hlocals'.symm hglobals.symm hbases.symm

/-! ## Opening and closing -/

theorem pushScope_chain (s : CallStack) :
    (s.withCurrent (∅ :: s.current)).chain = s.chain.pushScope := by
  have hopen : s.frames ≠ [] → ∅ :: s.current ≠ [] := fun _ => List.cons_ne_nil _ _
  obtain ⟨hlocals, hglobals, hbases⟩ := chain_withCurrent hopen
  refine ScopeChain.eq_of_parts ?_ hglobals hbases
  show _ = ∅ :: s.chain.locals
  rw [hlocals, chain_locals, List.cons_append]

theorem popScope_chain (hcurrent : s.current ≠ []) (h : s.frames ≠ [] → s.current.tail ≠ []) :
    (s.withCurrent s.current.tail).chain = s.chain.popScope := by
  obtain ⟨hlocals, hglobals, hbases⟩ := chain_withCurrent h
  refine ScopeChain.eq_of_parts ?_ hglobals hbases
  show _ = s.chain.locals.tail
  rw [hlocals, chain_locals, List.tail_append_of_ne_nil hcurrent]

theorem pushFrame_chain (s : CallStack) :
    ({ s with frames := ⟨∅, []⟩ :: s.frames } : CallStack).chain = s.chain.pushFrame := by
  refine ScopeChain.eq_of_parts ?_ rfl rfl
  exact locals_cons s.outside ⟨∅, []⟩ s.frames

theorem popFrame_chain (s : CallStack) :
    ({ s with frames := s.frames.tail } : CallStack).chain = s.chain.popFrame := by
  obtain ⟨globals, outside, frames⟩ := s
  cases frames with
  | nil => rfl
  | cons f fs =>
    refine ScopeChain.eq_of_parts ?_ rfl rfl
    show locals outside fs = (locals outside (f :: fs)).drop
      ((locals outside (f :: fs)).length + 1 - max ((locals outside fs).length + 1) 1)
    rw [locals_cons, List.length_append]
    have hsurplus : f.scopes.length + (locals outside fs).length + 1 -
        max ((locals outside fs).length + 1) 1 = f.scopes.length := by omega
    rw [hsurplus, List.drop_left]

/-! ## Whole histories -/

/-- The numbers count the scopes that `pushScope` opened: all but the first of each call, and
    all outside any call. -/
def Counts (s : CallStack) (n : Nat) (around : List Nat) : Prop :=
  s.frames.map (·.outer.length) ++ [s.outside.length] = n :: around

theorem Counts.modify {n : Nat} {around : List Nat} (h : s.Counts n around) (f : Scope → Scope)
    (p : Place) : (s.modify f p).Counts n around := by
  obtain ⟨globals, outside, frames⟩ := s
  cases p with
  | global => exact h
  | nth i =>
    cases frames with
    | nil => simpa [Counts, CallStack.modify, withCurrent, current] using h
    | cons g fs =>
      cases i with
      | zero => exact h
      | succ i => simpa [Counts, CallStack.modify, withCurrent, current, Frame.scopes] using h

/-- Where a scope may be closed, the call has another one. -/
theorem Counts.closable {n : Nat} {around : List Nat} (h : s.Counts (n + 1) around) :
    s.current ≠ [] ∧ (s.frames ≠ [] → s.current.tail ≠ []) ∧
      (s.withCurrent s.current.tail).Counts n around := by
  obtain ⟨globals, outside, frames⟩ := s
  cases frames with
  | nil =>
    cases outside with
    | nil => simp [Counts] at h
    | cons t rest => simpa [Counts, withCurrent, current] using h
  | cons f fs =>
    obtain ⟨innermost, outer⟩ := f
    cases outer with
    | nil => simp [Counts] at h
    | cons t rest => simpa [Counts, withCurrent, current, Frame.scopes] using h

open ScopeChain (matched Matched)

/-- A change that the discipline allows does the same to the stack and to its chain. -/
theorem apply_chain {n : Nat} {around : List Nat} (h : s.Counts n around) (change : Change)
    {rest : List Change} (hm : matched n around (change :: rest) = true) :
    (s.apply change).chain = s.chain.apply change ∧
      ∃ n' around', (s.apply change).Counts n' around' ∧ matched n' around' rest = true := by
  cases change with
  | pushScope =>
    refine ⟨pushScope_chain s, n + 1, around, ?_, by simpa [matched] using hm⟩
    obtain ⟨globals, outside, frames⟩ := s
    cases frames with
    | nil => simpa [Counts, apply, withCurrent, current] using h
    | cons f fs => simpa [Counts, apply, withCurrent, current, Frame.scopes] using h
  | popScope =>
    cases n with
    | zero => simp [matched] at hm
    | succ n =>
      obtain ⟨hcurrent, htail, hcounts⟩ := h.closable
      exact ⟨popScope_chain hcurrent htail, n, around, hcounts, by simpa [matched] using hm⟩
  | pushFrame =>
    refine ⟨pushFrame_chain s, 0, n :: around, ?_, by simpa [matched] using hm⟩
    simpa [Counts, apply] using h
  | popFrame =>
    refine ⟨popFrame_chain s, ?_⟩
    obtain ⟨globals, outside, frames⟩ := s
    cases frames with
    | nil =>
      obtain ⟨rfl, rfl⟩ : outside.length = n ∧ [] = around := by simpa [Counts] using h
      exact ⟨outside.length, [], h, by simpa [matched] using hm⟩
    | cons f fs =>
      obtain ⟨-, harounds⟩ : f.outer.length = n ∧ _ = around := by simpa [Counts] using h
      cases around with
      | nil => simp at harounds
      | cons m around => exact ⟨m, around, harounds, by simpa [matched] using hm⟩
  | define name b =>
    refine ⟨?_, n, around, ?_, by simpa [matched] using hm⟩
    · show ((s.declare name b).getD s).chain = (s.chain.define name b).getD s.chain
      rw [define_chain]
      cases s.declare name b with
      | none => rfl
      | some s' => rfl
    · show ((s.declare name b).getD s).Counts n around
      unfold declare
      split
      · exact h
      · exact h.modify _ _
  | update name f =>
    refine ⟨?_, n, around, ?_, by simpa [matched] using hm⟩
    · show ((s.update name f).getD s).chain = (s.chain.update? name f).getD s.chain
      rw [update?_chain]
      cases s.update name f with
      | none => rfl
      | some s' => rfl
    · show ((s.update name f).getD s).Counts n around
      unfold update
      cases s.find name with
      | none => exact h
      | some b => exact h.modify _ _

theorem after_chain {n : Nat} {around : List Nat} {history : List Change} (h : s.Counts n around)
    (hm : matched n around history = true) : (s.after history).chain = s.chain.after history := by
  induction history generalizing s n around with
  | nil => rfl
  | cons change history ih =>
    obtain ⟨happly, n', around', hcounts, hm'⟩ := apply_chain h change hm
    show ((s.apply change).after history).chain = (s.chain.apply change).after history
    rw [← happly]
    exact ih hcounts hm'

theorem after_empty {history : List Change} (h : Matched history) :
    (empty.after history).chain = ScopeChain.new.after history := by
  have hcounts : empty.Counts 0 [] := rfl
  exact after_chain hcounts h

/-! ## Calls from begin to end -/

/-- The stack is `k` calls inside a call that was made on `caller`. -/
def Inside (s caller : CallStack) (k : Nat) : Prop :=
  s.outside = caller.outside ∧ ∃ gs, gs.length = k + 1 ∧ s.frames = gs ++ caller.frames

namespace Inside

open ScopeChain (framesEnd)

variable {caller : CallStack} {k : Nat}

theorem withCurrent (h : s.Inside caller k) (scopes : List Scope) :
    (s.withCurrent scopes).Inside caller k := by
  obtain ⟨globals, outside, frames⟩ := s
  obtain ⟨houtside, gs, hk, rfl⟩ := h
  cases gs with
  | nil => cases hk
  | cons g gs =>
    cases scopes with
    | nil => exact ⟨houtside, g :: gs, hk, rfl⟩
    | cons innermost outer => exact ⟨houtside, ⟨innermost, outer⟩ :: gs, hk, rfl⟩

theorem modify (h : s.Inside caller k) (f : Scope → Scope) (p : Place) :
    (s.modify f p).Inside caller k := by
  cases p with
  | nth i => exact h.withCurrent _
  | global => exact h

/-- Whatever is done inside a call, the calls around it and what is outside stay. -/
theorem apply (h : s.Inside caller k) (change : Change) {rest : List Change}
    (hend : framesEnd k (change :: rest) = true) :
    ∃ k', (s.apply change).Inside caller k' ∧ framesEnd k' rest = true := by
  cases change with
  | pushScope => exact ⟨k, h.withCurrent _, by simpa [framesEnd] using hend⟩
  | popScope => exact ⟨k, h.withCurrent _, by simpa [framesEnd] using hend⟩
  | pushFrame =>
    obtain ⟨houtside, gs, hk, hframes⟩ := h
    refine ⟨k + 1, ⟨houtside, ⟨∅, []⟩ :: gs, by simp [hk], ?_⟩, by simpa [framesEnd] using hend⟩
    simp [CallStack.apply, hframes]
  | popFrame =>
    cases k with
    | zero => simp [framesEnd] at hend
    | succ k =>
      obtain ⟨houtside, gs, hk, hframes⟩ := h
      refine ⟨k, ⟨houtside, gs.tail, by simp [hk], ?_⟩, by simpa [framesEnd] using hend⟩
      have hgs : gs ≠ [] := by rintro rfl; cases hk
      simp [CallStack.apply, hframes, List.tail_append_of_ne_nil hgs]
  | define name b =>
    refine ⟨k, ?_, by simpa [framesEnd] using hend⟩
    show ((s.declare name b).getD s).Inside caller k
    unfold declare
    split
    · exact h
    · exact h.modify _ _
  | update name f =>
    refine ⟨k, ?_, by simpa [framesEnd] using hend⟩
    show ((s.update name f).getD s).Inside caller k
    unfold update
    cases s.find name with
    | none => exact h
    | some b => exact h.modify _ _

theorem after {history : List Change} (h : s.Inside caller k)
    (hend : framesEnd k history = true) : (s.after history).Inside caller 0 := by
  induction history generalizing s k with
  | nil =>
    obtain rfl : k = 0 := by simpa [framesEnd] using hend
    exact h
  | cons change history ih =>
    obtain ⟨k', happly, hend'⟩ := h.apply change hend
    exact ih happly hend'

/-- When the call ends, the caller has its scopes back. -/
theorem popFrame (h : s.Inside caller 0) :
    s.chain.popFrame.locals = caller.chain.locals ∧ s.chain.popFrame.bases = caller.chain.bases ∧
      s.chain.popFrame.globals = s.chain.globals := by
  obtain ⟨houtside, gs, hk, hframes⟩ := h
  obtain ⟨g, rfl⟩ := List.length_eq_one_iff.1 hk
  rw [← popFrame_chain]
  simp [chain, houtside, hframes]

end Inside

end CallStack

namespace ScopeChain

/-- The chain is that of the stack, and does what the stack says: it finds names in the
    current scopes and then in the global one, declares them in the innermost scope unless
    they are there, and changes just the binding that is found. -/
structure StandsFor (c : ScopeChain) (s : CallStack) : Prop where
  laidOut : c = s.chain
  lookup : ∀ name : String, c.lookup name = s.find name
  update : ∀ (name : String) (f : Binding → Binding),
    c.update? name f = (s.update name f).map (·.chain)
  define : ∀ (name : String) (b : Binding), c.define name b = (s.declare name b).map (·.chain)

/-- **Calls over a global scope.** After any history in which every scope that is closed was
    opened in the same call, the chain stands for the stack of calls after the same history;
    and a call that is made then gives the caller its local scopes back when it ends, whatever
    was done in it and whatever scopes it left open. -/
theorem frames_over_globals (history : List Change) (h : Matched history) :
    let c := new.after history
    c.StandsFor (CallStack.empty.after history) ∧
    ∀ inner, framesEnd 0 inner = true → Matched (history ++ .pushFrame :: inner) →
      let d := new.after (history ++ .pushFrame :: inner)
      d.popFrame.locals = c.locals ∧ d.popFrame.bases = c.bases ∧
        d.popFrame.globals = d.globals := by
  intro c
  have hc : c = (CallStack.empty.after history).chain := (CallStack.after_empty h).symm
  refine ⟨⟨hc, ?_, ?_, ?_⟩, fun inner hend hm => ?_⟩
  · rw [hc]; exact CallStack.lookup_chain _
  · rw [hc]; exact CallStack.update?_chain _
  · rw [hc]; exact CallStack.define_chain _
  · rw [hc, ← CallStack.after_empty hm]
    have hbegin : ((CallStack.empty.after history).apply .pushFrame).Inside
        (CallStack.empty.after history) 0 := ⟨rfl, [⟨∅, []⟩], rfl, rfl⟩
    have hd : CallStack.empty.after (history ++ .pushFrame :: inner) =
        ((CallStack.empty.after history).apply .pushFrame).after inner := List.foldl_append
    rw [hd]
    exact (hbegin.after hend).popFrame

/-- Two names are declared, one of them in a local scope. -/
def beforeCall : List Change :=
  [.define "g" ⟨.one, true⟩, .pushScope, .define "x" ⟨.one, true⟩]

/-- A call declares a name of its caller, makes a call that leaves a scope open, leaves one
    open itself and makes a global variable a constant. -/
def duringCall : List Change :=
  [.define "x" ⟨.zero, true⟩, .pushScope, .pushFrame, .pushScope, .popFrame, .update "g" fun _ => ⟨.zero, false⟩]

theorem frames_over_globals_nested :
    Matched beforeCall ∧ framesEnd 0 duringCall = true ∧
    Matched (beforeCall ++ .pushFrame :: duringCall) ∧
    (new.after beforeCall).StandsFor (CallStack.empty.after beforeCall) ∧
    (new.after (beforeCall ++ .pushFrame :: duringCall)).popFrame.locals =
      (new.after beforeCall).locals := by
  have hbefore : Matched beforeCall := by decide
  have hduring : Matched (beforeCall ++ .pushFrame :: duringCall) := by decide
  obtain ⟨hstands, hback⟩ := frames_over_globals beforeCall hbefore
  exact ⟨hbefore, rfl, hduring, hstands, (hback duringCall rfl hduring).1⟩

/-! ## Names that were just declared -/

/-- The scopes of the current frame are all closed, and one of a caller is the innermost. -/
def Stranded (c : ScopeChain) : Prop := 1 < c.depth ∧ c.depth ≤ c.base

instance (c : ScopeChain) : Decidable c.Stranded := inferInstanceAs (Decidable (_ ∧ _))

theorem lookup_define {c c' : ScopeChain} {name : String} {b : Binding}
    (h : c.define name b = some c') :
    c'.lookup name = if c.Stranded then c.globals[name]? else some b := by
  have hsize := c.size_eq
  cases hl : c.locals with
  | nil =>
    rw [define_of_nil hl] at h
    split at h
    · cases h
    · cases h
      have hnot : ¬ c.Stranded := by
        intro hs
        have := hs.1
        simp only [depth, hsize, hl, List.length_nil] at this
        omega
      rw [if_neg hnot, lookup_eq]
      simp [hl]
  | cons t rest =>
    rw [define_of_cons hl] at h
    split at h
    · cases h
    · cases h
      rw [lookup_eq]
      have hcount : c.visibleCount = c.depth - c.base := rfl
      have hdepth : 1 < c.depth := by simp [depth, hsize, hl]
      show (((t.insert name b :: rest).take c.visibleCount).findSome? (·[name]?)).or _ = _
      split
      · next hs =>
        rw [hcount, Nat.sub_eq_zero_of_le hs.2]
        rfl
      · next hs =>
        have hlt : c.base < c.depth := Nat.lt_of_not_le fun hle => hs ⟨hdepth, hle⟩
        obtain ⟨k, hk⟩ : ∃ k, c.visibleCount = k + 1 := ⟨c.depth - c.base - 1, by omega⟩
        simp [hk]

/-- A chain that stands for a stack has a scope of the current frame. -/
theorem not_stranded_chain (s : CallStack) : ¬ s.chain.Stranded := by
  obtain ⟨globals, outside, frames⟩ := s
  intro h
  have hbase := h.2
  cases frames with
  | nil => exact absurd hbase (Nat.not_succ_le_zero _)
  | cons f fs =>
    have hle : (CallStack.locals outside (f :: fs)).length + 1 ≤
        (CallStack.locals outside fs).length + 1 := hbase
    rw [CallStack.locals_cons, List.length_append, Frame.scopes, List.length_cons] at hle
    omega

/-- **What is declared is seen, unless the chain is stranded.** After any history, a name that
    was just declared is found with its binding, except where the frame has no scope left and
    a caller has one: that scope gets the name, and only the global one is searched. No
    history that closes its own scopes only leads there. -/
theorem declared_seen (history : List Change) (name : String) (b : Binding) (c' : ScopeChain)
    (h : (new.after history).define name b = some c') :
    let c := new.after history
    c'.lookup name = (if c.Stranded then c.globals[name]? else some b) ∧
      (Matched history → ¬ c.Stranded) := by
  refine ⟨lookup_define h, fun hm => ?_⟩
  rw [← CallStack.after_empty hm]
  exact not_stranded_chain _

/-- A local scope, a frame, and one scope closed too many. -/
def strandedHistory : List Change := [.pushScope, .pushFrame, .popScope]

/-- The caller's scope is empty, so a name can be declared in it. -/
theorem exists_define_stranded :
    ∃ c', (new.after strandedHistory).define "x" ⟨.one, true⟩ = some c' := by
  have hlocals : (new.after strandedHistory).locals = [∅] := rfl
  have hfree : (∅ : Scope).contains "x" = false := Std.ExtTreeMap.contains_empty
  rw [define_of_cons hlocals, hfree]
  exact ⟨_, rfl⟩

theorem declared_seen_stranded :
    ∃ c', (new.after strandedHistory).define "x" ⟨.one, true⟩ = some c' ∧
      (new.after strandedHistory).Stranded ∧
      c'.lookup "x" = (new.after strandedHistory).globals["x"]? := by
  obtain ⟨c', hdefine⟩ := exists_define_stranded
  have hseen := (declared_seen _ _ _ _ hdefine).1
  have hstranded : (new.after strandedHistory).Stranded := by decide
  rw [if_pos hstranded] at hseen
  exact ⟨c', hdefine, hstranded, hseen⟩

/-- Without the exception it does not hold. -/
theorem declared_not_seen :
    ¬ ∀ (history : List Change) (name : String) (b : Binding) (c' : ScopeChain),
      (new.after history).define name b = some c' → c'.lookup name = some b := by
  intro h
  obtain ⟨c', hdefine⟩ := exists_define_stranded
  have hseen := h strandedHistory "x" ⟨.one, true⟩ c' hdefine
  have hnone : (new.after strandedHistory).globals["x"]? = none := Std.ExtTreeMap.getElem?_empty
  rw [lookup_define hdefine, if_pos (by decide), hnone] at hseen
  cases hseen

end ScopeChain

end Bello
