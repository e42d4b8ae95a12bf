import Bello.Proofs.Machine.Steps

/- Two runs of one program side by side.

   The runs start on machines that agree in everything a program can look at, except for
   their call limits and their channels. A `Race` says how the channels differ as long as
   the runs do the same (`InStep`), and what can be said of them from the moment on at which
   the first run stops while the second one may go on (`Parted`). Its laws are about single
   reads and writes and about the one call that is refused. `Made.abreast` carries them to
   every piece that is made of the steps of a run: the runs end alike and in step, or the
   first one stops and they have parted.

   What a run does to its channel by itself is simpler: `Made.channels` extends what every
   read and every write keeps to all runs. -/
namespace Bello

variable {C : Type}

/-- The channel after a read or a write, whether it failed or not. -/
def Channel.after {α : Type} : EStateM.Result Error C α → C
  | .ok _ c => c
  | .error _ c => c

namespace Machine

/-! ## Steps that do not touch the channel -/

@[simp] theorem note_channel (m : Machine C) (e : Event) : (m.note e).channel = m.channel := by
  rw [note_eq]

@[simp] theorem pushScope_channel (m : Machine C) : m.pushScope.channel = m.channel := by
  simp [pushScope]

@[simp] theorem popScope_channel (m : Machine C) : m.popScope.channel = m.channel := by
  simp [popScope]

@[simp] theorem enterCall_channel (m : Machine C) : m.enterCall.channel = m.channel := by
  simp [enterCall]

@[simp] theorem leaveCall_channel (m : Machine C) : m.leaveCall.channel = m.channel := by
  simp [leaveCall]

end Machine

namespace Exec

variable {α β : Type}

theorem final_define_channel (name : Ident) (b : Binding) (m : Machine C) :
    (final (define name b : Exec C Unit) m).channel = m.channel := by
  unfold final define
  cases m.chain.define name.name b with
  | none => rfl
  | some chain => rfl

theorem final_addFunction_channel (f : Function) (m : Machine C) :
    (final (addFunction f : Exec C Unit) m).channel = m.channel := by
  rcases addFunction_cases f m m rfl with ⟨s, e, -⟩ | ⟨e, -⟩ | ⟨e, -⟩
  · rw [final_error e]
  · rw [final_ok e]; rfl
  · rw [final_ok e]; exact m.note_channel _

theorem between_error {enter leave : Machine C → Machine C} {x : Exec C α} {m n : Machine C}
    {s : Stop} (h : between enter leave x m = .error s n) :
    ∃ n', x (enter m) = .error s n' ∧ n = leave n' := by
  unfold between at h
  cases e : x (enter m) with
  | ok a m' => rw [e] at h; cases h
  | error s' m' => rw [e] at h; cases h; exact ⟨m', rfl, rfl⟩

variable [Channel C]

theorem final_read (m : Machine C) :
    (final (read : Exec C Decimal) m).channel = Channel.after (Channel.read m.channel) := by
  unfold final read
  cases Channel.read m.channel with
  | ok v c => rfl
  | error e c => rfl

theorem final_write (v : Decimal) (m : Machine C) :
    (final (write v : Exec C Unit) m).channel = Channel.after (Channel.write v m.channel) := by
  unfold final write
  cases Channel.write v m.channel with
  | ok u c => rfl
  | error e c => rfl

/-- What is true of the channel before and after every read and every write, is true of it
    before and after every run. -/
theorem Made.channels {S : C → C → Prop} (refl : ∀ c, S c c)
    (trans : ∀ ⦃c₁ c₂ c₃⦄, S c₁ c₂ → S c₂ c₃ → S c₁ c₃)
    (hread : ∀ c, S c (Channel.after (Channel.read c)))
    (hwrite : ∀ v c, S c (Channel.after (Channel.write v c))) {x : Exec C α} (h : Made x) :
    Keeps (fun m m' => S m.channel m'.channel) x := by
  have hsame : ∀ {m m' : Machine C}, m'.channel = m.channel → S m.channel m'.channel :=
    fun h => h ▸ refl _
  induction h with
  | pure a => exact .pure' (fun m => refl m.channel) a
  | stop s => exact .stop (fun m => refl m.channel) s
  | bind _ _ hx hf =>
    exact .bind' (R := fun m m' => S m.channel m'.channel) (fun _ _ _ h h' => trans h h') hx hf
  | lookup name => exact fun m => refl m.channel
  | define name b => exact fun m => hsame (final_define_channel name b m)
  | set name v => intro m; rw [final_ok (set_ok name v m)]; exact refl m.channel
  | read => intro m; simp only [final_read]; exact hread m.channel
  | write v => intro m; simp only [final_write]; exact hwrite v m.channel
  | counting name first last => exact fun m => hsame (m.note_channel _)
  | inScope _ hx =>
    intro m
    have := hx m.pushScope
    simpa only [Exec.inScope, final_between, Machine.popScope_channel, Machine.pushScope_channel]
      using this
  | call name args span _ hbody =>
    intro m
    rcases callee_cases name args span m m rfl rfl rfl with ⟨f, e, -, -⟩ | ⟨s, e, -⟩
    · have := hbody f (m.note (.called name.name args)).enterCall
      rw [final_congr (calling_ok e)]
      simpa only [inFrame, final_between, Machine.leaveCall_channel, Machine.enterCall_channel,
        Machine.note_channel] using this
    · rw [final_error (calling_error e)]; exact refl m.channel
  | forget => exact fun m => refl m.channel
  | addFunction f => exact fun m => hsame (final_addFunction_channel f m)
  | registered constants => exact fun m => hsame (m.note_channel _)

/-- A run stops at a place in the program, or because a read or a write has failed. -/
theorem Made.stops {Q : C → Prop} (hread : ∀ c e d, Channel.read c = .error e d → Q d)
    (hwrite : ∀ v c e d, Channel.write v c = .error e d → Q d) {x : Exec C α} (h : Made x) :
    ∀ {m n : Machine C} {s : Stop}, x m = .error s n → s.isPlaced ∨ Q n.channel := by
  induction h with
  | pure a => intro m n s h; cases h
  | stop s hs => intro m n s h; cases h; exact .inl hs
  | @bind _ _ x f _ _ hx hf =>
    intro m n s h
    cases e : x m with
    | ok a m' => exact hf a ((bind_ok e).symm.trans h)
    | error s' m' =>
      rw [bind_error e] at h
      cases h
      exact hx e
  | lookup name => intro m n s h; cases h
  | define name b =>
    intro m n s h
    cases hd : m.chain.define name.name b with
    | none => rw [define_error hd] at h; cases h; exact .inl rfl
    | some chain => rw [define_ok hd] at h; cases h
  | set name v => intro m n s h; rw [set_ok] at h; cases h
  | read =>
    intro m n s h
    unfold Exec.read at h
    cases hr : Channel.read m.channel with
    | ok v c => rw [hr] at h; cases h
    | error e c => rw [hr] at h; cases h; exact .inr (hread _ e c hr)
  | write v =>
    intro m n s h
    unfold Exec.write at h
    cases hw : Channel.write v m.channel with
    | ok u c => rw [hw] at h; cases h
    | error e c => rw [hw] at h; cases h; exact .inr (hwrite v _ e c hw)
  | counting name first last => intro m n s h; cases h
  | inScope _ hx =>
    intro m n s h
    obtain ⟨n', e, rfl⟩ := between_error h
    simpa only [Machine.popScope_channel] using hx e
  | call name args span _ hbody =>
    intro m n s h
    rcases callee_cases name args span m m rfl rfl rfl with ⟨f, e, -, -⟩ | ⟨s', e, -⟩
    · rw [calling_ok e] at h
      obtain ⟨n', e, rfl⟩ := between_error h
      simpa only [Machine.leaveCall_channel] using hbody f e
    · rw [calling_error e] at h
      cases h
      exact .inl (callee_placed e)
  | forget => intro m n s h; cases h
  | addFunction f => intro m n s h; exact .inl (addFunction_placed h)
  | registered constants => intro m n s h; cases h

/-! ## Side by side -/

end Exec

/-- What the second of two channels answers where the first one gives this answer. -/
inductive Channel.Meets (InStep : C → C → Prop) (Parted : Stop → C → C → Prop) {α : Type} :
    EStateM.Result Error C α → EStateM.Result Error C α → Prop where
  | ok (a : α) {c c' : C} (h : InStep c c') : Meets InStep Parted (.ok a c) (.ok a c')
  | error (e : Error) {c c' : C} (h : InStep c c') : Meets InStep Parted (.error e c) (.error e c')
  | parted (e : Error) {c : C} {r : EStateM.Result Error C α}
      (h : Parted (.failed e) c (after r)) : Meets InStep Parted (.error e c) r

/-- How two runs can differ that start on almost the same machine. -/
structure Race (C : Type) [Channel C] where
  /-- The call limit of the first machine, and that of the second. -/
  limit : Nat
  limit' : Nat
  limit_le : limit ≤ limit'
  /-- The channels as long as the runs do the same. -/
  InStep : C → C → Prop
  /-- The channels when the first run has stopped for this reason and the second has not. -/
  Parted : Stop → C → C → Prop
  limited : limit < limit' → ∀ (name : String) (span : Span) (c c' : C), InStep c c' →
    Parted (.failed (Cause.at (.callLimit name limit) span)) c c'
  read : ∀ c c', InStep c c' → Channel.Meets InStep Parted (Channel.read c) (Channel.read c')
  write : ∀ v c c', InStep c c' →
    Channel.Meets InStep Parted (Channel.write v c) (Channel.write v c')
  /-- The second run goes on. -/
  goesOn : ∀ s c c', Parted s c c' → Parted s c (Channel.after (Channel.read c')) ∧
    ∀ v, Parted s c (Channel.after (Channel.write v c'))

namespace Race

variable [Channel C]

/-- Machines that differ in their limits, their channels and their logs. -/
structure Beside (R : Race C) (m m' : Machine C) : Prop where
  chain : m'.chain = m.chain
  functions : m'.functions = m.functions
  activeCalls : m'.activeCalls = m.activeCalls
  callLimit : m.callLimit = R.limit
  callLimit' : m'.callLimit = R.limit'
  channel : R.InStep m.channel m'.channel

namespace Beside

variable {R : Race C} {m m' : Machine C}

theorem note (h : R.Beside m m') (e e' : Event) : R.Beside (m.note e) (m'.note e') := by
  simp only [Machine.note_eq]
  exact { h with }

theorem ofChain (h : R.Beside m m') (chain : ScopeChain) :
    R.Beside { m with chain } { m' with chain } := { h with chain := rfl }

theorem ofCalls (h : R.Beside m m') (chain : ScopeChain) (activeCalls : Nat) :
    R.Beside { m with chain, activeCalls } { m' with chain, activeCalls } :=
  { h with chain := rfl, activeCalls := rfl }

theorem pushScope (h : R.Beside m m') : R.Beside m.pushScope m'.pushScope := by
  unfold Machine.pushScope
  rw [h.chain]
  exact (h.ofChain _).note _ _

theorem popScope (h : R.Beside m m') : R.Beside m.popScope m'.popScope := by
  unfold Machine.popScope
  rw [h.chain]
  exact (h.ofChain _).note _ _

theorem enterCall (h : R.Beside m m') : R.Beside m.enterCall m'.enterCall := by
  unfold Machine.enterCall
  rw [h.chain, h.activeCalls]
  exact (h.ofCalls _ _).note _ _

theorem leaveCall (h : R.Beside m m') : R.Beside m.leaveCall m'.leaveCall := by
  unfold Machine.leaveCall
  rw [h.chain, h.activeCalls]
  exact (h.ofCalls _ _).note _ _

theorem knowing (h : R.Beside m m') (f : Function) : R.Beside (m.knowing f) (m'.knowing f) := by
  unfold Machine.knowing
  rw [h.functions]
  exact { h with functions := rfl }

end Beside

end Race

namespace Exec

variable {α β : Type} [Channel C] {R : Race C}

/-- The first run stops, and the channels are parted. -/
def Parts (R : Race C) (x : Exec C α) (m m' : Machine C) : Prop :=
  ∃ s n, x m = .error s n ∧ R.Parted s n.channel (final x m').channel

/-- Side by side the runs end alike, or the first one stops. -/
def Abreast (R : Race C) (x : Exec C α) : Prop :=
  ∀ m m', R.Beside m m' → Alike R.Beside (x m) (x m') ∨ Parts R x m m'

/-- Channels that have parted stay so while the second run goes on. -/
theorem Made.goesOn (R : Race C) {x : Exec C α} (h : Made x) (s : Stop) (c : C) (m : Machine C)
    (hp : R.Parted s c m.channel) : R.Parted s c (final x m).channel :=
  h.channels (S := fun c₁ c₂ => R.Parted s c c₁ → R.Parted s c c₂) (fun _ h => h)
    (fun _ _ _ h h' hp => h' (h hp)) (fun c' hp => (R.goesOn s c c' hp).1)
    (fun v c' hp => (R.goesOn s c c' hp).2 v) m hp

namespace Abreast

theorem ofAlike {x : Exec C α} (h : Respects R.Beside x) : Abreast R x :=
  fun m m' hm => .inl (h m m' hm)

theorem bind' {x : Exec C α} {f : α → Exec C β} (hx : Abreast R x) (hf : ∀ a, Abreast R (f a))
    (hmade : ∀ a, Made (f a)) : Abreast R (x >>= f) := by
  intro m m' h
  rcases hx m m' h with hxm | ⟨s, n, e, hp⟩
  · rcases hxm.cases with ⟨a, n, n', e, e', hn⟩ | ⟨s, n, n', e, e', hn⟩
    · unfold Parts
      rw [bind_ok e, bind_ok e', final_congr (bind_ok e')]
      exact hf a n n' hn
    · rw [bind_error e, bind_error e']
      exact .inl (.error s hn)
  · refine .inr ⟨s, n, bind_error e, ?_⟩
    rcases final_bind x f m' with ⟨a, n', e', hb⟩ | ⟨s', n', e', hb⟩
    · rw [final_ok e'] at hp
      rw [hb]
      exact (hmade a).goesOn R s _ n' hp
    · rw [final_error e'] at hp
      rwa [hb]

theorem between' {enter leave : Machine C → Machine C} {x : Exec C α}
    (henter : ∀ m m', R.Beside m m' → R.Beside (enter m) (enter m'))
    (hleave : ∀ m m', R.Beside m m' → R.Beside (leave m) (leave m'))
    (hchannel : ∀ m, (leave m).channel = m.channel) (hx : Abreast R x) :
    Abreast R (between enter leave x) := by
  intro m m' h
  rcases hx _ _ (henter m m' h) with hxm | ⟨s, n, e, hp⟩
  · exact .inl (.between' hxm hleave)
  · refine .inr ⟨s, leave n, by simp only [between, e], ?_⟩
    rwa [final_between, hchannel, hchannel]

theorem inScope' {x : Exec C α} (hx : Abreast R x) : Abreast R (inScope x) :=
  .between' (fun _ _ => .pushScope) (fun _ _ => .popScope) Machine.popScope_channel hx

theorem inFrame' {x : Exec C α} (hx : Abreast R x) : Abreast R (inFrame x) :=
  .between' (fun _ _ => .enterCall) (fun _ _ => .leaveCall) Machine.leaveCall_channel hx

theorem calling' (name : Ident) (args : Nat) (span : Span) {body : Function → Exec C Decimal}
    (hbody : ∀ f, Abreast R (body f)) (hmade : ∀ f, Made (body f)) :
    Abreast R (calling name args span body) := by
  intro m m' h
  have hle : m.callLimit ≤ m'.callLimit := by rw [h.callLimit, h.callLimit']; exact R.limit_le
  rcases callee_cases_of_le name args span m m' h.functions h.activeCalls hle with
    ⟨f, e, e', -⟩ | ⟨s, e, e'⟩ | ⟨hlt, e, e'⟩
  · unfold Parts
    rw [calling_ok e, calling_ok e', final_congr (calling_ok e')]
    exact (hbody f).inFrame' _ _ (h.note _ _)
  · rw [calling_error e, calling_error e']
    exact .inl (.error s h)
  · -- The first run is at its limit; the second one may be below its own.
    have hp : R.Parted (.failed (Cause.at (.callLimit name.name m.callLimit) span)) m.channel
        m'.channel := by
      rw [h.callLimit, h.callLimit'] at hlt
      rw [h.callLimit]
      exact R.limited hlt name.name span _ _ h.channel
    exact .inr ⟨_, m, calling_error e, (Made.call name args span hmade).goesOn R _ _ m' hp⟩

theorem read' : Abreast R (read : Exec C Decimal) := by
  intro m m' h
  have hr := R.read _ _ h.channel
  have hfinal := final_read m'
  unfold Parts
  rw [hfinal]
  unfold read
  generalize Channel.read m.channel = r at hr
  generalize Channel.read m'.channel = r' at hr
  cases hr with
  | ok v hc => exact .inl (.ok v { h with channel := hc })
  | error e hc => exact .inl (.error _ { h with channel := hc })
  | parted e hp => exact .inr ⟨_, _, rfl, hp⟩

theorem write' (v : Decimal) : Abreast R (write v : Exec C Unit) := by
  intro m m' h
  have hr := R.write v _ _ h.channel
  have hfinal := final_write v m'
  unfold Parts
  rw [hfinal]
  unfold write
  generalize Channel.write v m.channel = r at hr
  generalize Channel.write v m'.channel = r' at hr
  cases hr with
  | ok u hc => exact .inl (.ok () { h with channel := hc })
  | error e hc => exact .inl (.error _ { h with channel := hc })
  | parted e hp => exact .inr ⟨_, _, rfl, hp⟩

theorem define' (name : Ident) (b : Binding) : Abreast R (define name b : Exec C Unit) := by
  refine .ofAlike fun m m' h => ?_
  unfold define
  rw [h.chain]
  cases m.chain.define name.name b with
  | none => exact .error _ h
  | some chain => exact .ok () (h.ofChain chain)

theorem addFunction' (f : Function) : Abreast R (addFunction f : Exec C Unit) := by
  refine .ofAlike fun m m' h => ?_
  rcases addFunction_cases f m m' h.functions with ⟨s, e, e'⟩ | ⟨e, e'⟩ | ⟨e, e'⟩
  · rw [e, e']; exact .error s h
  · rw [e, e']; exact .ok () (h.knowing f)
  · rw [e, e']; exact .ok () ((h.note _ _).knowing f)

end Abreast

/-- Every run keeps abreast of another one, up to the point where they part. -/
theorem Made.abreast (R : Race C) {x : Exec C α} (h : Made x) : Abreast R x := by
  induction h with
  | pure a => exact .ofAlike (.pure' a)
  | stop s => exact .ofAlike (.stop s)
  | bind _ hmade hx hf => exact .bind' hx hf hmade
  | lookup name =>
    refine .ofAlike fun m m' h => ?_
    unfold Exec.lookup
    rw [h.chain]
    exact .ok _ h
  | define name b => exact .define' name b
  | set name v =>
    refine .ofAlike fun m m' h => ?_
    rw [set_ok, set_ok, h.chain]
    exact .ok () (h.ofChain _)
  | read => exact .read'
  | write v => exact .write' v
  | counting name first last => exact .ofAlike fun m m' h => .ok () (h.note _ _)
  | inScope _ hx => exact .inScope' hx
  | call name args span hmade hbody => exact .calling' name args span hbody hmade
  | forget => exact .ofAlike fun m m' h => .ok () { h with functions := rfl }
  | addFunction f => exact .addFunction' f
  | registered constants => exact .ofAlike fun m m' h => .ok () (h.note _ _)

end Exec

end Bello
