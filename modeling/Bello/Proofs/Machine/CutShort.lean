import Bello.Proofs.Machine.Abreast
import Bello.Proofs.Machine.Bound

/- Runs that are cut short by a limit or by the end of the inputs.

   Two things can end a run that otherwise would go on: the limit on nested calls, and a
   read when no input is left. Up to that point neither is noticed. A run with a lower limit
   does what the run with a higher one does, or it stops at its limit, having written and
   read the beginning of what the other one writes and reads (`callLimit_cuts_short`). A run
   with fewer inputs does what the run with more inputs at the end does, or it asks for an
   input when all of them are used up (`unread_inputs_unseen`). Both are races in which the
   second run may go on where the first one stops. -/
namespace Bello

namespace Script

/-- The script with more inputs at the end. -/
def withMore (s : Script) (more : List Decimal) : Script := { s with inputs := s.inputs ++ more }

/-- The script after some reads and writes. -/
structure Later (s s' : Script) : Prop where
  inputs : s'.inputs <:+ s.inputs
  written : s.written <:+ s'.written

namespace Later

variable {s s₁ s₂ : Script}

theorem refl (s : Script) : Later s s := ⟨List.suffix_refl _, List.suffix_refl _⟩

theorem trans ⦃s₁ s₂ s₃ : Script⦄ (h : Later s₁ s₂) (h' : Later s₂ s₃) : Later s₁ s₃ :=
  ⟨h'.inputs.trans h.inputs, h.written.trans h'.written⟩

theorem read (s : Script) : Later s (Channel.after (Channel.read s)) := by
  obtain ⟨inputs, written⟩ := s
  cases inputs with
  | nil => exact refl _
  | cons d rest => exact ⟨List.suffix_cons d rest, List.suffix_refl _⟩

theorem write (v : Decimal) (s : Script) : Later s (Channel.after (Channel.write v s)) :=
  ⟨List.suffix_refl _, List.suffix_cons v s.written⟩

/-- Outputs are only added. -/
theorem outputs (h : Later s s₁) : s.outputs <+: s₁.outputs := List.reverse_prefix.mpr h.written

/-- Inputs are taken from the front. -/
theorem consumed (h : Later s s₁) (h' : Later s₁ s₂) :
    ∃ used used', s.inputs = used ++ s₁.inputs ∧ s.inputs = used' ++ s₂.inputs ∧
      used <+: used' := by
  obtain ⟨used, hu⟩ := h.inputs
  obtain ⟨more, hm⟩ := h'.inputs
  refine ⟨used, used ++ more, hu.symm, ?_, List.prefix_append used more⟩
  rw [List.append_assoc, hm, hu]

end Later

/-- A read fails only when no input is left. -/
theorem read_error {s s' : Script} {e : Error} (h : Channel.read s = .error e s') :
    s'.inputs = [] := by
  obtain ⟨inputs, written⟩ := s
  cases inputs with
  | nil => cases h; rfl
  | cons d rest => cases h

end Script

/-- The error of a run that has as many calls under way as it may. -/
def Error.IsCallLimit (limit : Nat) (e : Error) : Prop :=
  ∃ name span, e = Cause.at (.callLimit name limit) span

/-- The error of a run that asks for an input when there is none. -/
def Error.exhausted : Error := Cause.inputExhausted.unplaced

namespace Race

/-- Two limits. The run with the higher one goes on where the other is refused a call. -/
def ofLimits (limit limit' : Nat) (h : limit ≤ limit') : Race Script where
  limit := limit
  limit' := limit'
  limit_le := h
  InStep c c' := c = c'
  Parted s c c' := (∃ e, s = .failed e ∧ e.IsCallLimit limit) ∧ c.Later c'
  limited := by
    rintro - name span c _ rfl
    exact ⟨⟨_, rfl, name, span, rfl⟩, .refl _⟩
  read := by
    rintro c _ rfl
    cases Channel.read c with
    | ok v d => exact .ok v rfl
    | error e d => exact .error e rfl
  write := by
    rintro v c _ rfl
    cases Channel.write v c with
    | ok u d => exact .ok u rfl
    | error e d => exact .error e rfl
  goesOn := fun _ _ c' h =>
    ⟨⟨h.1, h.2.trans (.read c')⟩, fun v => ⟨h.1, h.2.trans (.write v c')⟩⟩

/-- More inputs at the end. The run that has them goes on where the other one finds none. -/
def ofInputs (more : List Decimal) (limit : Nat) : Race Script where
  limit := limit
  limit' := limit
  limit_le := Nat.le_refl limit
  InStep c c' := c' = c.withMore more
  Parted s c c' := s = .failed .exhausted ∧ c.inputs = [] ∧ c.written <:+ c'.written
  limited := fun h => absurd h (Nat.lt_irrefl limit)
  read := by
    rintro ⟨inputs, written⟩ _ rfl
    cases inputs with
    | nil => exact .parted _ ⟨rfl, rfl, (Script.Later.read ⟨[] ++ more, written⟩).written⟩
    | cons d rest => exact .ok d rfl
  write := by
    rintro v c _ rfl
    exact .ok () rfl
  goesOn := fun _ _ c' h => ⟨⟨h.1, h.2.1, h.2.2.trans (Script.Later.read c').written⟩,
    fun v => ⟨h.1, h.2.1, h.2.2.trans (Script.Later.write v c').written⟩⟩

end Race

namespace Exec

/-- A run takes its inputs from the front and adds its outputs at the end. -/
theorem later_of_ends {p : Program} {m m₁ : Machine Script} {r : Except Error Unit} {n : Nat}
    (h : runIn n p m = ending r m₁) : m.channel.Later m₁.channel := by
  have := (runIn_made n p).channels (S := Script.Later) .refl .trans .read .write m
  rwa [final_ending h] at this

/-- **The call limit only cuts runs short.** If the run with the higher limit comes to an
    end, so does the run with the lower one: in the same way, or at its limit with the
    beginning of the outputs and of the inputs of the other. What does not end at the limit
    is the same for every higher limit. -/
theorem callLimit_cuts_short (p : Program) (m : Machine Script) (limit' : Nat)
    (h : m.callLimit ≤ limit') :
    (∀ r' m₂, Ends p { m with callLimit := limit' } r' m₂ →
      ∃ r m₁, Ends p m r m₁ ∧
        ((r = r' ∧ m₁.channel = m₂.channel ∧ m₁.chain = m₂.chain) ∨
          ((∃ e, r = .error e ∧ e.IsCallLimit m.callLimit) ∧
            m₁.channel.outputs <+: m₂.channel.outputs ∧
            ∃ used used', m.channel.inputs = used ++ m₁.channel.inputs ∧
              m.channel.inputs = used' ++ m₂.channel.inputs ∧ used <+: used'))) ∧
    (∀ r m₁, Ends p m r m₁ → (∀ e, r = .error e → ¬ e.IsCallLimit m.callLimit) →
      ∃ m₂, Ends p { m with callLimit := limit' } r m₂ ∧
        m₂.channel = m₁.channel ∧ m₂.chain = m₁.chain) := by
  have hb : (Race.ofLimits m.callLimit limit' h).Beside m { m with callLimit := limit' } :=
    ⟨rfl, rfl, rfl, rfl, rfl, rfl⟩
  constructor
  · rintro r' m₂ ⟨n, (hn : runIn n p _ = ending r' m₂)⟩
    rcases (runIn_made n p).abreast _ m _ hb with ha | ⟨s, m₁, e, hp⟩
    · rw [hn] at ha
      obtain ⟨m₁, e, hm⟩ := ha.ends'
      exact ⟨r', m₁, ⟨n, e⟩, .inl ⟨rfl, hm.channel, hm.chain.symm⟩⟩
    · obtain ⟨⟨err, rfl, herr⟩, hlater⟩ := hp
      rw [final_ending hn] at hlater
      have hend : runIn n p m = ending (.error err) m₁ := e
      exact ⟨.error err, m₁, ⟨n, hend⟩, .inr ⟨⟨err, rfl, herr⟩, hlater.outputs,
        (later_of_ends hend).consumed hlater⟩⟩
  · rintro r m₁ ⟨n, (hn : runIn n p m = ending r m₁)⟩ hr
    rcases (runIn_made n p).abreast _ m _ hb with ha | ⟨s, m₁', e, hp⟩
    · rw [hn] at ha
      obtain ⟨m₂, e, hm⟩ := ha.ends
      exact ⟨m₂, ⟨n, e⟩, hm.channel.symm, hm.chain⟩
    · obtain ⟨⟨err, rfl, herr⟩, -⟩ := hp
      have hend : runIn n p m = ending (.error err) m₁' := e
      obtain ⟨rfl, -⟩ := ending_inj (hn.symm.trans hend)
      exact absurd herr (hr err rfl)

/-- A function that writes a number and calls itself, and a call of it. -/
def echo : Program :=
  let at0 : Span := .point 0
  let again : Expr := .call ⟨"f", at0⟩ [] at0
  let body : Block := ⟨[.output (.number .one at0) at0, .giveBack again at0], at0⟩
  ⟨[.function ⟨⟨"f", at0⟩, [], body, at0⟩, .statement (.evaluate again at0)]⟩

/-- With room for two calls `echo` stops at its limit, and with room for one it has written
    less by then. -/
theorem callLimit_cuts_short_echo :
    let m : Machine Script := .new (.ofInputs []) 1 false
    m.callLimit ≤ 2 ∧ ∃ m₂,
      Ends echo { m with callLimit := 2 } (.error (Cause.at (.callLimit "f" 2) (.point 0))) m₂ ∧
      ∃ r m₁, Ends echo m r m₁ ∧ m₁.channel.outputs <+: m₂.channel.outputs := by
  have hend : Ends echo { Machine.new (Script.ofInputs []) 1 false with callLimit := 2 }
      (.error (Cause.at (.callLimit "f" 2) (.point 0))) _ := Course.Settles.ofOutcome (n := 40) rfl
  intro m
  have hle : m.callLimit ≤ 2 := by decide
  refine ⟨hle, _, hend, ?_⟩
  obtain ⟨r, m₁, h, ⟨-, hc, -⟩ | ⟨-, ho, -⟩⟩ := (callLimit_cuts_short echo m 2 hle).1 _ _ hend
  · exact ⟨r, m₁, h, hc ▸ List.prefix_refl _⟩
  · exact ⟨r, m₁, h, ho⟩

/-- **Unread inputs are not seen.** A run that does not ask for an input in vain is the same
    with more inputs at the end, and leaves those. A run that does has used up its inputs, and
    with more of them it begins with the same outputs. -/
theorem unread_inputs_unseen (p : Program) (m : Machine Script) (more : List Decimal) :
    (∀ r m₁, Ends p m r m₁ → r ≠ .error .exhausted →
      ∃ m₂, Ends p { m with channel := m.channel.withMore more } r m₂ ∧
        m₂.channel.outputs = m₁.channel.outputs ∧
        m₂.channel.inputs = m₁.channel.inputs ++ more ∧ m₂.chain = m₁.chain) ∧
    (∀ m₁ r' m₂, Ends p m (.error .exhausted) m₁ →
      Ends p { m with channel := m.channel.withMore more } r' m₂ →
      m₁.channel.inputs = [] ∧ m₁.channel.outputs <+: m₂.channel.outputs) := by
  have hb : (Race.ofInputs more m.callLimit).Beside m
      { m with channel := m.channel.withMore more } := ⟨rfl, rfl, rfl, rfl, rfl, rfl⟩
  constructor
  · rintro r m₁ ⟨n, (hn : runIn n p m = ending r m₁)⟩ hr
    rcases (runIn_made n p).abreast _ m _ hb with ha | ⟨s, m₁', e, rfl, -⟩
    · rw [hn] at ha
      obtain ⟨m₂, e, hm⟩ := ha.ends
      have hc : m₂.channel = m₁.channel.withMore more := hm.channel
      exact ⟨m₂, ⟨n, e⟩, by rw [hc]; rfl, by rw [hc]; rfl, hm.chain⟩
    · have hend : runIn n p m = ending (.error .exhausted) m₁' := e
      exact absurd (ending_inj (hn.symm.trans hend)).1 hr
  · intro m₁ r' m₂ h h'
    obtain ⟨n, (hn : runIn n p m = _), (hn' : runIn n p _ = _)⟩ := h.together h'
    -- A read that fails leaves no input behind, and nothing else fails without a place.
    have hnone : m₁.channel.inputs = [] := by
      have hstop : runIn n p m = .error (.failed .exhausted) m₁ := hn
      rcases (runIn_made n p).stops (Q := fun c : Script => c.inputs = [])
        (fun _ _ _ => Script.read_error) (fun _ _ _ _ h => by cases h) hstop with hplaced | hnone
      · cases hplaced
      · exact hnone
    refine ⟨hnone, ?_⟩
    rcases (runIn_made n p).abreast _ m _ hb with ha | ⟨s, m₁', e, -, -, hw⟩
    · rw [hn, hn'] at ha
      obtain ⟨m', e, hm⟩ := ha.ends
      obtain ⟨-, rfl⟩ := ending_inj e
      have hc : m₂.channel = m₁.channel.withMore more := hm.channel
      rw [hc]
      exact List.prefix_refl _
    · have hend : runIn n p m = .error s m₁' := e
      rw [hn] at hend
      cases hend
      rw [final_ending hn'] at hw
      exact List.reverse_prefix.mpr hw

/-- A program that reads one number: the second one is left for others. -/
theorem unread_inputs_unseen_second :
    let at0 : Span := .point 0
    let p : Program := ⟨[.statement (.input ⟨"x", at0⟩ at0)]⟩
    let m : Machine Script := .new (.ofInputs [.one]) 128 false
    ∃ m₁ m₂, Ends p m (.ok ()) m₁ ∧
      Ends p { m with channel := m.channel.withMore [.zero] } (.ok ()) m₂ ∧
      m₂.channel.inputs = m₁.channel.inputs ++ [.zero] := by
  intro at0 p m
  have hend : Ends p m (.ok ()) (final (runIn 9 p) m) :=
    Course.Settles.ofOutcome rfl
  obtain ⟨m₂, h, -, hi, -⟩ := (unread_inputs_unseen p m [.zero]).1 _ _ hend (by simp)
  exact ⟨_, m₂, hend, h, hi⟩

end Exec

end Bello
