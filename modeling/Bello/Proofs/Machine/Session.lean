import Bello.Machine.Execution
import Bello.Proofs.Machine.Abreast
import Bello.Proofs.Machine.Balance

/- Sources that are executed one after the other.

   A machine that has run programs before, to whatever ends, differs from a new one in its
   functions, its log and what has been read and written. The functions are forgotten when
   the next program begins, and the number of active calls is back at zero, so the next
   source is executed as on a new machine (`executed_as_on_new`): the runs are a race in
   which the outputs of the one have been preceded by earlier ones, and which never part. -/
namespace Bello

/-- The script after earlier outputs. -/
def Script.preceded (s : Script) (earlier : List Decimal) : Script :=
  { s with written := s.written ++ earlier }

theorem Script.outputs_preceded (s : Script) (earlier : List Decimal) :
    (s.preceded earlier).outputs = earlier.reverse ++ s.outputs := by
  simp [preceded, outputs]

/-- Earlier outputs. No run can tell. -/
def Race.ofOutputs (earlier : List Decimal) (limit : Nat) : Race Script where
  limit := limit
  limit' := limit
  limit_le := Nat.le_refl limit
  InStep c c' := c = c'.preceded earlier
  Parted _ _ _ := False
  limited := fun h => absurd h (Nat.lt_irrefl limit)
  read := by
    intro c c' h
    obtain ⟨inputs, written⟩ := c'
    subst h
    cases inputs with
    | nil => exact .error _ rfl
    | cons d rest => exact .ok d rfl
  write := by
    intro v c c' h
    subst h
    exact .ok () rfl
  goesOn := fun _ _ _ h => h.elim

namespace Exec

variable {C : Type} [Channel C]

theorem outcome_run (n : Nat) (p : Program) (m : Machine C) :
    outcome (run n p) m = outcome (runIn n p) { m with chain := .new } := by
  unfold outcome run
  cases runIn n p { m with chain := .new } with
  | ok a m' => rfl
  | error e m' => rfl

theorem final_run (n : Nat) (p : Program) (m : Machine C) :
    final (run n p) m = { final (runIn n p) { m with chain := .new } with chain := m.chain } := by
  unfold final run
  cases runIn n p { m with chain := .new } with
  | ok a m' => rfl
  | error e m' => rfl

/-- A source that cannot be read changes nothing. -/
theorem runSource_unread {source : String} {e : Error} (h : Program.ofSource source = .error e)
    (n : Nat) (m : Machine C) : runSource n source m = .error (.failed e) m := by
  unfold runSource
  rw [h]
  rfl

theorem runSource_read {source : String} {p : Program} (h : Program.ofSource source = .ok p)
    (n : Nat) : (runSource n source : Exec C Unit) = run n p := by
  unfold runSource
  rw [h]

/-- However an execution ends, as many calls are under way as before, within the same
    limit. -/
theorem runSource_calls (n : Nat) (source : String) (m : Machine C) :
    (final (runSource n source) m).activeCalls = m.activeCalls ∧
    (final (runSource n source) m).callLimit = m.callLimit := by
  cases h : Program.ofSource source with
  | error e => rw [final_error (runSource_unread h n m)]; exact ⟨rfl, rfl⟩
  | ok p =>
    have hb := (runIn_made n p).balanced { m with chain := .new }
    rw [runSource_read h, final_run]
    exact ⟨hb.activeCalls, hb.callLimit⟩

/-- The machine after sources have been executed on it in turn, each one followed up to a
    bound. -/
def afterAll (history : List (Nat × String)) (m : Machine C) : Machine C :=
  history.foldl (fun m h => final (runSource h.1 h.2) m) m

theorem afterAll_calls (history : List (Nat × String)) (m : Machine C) :
    (afterAll history m).activeCalls = m.activeCalls ∧
    (afterAll history m).callLimit = m.callLimit := by
  induction history generalizing m with
  | nil => exact ⟨rfl, rfl⟩
  | cons h history ih =>
    obtain ⟨ha, hl⟩ := runSource_calls h.1 h.2 m
    obtain ⟨ha', hl'⟩ := ih (final (runSource h.1 h.2) m)
    exact ⟨ha'.trans ha, hl'.trans hl⟩

/-- A program runs on a machine at rest as on a new one with the same inputs. -/
theorem run_as_on_new (n : Nat) (p : Program) (m : Machine Script) (tracing : Bool)
    (h : m.activeCalls = 0) :
    let fresh : Machine Script := .new (.ofInputs m.channel.inputs) m.callLimit tracing
    outcome (run n p) m = outcome (run n p) fresh ∧
    (final (run n p) m).channel = (final (run n p) fresh).channel.preceded m.channel.written := by
  intro fresh
  have hb : (Race.ofOutputs m.channel.written m.callLimit).Beside
      { m with chain := .new, functions := ∅ } fresh := ⟨rfl, rfl, h.symm, rfl, rfl, rfl⟩
  rw [outcome_run, outcome_run, final_run, final_run]
  rcases (runIn_made n p).abreast _ _ _ hb with ha | ⟨s, m₁, e, hp⟩
  · obtain ⟨ho, hf⟩ := ha.outcome_final
    exact ⟨ho, hf.channel⟩
  · exact hp.elim

/-- So does a source, whether it can be read or not. -/
theorem runSource_as_on_new (n : Nat) (source : String) (m : Machine Script) (tracing : Bool)
    (h : m.activeCalls = 0) :
    let fresh : Machine Script := .new (.ofInputs m.channel.inputs) m.callLimit tracing
    outcome (runSource n source) m = outcome (runSource n source) fresh ∧
    (final (runSource n source) m).channel =
      (final (runSource n source) fresh).channel.preceded m.channel.written := by
  intro fresh
  cases hs : Program.ofSource source with
  | ok p =>
    rw [runSource_read hs]
    exact run_as_on_new n p m tracing h
  | error e =>
    unfold outcome final
    rw [runSource_unread hs, runSource_unread hs]
    exact ⟨rfl, rfl⟩

/-- **No state leaks from one execution to the next.** After any sources, executed to any
    ends, a further one has the result, the outputs and the unread inputs that it has on a
    new machine that is given the inputs left; and one that cannot be read changes
    nothing. -/
theorem executed_as_on_new (script : Script) (limit : Nat) (tracing : Bool)
    (history : List (Nat × String)) (n : Nat) (source : String) :
    let m := afterAll history (Machine.new script limit tracing)
    let fresh := Machine.new (Script.ofInputs m.channel.inputs) limit tracing
    outcome (runSource n source) m = outcome (runSource n source) fresh ∧
    (final (runSource n source) m).channel.outputs =
      m.channel.outputs ++ (final (runSource n source) fresh).channel.outputs ∧
    (final (runSource n source) m).channel.inputs =
      (final (runSource n source) fresh).channel.inputs ∧
    ∀ e, Program.ofSource source = .error e → runSource n source m = .error (.failed e) m := by
  intro m fresh
  obtain ⟨ha, hl⟩ := afterAll_calls history (Machine.new script limit tracing)
  obtain ⟨ho, hc⟩ := runSource_as_on_new n source m tracing ha
  rw [show m.callLimit = limit from hl] at ho hc
  refine ⟨ho, ?_, ?_, fun e he => runSource_unread he n m⟩
  · rw [hc, Script.outputs_preceded]; rfl
  · rw [hc]; rfl

end Exec

end Bello
