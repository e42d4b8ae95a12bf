import Bello.Proofs.Machine.Returning

/- Functions that return on every path.

   `AlwaysReturns ss` is read off the statements alone: among them is a return, a block that
   always returns, or a choice both of whose branches do. Statements like that never come to
   a normal end (`AlwaysReturns.not_falls`), whatever the loops, calls and errors before.

   A run enters the functions of its program before the first statement, none over another of
   the same name (`register_functions`), and no step changes them. So the function that a call
   by a given name finds is the one that the program declares, and if that one always returns,
   no call of it, however deep, ends without a return (`missing_return_excluded`). -/
namespace Bello

/-- One of the statements returns on every path through it. -/
inductive AlwaysReturns : List Stmt → Prop where
  | giveBack {value : Expr} {span : Span} {ss : List Stmt} :
      .giveBack value span ∈ ss → AlwaysReturns ss
  | block {b : Block} {ss : List Stmt} :
      .block b ∈ ss → AlwaysReturns b.statements → AlwaysReturns ss
  | choose {condition : Expr} {yes no : Block} {span : Span} {ss : List Stmt} :
      .choose condition yes (some no) span ∈ ss → AlwaysReturns yes.statements →
      AlwaysReturns no.statements → AlwaysReturns ss

namespace Exec

open Course

variable {C : Type} [Channel C] {inFunction : Bool}

/-! ## No normal end -/

/-- The course can come to a normal end. -/
def Course.Falls (x : Course C Flow) : Prop := ∃ m m', x.Settles m (.ok .normal) m'

/-- A sequence comes to a normal end only if each of its statements does. -/
theorem falls_sequence {ss : List Stmt} (h : (sequence (C := C) inFunction ss).Falls) :
    ∀ s ∈ ss, (statement (C := C) inFunction s).Falls := by
  induction ss with
  | nil => intro s hs; cases hs
  | cons first rest ih =>
    obtain ⟨m, m', hall⟩ := h
    rcases settles_andThen.1 (settles_sequence_cons.1 hall) with ⟨m₁, hfirst, hrest⟩ | ⟨hne, -⟩
    · intro s hs
      rcases List.mem_cons.1 hs with rfl | hs
      · exact ⟨m, m₁, hfirst⟩
      · exact ih ⟨m₁, m', hrest⟩ s hs
    · exact absurd rfl hne

theorem falls_block {b : Block} (h : (block (C := C) inFunction b).Falls) :
    (sequence (C := C) inFunction b.statements).Falls := by
  obtain ⟨m, m', hblock⟩ := h
  obtain ⟨m₁, hbody, -⟩ := settles_inScope.1 hblock
  exact ⟨m.pushScope, m₁, hbody⟩

/-- A choice with two branches comes to a normal end only if one of them does. -/
theorem falls_choose {condition : Expr} {yes no : Block} {span : Span}
    (h : (statement (C := C) inFunction (.choose condition yes (some no) span)).Falls) :
    (block (C := C) inFunction yes).Falls ∨ (block (C := C) inFunction no).Falls := by
  obtain ⟨m, m', hchoose⟩ := h
  rcases settles_bind.1 (settles_choose.1 hchoose) with ⟨v, m₁, -, hbranch⟩ | ⟨e, he, -⟩
  · cases hv : v.isTruthy with
    | true =>
      rw [branch, if_pos hv] at hbranch
      exact .inl ⟨m₁, m', hbranch⟩
    | false =>
      rw [branch, if_neg (by rw [hv]; exact Bool.false_ne_true)] at hbranch
      exact .inr ⟨m₁, m', hbranch⟩
  · cases he

theorem giveBack_not_falls {value : Expr} {span : Span} :
    ¬ (statement (C := C) inFunction (.giveBack value span)).Falls := by
  rintro ⟨m, m', n, hn⟩
  have hn : execute n inFunction (.giveBack value span) m = .ok .normal m' := hn
  cases n with
  | zero => cases hn
  | succ n =>
    cases inFunction with
    | false => cases hn
    | true =>
      obtain ⟨v, m₁, -, hreturn⟩ := bind_eq_ok hn
      cases hreturn

end Exec

open Exec Course in
/-- Statements that return on every path never come to a normal end. -/
theorem AlwaysReturns.not_falls {C : Type} [Channel C] {inFunction : Bool} {ss : List Stmt}
    (h : AlwaysReturns ss) : ¬ (sequence (C := C) inFunction ss).Falls := by
  induction h with
  | giveBack hmem => exact fun hfalls => giveBack_not_falls (falls_sequence hfalls _ hmem)
  | block hmem _ ih =>
    intro hfalls
    obtain ⟨m, m', hblock⟩ := falls_sequence hfalls _ hmem
    exact ih (falls_block ⟨m, m', settles_block.1 hblock⟩)
  | choose hmem _ _ ihyes ihno =>
    intro hfalls
    rcases falls_choose (falls_sequence hfalls _ hmem) with hyes | hno
    · exact ihyes (falls_block hyes)
    · exact ihno (falls_block hno)

namespace Exec

/-! ## The functions of a program -/

section

variable {C : Type}

theorem define_functions {name : Ident} {b : Binding} {m m' : Machine C}
    (h : define name b m = .ok () m') : m'.functions = m.functions := by
  unfold define at h
  split at h
  · cases h; rfl
  · cases h

theorem addFunction_functions {f : Function} {m m' : Machine C}
    (h : addFunction f m = .ok () m') :
    m.functions[f.name.name]? = none ∧ m'.functions = m.functions.insert f.name.name f := by
  have hget : (get : Exec C (Machine C)) m = .ok m m := rfl
  unfold addFunction at h
  rw [bind_ok hget] at h
  split at h
  · cases h
  · next hnew =>
    refine ⟨by simpa using hnew, ?_⟩
    split at h
    · cases h
      show (m.note _).functions.insert _ _ = _
      rw [Machine.note_eq]
    · cases h; rfl

/-- Registering adds the functions among the items, each under its own name, to those that
    are there. -/
theorem register_functions {constants : Nat} {items : List Item} {m m' : Machine C}
    (h : register constants items m = .ok () m') (name : String) (f : Function) :
    m'.functions[name]? = some f ↔
      m.functions[name]? = some f ∨ .function f ∈ items ∧ f.name.name = name := by
  induction items generalizing constants m with
  | nil =>
    cases h
    rw [Machine.note_eq]
    simp
  | cons item items ih =>
    cases item with
    | constant decl =>
      obtain ⟨_, m₁, hdefine, hrest⟩ := bind_eq_ok h
      rw [ih hrest, define_functions hdefine]
      simp
    | statement s =>
      rw [ih h]
      simp
    | function g =>
      obtain ⟨_, m₁, hadd, hrest⟩ := bind_eq_ok h
      obtain ⟨hfree, hinsert⟩ := addFunction_functions hadd
      rw [ih hrest, hinsert, Std.ExtTreeMap.getElem?_insert]
      simp only [Std.LawfulEqCmp.compare_eq_iff_eq, List.mem_cons, Item.function.injEq]
      by_cases hname : g.name.name = name
      · subst hname
        rw [if_pos rfl, hfree]
        constructor
        · rintro (hg | hrest)
          · cases hg; exact .inr ⟨.inl rfl, rfl⟩
          · exact .inr ⟨.inr hrest.1, hrest.2⟩
        · rintro (hnone | ⟨rfl | hmem, hf⟩)
          · cases hnone
          · exact .inl rfl
          · exact .inr ⟨hmem, hf⟩
      · rw [if_neg hname]
        constructor
        · rintro (hold | hrest)
          · exact .inl hold
          · exact .inr ⟨.inr hrest.1, hrest.2⟩
        · rintro (hold | ⟨rfl | hmem, hf⟩)
          · exact .inl hold
          · exact absurd hf hname
          · exact .inr ⟨hmem, hf⟩

/-- The machine knows no function of that name but such as always return. -/
def OnlyReturning (name : String) (m : Machine C) : Prop :=
  ∀ (key : String) (f : Function), m.functions[key]? = some f → f.name.name = name →
    AlwaysReturns f.body.statements

/-- After registering, a name stands for the function that the program declares. -/
theorem register_onlyReturning {items : List Item} {f : Function} {constants : Nat}
    {m m' : Machine C} (hf : .function f ∈ items) (hbody : AlwaysReturns f.body.statements)
    (hempty : m.functions = ∅) (h : register constants items m = .ok () m') :
    OnlyReturning f.name.name m' := by
  intro key g hg hname
  have hnone : ∀ name : String, m.functions[name]? = none := by simp [hempty]
  have hfound : m'.functions[f.name.name]? = some f :=
    (register_functions h f.name.name f).2 (.inr ⟨hf, rfl⟩)
  rcases (register_functions h key g).1 hg with hold | ⟨-, hkey⟩
  · rw [hnone] at hold
    cases hold
  · rw [← hkey, hname, hfound] at hg
    cases hg
    exact hbody

end

variable {C : Type} [Channel C]

/-! ## Calls that end without a return -/

/-- No call of a function of that name ends without a return, unless the channel says so. -/
def Spares (C : Type) [Channel C] (name : String) : Stop → Prop
  | .failed e => e.cause = .missingReturn name → Channel.Raises C e
  | .unfinished => True

theorem spares_of_cause {name : String} {cause : Cause} {span : Span}
    (h : cause ≠ .missingReturn name) : Spares C name (.failed (cause.at span)) :=
  fun hcause => absurd hcause h

theorem spares_of_common {name : String} {cause : Cause} {span : Span} (h : cause.isCommon) :
    Spares C name (.failed (cause.at span)) := by
  refine spares_of_cause ?_
  rintro rfl
  cases h

theorem spares_admits (name : String) :
    Admits (OnlyReturning (C := C) name) (fun _ _ => True) (Spares C name) where
  ofFunctions m m' hfunctions h := by
    unfold OnlyReturning
    rw [hfunctions]
    exact h
  unfinished := trivial
  raised e he := fun _ => he
  common _ _ hcommon _ := spares_of_common hcommon
  known _ _ _ _ _ _ _ _ := trivial
  missing m m₁ m₂ key f n span hm hfound _ hnormal := by
    intro hcause
    have hname : f.name.name = name := by
      cases hcause
      rfl
    -- The body would have come to a normal end.
    exact absurd (falls_block ⟨m₁, m₂, n, hnormal⟩) (hm key f hfound hname).not_falls

theorem runIn_spares {p : Program} {f : Function} (hf : .function f ∈ p.items)
    (hbody : AlwaysReturns f.body.statements) {n : Nat} {m m' : Machine C} {e : Error}
    (h : runIn n p m = .error (.failed e) m') : Spares C f.name.name (.failed e) := by
  have hin : runIn n p m = (do register 0 p.items; executeItems n p.items : Exec C Unit)
      { m with functions := ∅ } := rfl
  have hret : Admits.Return (fun _ _ => True) (Spares C f.name.name) false :=
    fun _ span _ => spares_of_cause (fun hcause => by cases hcause)
  -- Which functions are known does not matter before they are all entered.
  have hregister : Upholds (fun _ => True) (Spares C f.name.name) (fun _ => True)
      (register 0 p.items : Exec C Unit) :=
    register_upholds (fun _ _ _ h => h) 0 (fun _ _ _ h => h)
      (fun _ _ _ _ _ hcommon => spares_of_common hcommon)
  rw [hin] at h
  rcases hregister { m with functions := ∅ } trivial with ⟨_, m₁, hr, -⟩ | ⟨s, m₁, hr, -, hs⟩
  · rw [bind_ok hr] at h
    have hknown := register_onlyReturning hf hbody rfl hr
    have hfaults : Upholds _ _ _ (executeItems n p.items : Exec C Unit) :=
      executeItems_faults (spares_admits f.name.name) hret n
        (fun _ _ _ _ _ => trivial)
    rcases hfaults m₁ hknown with ⟨_, _, hok, -⟩ | ⟨s, _, herr, -, hs⟩
    · rw [h] at hok
      cases hok
    · rw [h] at herr
      cases herr
      exact hs
  · rw [bind_error hr] at h
    cases h
    exact hs

/-- **A function that returns on every path never ends without a return.** Let a program
    declare a function whose body always returns. Then no run of the program, on whatever
    machine and to whatever length, on the machine's chain or on a chain of its own, fails
    because that function ended without a return: an error that says so is the channel's own,
    and the channels at hand raise none. -/
theorem missing_return_excluded {p : Program} {f : Function} (hf : .function f ∈ p.items)
    (hbody : AlwaysReturns f.body.statements) :
    (∀ (C : Type) [Channel C] (n : Nat) (m m' : Machine C) (e : Error),
      runIn n p m = .error (.failed e) m' ∨ run n p m = .error (.failed e) m' →
      e.cause = .missingReturn f.name.name → Channel.Raises C e) ∧
    (∀ (n : Nat) (m m' : Machine Script) (e : Error),
      runIn n p m = .error (.failed e) m' ∨ run n p m = .error (.failed e) m' →
      e.cause ≠ .missingReturn f.name.name) ∧
    (∀ (n : Nat) (m m' : Machine Console) (e : Error),
      runIn n p m = .error (.failed e) m' ∨ run n p m = .error (.failed e) m' →
      e.cause ≠ .missingReturn f.name.name) := by
  have hall : ∀ (C : Type) [Channel C] (n : Nat) (m m' : Machine C) (e : Error),
      runIn n p m = .error (.failed e) m' ∨ run n p m = .error (.failed e) m' →
      e.cause = .missingReturn f.name.name → Channel.Raises C e := by
    intro C _ n m m' e h
    rcases h with h | h
    · exact runIn_spares hf hbody h
    · unfold run at h
      split at h
      · cases h
      · next hin => cases h; exact runIn_spares hf hbody hin
  -- What a channel at hand raises is about input and output.
  have hphase : ∀ {e : Error}, e.cause = .missingReturn f.name.name → e.phase ≠ .environment := by
    intro e he hp
    rw [Error.phase, he] at hp
    cases hp
  refine ⟨hall, ?_, ?_⟩
  · intro n m m' e h he
    exact hphase he (script_raises (hall Script n m m' e h he))
  · intro n m m' e h he
    exact hphase he (console_raises (hall Console n m m' e h he))

/-- A function that calls itself in one branch of a choice and ends in the other, with a
    block around the recursive return. -/
theorem missing_return_excluded_recursive :
    let at0 : Span := .point 0
    let name : Ident := ⟨"down", at0⟩
    let n : Ident := ⟨"n", at0⟩
    let next : Expr := .call name [.binary .sub (.var n) (.number .one at0) at0] at0
    let yes : Block := ⟨[.block ⟨[.giveBack next at0], at0⟩], at0⟩
    let no : Block := ⟨[.output (.var n) at0, .giveBack (.var n) at0], at0⟩
    let f : Function := ⟨name, [n], ⟨[.choose (.var n) yes (some no) at0], at0⟩, at0⟩
    let p : Program := ⟨[.statement (.output (.call name [.number .one at0] at0) at0), .function f]⟩
    .function f ∈ p.items ∧ AlwaysReturns f.body.statements ∧
      ∀ (k : Nat) (m m' : Machine Script) (e : Error),
        runIn k p m = .error (.failed e) m' ∨ run k p m = .error (.failed e) m' →
        e.cause ≠ .missingReturn "down" := by
  intro at0 name n next yes no f p
  have hf : .function f ∈ p.items := .tail _ (.head _)
  have hbody : AlwaysReturns f.body.statements :=
    .choose (.head _) (.block (.head _) (.giveBack (.head _))) (.giveBack (.tail _ (.head _)))
  exact ⟨hf, hbody, (missing_return_excluded hf hbody).2.1⟩

end Exec

end Bello
