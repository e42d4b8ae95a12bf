import Bello.Proofs.Machine.Faults
import Bello.Proofs.Place.Parse

/- The errors of a run point at the text.

   A run takes its spans from the tree, and besides the tree from the functions that the
   machine knows; these come from the same source. What a placed tree can raise fits the text
   (`Expr.Raises.fits`, `Stmt.Raises.fits`). So the law that a run keeps is that the functions
   of the machine are placed, each under its own name, and what follows from it is that every
   error of the run fits the text. -/
namespace Bello

/-- A run may stop when the inputs are used up, which happens nowhere in the source; every
    other error fits the text. -/
def Stop.Fits (text : List Char) : Stop → Prop
  | .failed e => e = Cause.inputExhausted.unplaced ∨ e.Fits text
  | .unfinished => True

namespace Machine

variable {C : Type} {text : List Char} {m m' : Machine C}

/-- The functions that the machine knows are placed, each under its name. -/
def Placed (text : List Char) (m : Machine C) : Prop :=
  ∀ (name : String) (f : Function), m.functions[name]? = some f →
    f.Placed text ∧ f.name.name = name

namespace Placed

/-- All other parts of the machine are free. -/
theorem congr (h : m.Placed text) (hf : m'.functions = m.functions) : m'.Placed text := by
  intro name f hfind
  rw [hf] at hfind
  exact h name f hfind

theorem knowing (h : m.Placed text) {f : Function} (hf : f.Placed text) :
    (m.knowing f).Placed text := by
  intro name g hfind
  have hinsert : (m.functions.insert f.name.name f)[name]? = some g := hfind
  rw [Std.ExtTreeMap.getElem?_insert] at hinsert
  split at hinsert
  · next hname =>
    cases hinsert
    exact ⟨hf, Std.LawfulEqCmp.eq_of_compare hname⟩
  · exact h name g hinsert

end Placed

end Machine

/-! ## Causes that arise at a place of the tree -/

theorem Cause.fits_of_isArithmetic {text : List Char} {s : Span} {cause : Cause}
    (hs : s.Within text) (h : cause.isArithmetic) : cause.Fits text s := by
  cases cause with
  | divisionByZero | overflow | undefinedPower => exact hs
  | _ => cases h

/-- A function that every program has is called by its name. -/
theorem Builtin.name_of_ofName? {name : String} {b : Builtin} (h : ofName? name = some b) :
    b.name = name := by
  simpa using List.find?_some h

section Raises

variable {text : List Char} {cause : Cause} {s : Span}

theorem CallRaises.fits {name : Ident} {span : Span} (h : CallRaises name span cause s)
    (hname : name.Placed text) (hspan : span.Opens text name.name) : cause.Fits text s := by
  cases h with
  | unknown => exact hname
  | arity | limit | missing => exact hspan

theorem Expr.Raises.fits {e : Expr} (h : e.Raises cause s) (he : e.Placed text) :
    cause.Fits text s := by
  induction h with
  | var name => cases he with | var hname => exact hname
  | operand _ ih => cases he with | unary _ he _ => exact ih he
  | left _ ih => cases he with | binary _ hl _ _ => exact ih hl
  | right _ ih => cases he with | binary _ _ hr _ => exact ih hr
  | operation hop =>
    cases he with
    | binary _ _ _ hs => exact Cause.fits_of_isArithmetic hs (BinaryOp.apply_isArithmetic hop)
  | argument hmem _ ih => cases he with | call _ hargs _ => exact ih (hargs _ hmem)
  | builtin hb hop =>
    cases he with
    | call _ _ hs =>
      rw [← Builtin.name_of_ofName? hb] at hs
      rw [Builtin.apply_error hop]
      exact hs
  | call hcall => cases he with | call hname _ hs => exact hcall.fits hname hs
  | text => cases he with | text _ hs => exact hs

theorem Stmt.Raises.fits {st : Stmt} (h : st.Raises cause s) (hst : st.Placed text) :
    cause.Fits text s := by
  induction h with
  | declare => cases hst with | declare _ hname => exact hname
  | assignValue hr => cases hst with | assign _ _ hvalue => exact hr.fits hvalue
  | assignConstant | assignUnknown => cases hst with | assign _ htarget _ => exact htarget
  | inputConstant | inputDeclared => cases hst with | input _ htarget => exact htarget
  | output hr => cases hst with | output _ hvalue => exact hr.fits hvalue
  | chooseCondition hr => cases hst with | choose _ hcondition _ _ => exact hr.fits hcondition
  | chooseYes hmem _ ih => cases hst with | choose _ _ hyes _ => exact ih (hyes _ hmem)
  | chooseNo hmem _ ih => cases hst with | choose _ _ _ hno => exact ih (hno _ rfl _ hmem)
  | whileCondition hr => cases hst with | repeatWhile _ hcondition _ => exact hr.fits hcondition
  | whileBody hmem _ ih => cases hst with | repeatWhile _ _ hbody => exact ih (hbody _ hmem)
  | countFirst hr => cases hst with | count _ hfirst _ _ _ => exact hr.fits hfirst
  | countLast hr => cases hst with | count _ _ hlast _ _ => exact hr.fits hlast
  | countCounter => cases hst with | count hcounter _ _ _ _ => exact hcounter
  | countBody hmem _ ih => cases hst with | count _ _ _ hbody _ => exact ih (hbody _ hmem)
  | countOverflow => cases hst with | count _ _ _ _ hspan => exact hspan
  | giveBackValue hr => cases hst with | giveBack hvalue _ => exact hr.fits hvalue
  | giveBackOutside => cases hst with | giveBack _ hspan => exact hspan
  | block hmem _ ih => cases hst with | block hbody => exact ih (hbody _ hmem)
  | evaluate hr => cases hst with | evaluate _ he => exact hr.fits he

theorem Function.Raises.fits {f : Function} (h : f.Raises cause s) (hf : f.Placed text) :
    cause.Fits text s := by
  cases h with
  | param hp => exact hf.params _ hp
  | body hmem hr => exact hr.fits (hf.body _ hmem)

theorem Item.Raises.fits {i : Item} (h : i.Raises cause s) (hi : i.Placed text) :
    cause.Fits text s := by
  cases h with
  | constant decl => exact hi
  | function f => exact hi.name
  | statement hr => exact hr.fits hi

end Raises

namespace Exec

variable {text : List Char}

/-! ## Runs -/

theorem placed_ofFunctions {C : Type} : OfFunctions (Machine.Placed (C := C) text) :=
  fun _ _ hf h => h.congr hf

theorem fits_admits :
    Admits (Machine.Placed (C := Script) text) (fun cause span => cause.Fits text span)
      (Stop.Fits text) where
  ofFunctions := placed_ofFunctions
  unfinished := trivial
  raised _ he := .inl (Script.eq_of_raises he)
  common _ _ _ hfits := .inr hfits.error
  known _ name f hm hfound _ _ hr := hr.fits (hm name f hfound).1
  missing m _ _ name f _ span hm hfound hfits _ := by
    -- The error names the function by its definition, the span shows it at the call.
    have hname : (Cause.missingReturn f.name.name).Fits text span := by
      rw [(hm name f hfound).2]
      exact hfits
    exact .inr hname.error

theorem register_fits {p : Program} (hp : p.Placed text) :
    Upholds (Machine.Placed text) (Stop.Fits text) (fun _ => True)
      (register 0 p.items : Exec Script Unit) :=
  register_upholds placed_ofFunctions 0 (fun f hf _ hm => hm.knowing (hp (.function f) hf))
    (fun item hitem _ _ hr _ => .inr (hr.fits (hp item hitem)).error)

theorem executeItems_fits (n : Nat) {p : Program} (hp : p.Placed text) :
    Upholds (Machine.Placed text) (Stop.Fits text) (fun _ => True)
      (executeItems n p.items : Exec Script Unit) :=
  executeItems_faults fits_admits (fun _ _ hfits => .inr hfits.error) n
    (fun item hitem _ _ hr => hr.fits (hp item hitem))

/-- Functions of an earlier program are gone, so nothing is asked of the machine. -/
theorem run_fits (n : Nat) {p : Program} (hp : p.Placed text) {m m' : Machine Script} {e : Stop}
    (h : run n p m = .error e m') : e.Fits text := by
  have hempty : Machine.Placed text { m with chain := .new, functions := ∅ } := by
    intro name f hfind
    simp at hfind
  have hrun : Upholds (Machine.Placed text) (Stop.Fits text) (fun _ => True)
      (do register 0 p.items; executeItems n p.items : Exec Script Unit) :=
    .bind' (register_fits hp) (fun _ _ => executeItems_fits n hp)
  have hin : runIn n p { m with chain := .new } =
      (do register 0 p.items; executeItems n p.items : Exec Script Unit)
        { m with chain := .new, functions := ∅ } := rfl
  unfold run at h
  rw [hin] at h
  rcases hrun _ hempty with ⟨_, _, hr, -⟩ | ⟨e', _, hr, -, he⟩
  · rw [hr] at h
    cases h
  · rw [hr] at h
    cases h
    exact he

/-- **Diagnostics point at the text they talk about.** The error of a source that cannot be
    read has a span in the normalized text, and so has the error of a run of one that can,
    unless the inputs are used up. At that span stands what the error speaks of, as
    `Cause.Fits` says for each cause. -/
theorem errors_point_at_text (source : String) :
    let text := Text.normalize source.toList
    (∀ e : Error, Program.ofSource source = .error e →
      ∃ s, e.span = some s ∧ s.start ≤ s.stop ∧ s.stop ≤ text.length ∧ e.cause.Fits text s) ∧
    (∀ (p : Program) (n : Nat) (m m' : Machine Script) (e : Error),
      Program.ofSource source = .ok p → run n p m = .error (.failed e) m' →
      e = Cause.inputExhausted.unplaced ∨
      ∃ s, e.span = some s ∧ s.start ≤ s.stop ∧ s.stop ≤ text.length ∧ e.cause.Fits text s) := by
  intro text
  have hspan : ∀ e : Error, e.Fits text →
      ∃ s, e.span = some s ∧ s.start ≤ s.stop ∧ s.stop ≤ text.length ∧ e.cause.Fits text s := by
    intro e he
    obtain ⟨s, hs, hfits⟩ := he
    exact ⟨s, hs, hfits.within.ordered, hfits.within.bounded, hfits⟩
  rcases Program.ofSource_places source with ⟨q, hq, hplaced⟩ | ⟨e', he', hfits⟩
  · refine ⟨fun e he => ?_, fun p n m m' e hp hrun => ?_⟩
    · rw [hq] at he
      cases he
    · rw [hq] at hp
      cases hp
      have hstop : Stop.Fits text (.failed e) := run_fits n hplaced hrun
      exact hstop.imp id (hspan e)
  · refine ⟨fun e he => ?_, fun p n m m' e hp hrun => ?_⟩
    · rw [he'] at he
      cases he
      exact hspan e' hfits
    · rw [he'] at hp
      cases hp

/-- Too many arguments, in the middle of a line: the span of the error opens with the name of
    the function. -/
theorem errors_point_at_text_call :
    let source := "bello! tulalilloo ti amo (1 melomo muak(2, 3)) naidu!"
    ∃ p e m' s, Program.ofSource source = .ok p ∧
      run 9 p (Machine.new (Script.ofInputs []) 128 false) = .error (.failed e) m' ∧
      e.cause = .arityMismatch "muak" (.exactly 1) 2 ∧ e.span = some s ∧
      "muak".toList <+: s.slice (Text.normalize source.toList) := by
  intro source
  have hcheck : (match Program.ofSource source with
      | .error _ => false
      | .ok p =>
        match run 9 p (Machine.new (Script.ofInputs []) 128 false) with
        | .error (.failed e) _ => decide (e.cause = .arityMismatch "muak" (.exactly 1) 2)
        | _ => false) = true := by
    decide +kernel
  split at hcheck
  · cases hcheck
  next p hp =>
  split at hcheck
  · next e m' hrun =>
    have hcause := of_decide_eq_true hcheck
    rcases (errors_point_at_text source).2 p 9 _ m' e hp hrun with rfl | ⟨s, hs, -, -, hfits⟩
    · cases hcause
    · rw [hcause] at hfits
      exact ⟨p, e, m', s, hp, hrun, hcause, hs, hfits.word⟩
  · cases hcheck

end Exec

end Bello
