import Bello.Proofs.Machine.Steps
import Bello.Proofs.Scope.Effects

/- Effects are confined, and constants are constant.

   An expression can change the values of global variables, through the calls in it, and
   nothing else. A statement can change what it sees and declare in the innermost scope.
   Neither can touch the locals of a caller or the value of a constant. `Confined` states
   this for each role of a piece, and `Careful.confined` proves it step by step.

   Three kinds of step write to the chain. Assignments and inputs look first whether their
   target is mutable. A counting loop does not: it writes through the name of its variable,
   so its rounds carry along that the innermost scope owns a variable of that name, which
   the body can neither remove nor make a constant (`executeCount_confined`). -/
namespace Bello.Exec

open ScopeChain

variable {C : Type} {α : Type}

/-- What a piece may do to the chain. -/
def Confined : Role → Machine C → Machine C → Prop
  | .value, m, m' => m.chain.Sees → m.chain.OnlyGlobals m'.chain
  | .action, m, m' => m.chain.Sees → m.chain.OnlyVisible m'.chain

namespace Confined

theorem refl (role : Role) (m : Machine C) : Confined role m m := by
  cases role with
  | value => exact fun _ => .refl _
  | action => exact fun _ => .refl _

theorem trans {role : Role} ⦃m₁ m₂ m₃ : Machine C⦄ (h : Confined role m₁ m₂)
    (h' : Confined role m₂ m₃) : Confined role m₁ m₃ := by
  cases role with
  | value =>
    intro hsee
    have h₁ := h hsee
    exact h₁.trans (h' ((sees_congr h₁.size h₁.bases).2 hsee))
  | action =>
    intro hsee
    have h₁ := h hsee
    exact h₁.trans (h' ((sees_congr h₁.size h₁.bases).2 hsee))

theorem ofChain (role : Role) {m m' : Machine C} (h : m'.chain = m.chain) :
    Confined role m m' := by
  cases role with
  | value => exact fun _ => h ▸ .refl _
  | action => exact fun _ => h ▸ .refl _

end Confined

/-! ## Steps that write -/

theorem define_confined (name : Ident) (v : Decimal) :
    Keeps (Confined .action) (define name ⟨v, true⟩ : Exec C Unit) := by
  intro m hsee
  cases h : m.chain.define name.name ⟨v, true⟩ with
  | none => rw [final_error (define_error h)]; exact .refl _
  | some chain => rw [final_ok (define_ok h)]; exact .define hsee h

/-- Assigning is confined where what is seen under the name is a variable. -/
theorem set_confined {name : String} {m : Machine C}
    (hm : ∀ b, m.chain.lookup name = some b → b.mutable = true) (v : Decimal) :
    m.chain.OnlyVisible (final (set name v) m).chain := by
  rw [final_ok (set_ok name v m)]
  cases h : m.chain.set? name v with
  | none => exact .refl _
  | some chain => exact .set h hm

theorem inScope_confined {x : Exec C α} (hx : Keeps (Confined .action) x) :
    Keeps (Confined .action) (inScope x) := by
  intro m hsee
  have hpush : m.pushScope.chain = m.chain.pushScope := by
    simp only [Machine.pushScope, Machine.note_eq]
  have h := hx m.pushScope
  rw [Confined, hpush] at h
  rw [inScope, final_between, Machine.popScope, Machine.note_eq]
  exact .inScope hsee (h hsee.pushScope)

theorem calling_confined {name : Ident} {args : Nat} {span : Span}
    {body : Function → Exec C Decimal} (hbody : ∀ f, Keeps (Confined .action) (body f)) :
    Keeps (Confined .value) (calling name args span body) := by
  intro m hsee
  rcases callee_cases name args span m m rfl rfl rfl with ⟨f, e, -, -⟩ | ⟨s, e, -⟩
  · have henter : (m.note (.called name.name args)).enterCall.chain = m.chain.pushFrame := by
      simp only [Machine.enterCall, Machine.note_eq]
    have h := hbody f (m.note (.called name.name args)).enterCall
    rw [Confined, henter] at h
    rw [final_congr (calling_ok e), inFrame, final_between, Machine.leaveCall, Machine.note_eq]
    exact (h (sees_pushFrame _)).inFrame
  · rw [final_error (calling_error e)]
    exact .refl _

theorem assign_confined (target : Ident) (v : Decimal) :
    Keeps (Confined .action) (do
      if ← isWritable target then
        set target.name v
        pure Flow.normal
      else fail (.unknownVariable target.name) target.span : Exec C Flow) := by
  intro m _
  rcases isWritable_cases target m with ⟨b, hb, hmut, e⟩ | ⟨-, e⟩ | ⟨s, e⟩
  · rw [final_congr (bind_ok e), if_pos rfl, final_bind_pure]
    -- The binding that was looked at is the one that an assignment changes.
    refine set_confined (fun b' hb' => ?_) v
    cases hb.symm.trans hb'
    exact hmut
  · rw [final_congr (bind_ok e), if_neg Bool.false_ne_true]
    exact .refl _
  · rw [final_error (bind_error e)]
    exact .refl _

/-! ## Steps that register -/

/-- What a program may do to the chain: it also declares constants. -/
def Lasts (m m' : Machine C) : Prop := m.chain.Sees → m.chain.Lasting m'.chain

theorem Lasts.refl (m : Machine C) : Lasts m m := fun _ => .refl _

theorem Lasts.trans ⦃m₁ m₂ m₃ : Machine C⦄ (h : Lasts m₁ m₂) (h' : Lasts m₂ m₃) :
    Lasts m₁ m₃ := by
  intro hsee
  have h₁ := h hsee
  exact h₁.trans (h' ((sees_congr h₁.size h₁.bases).2 hsee))

theorem define_lasts (name : Ident) (b : Binding) :
    Keeps Lasts (define name b : Exec C Unit) := by
  intro m _
  cases h : m.chain.define name.name b with
  | none => rw [final_error (define_error h)]; exact .refl _
  | some chain => rw [final_ok (define_ok h)]; exact .define h

theorem addFunction_lasts (f : Function) : Keeps Lasts (addFunction f : Exec C Unit) := by
  intro m _
  rcases addFunction_cases f m m rfl with ⟨s, e, -⟩ | ⟨e, -⟩ | ⟨e, -⟩
  · rw [final_error e]; exact .refl _
  · rw [final_ok e]; exact .refl _
  · rw [final_ok e, Machine.note_eq]; exact .refl _

theorem register_lasts : ∀ (constants : Nat) (items : List Item),
    Keeps Lasts (register constants items : Exec C Unit)
  | constants, [] => by
    intro m _
    show m.chain.Lasting (m.note (.registered constants m.functions.size)).chain
    rw [Machine.note_eq]
    exact .refl _
  | constants, .constant decl :: items => by
    simp only [register]
    exact .bind' .trans (define_lasts _ _) (fun _ => register_lasts (constants + 1) items)
  | constants, .function f :: items => by
    simp only [register]
    exact .bind' .trans (addFunction_lasts f) (fun _ => register_lasts constants items)
  | constants, .statement _ :: items => by
    simp only [register]
    exact register_lasts constants items

/-! ## Statements -/

variable [Channel C]

theorem input_confined (target : Ident) :
    Keeps (Confined .action) (do
      let declared ← isWritable target
      let v ← read
      if declared then set target.name v else define target ⟨v, true⟩
      pure Flow.normal : Exec C Flow) := by
  intro m hsee
  rcases isWritable_cases target m with ⟨b, hb, hmut, e⟩ | ⟨-, e⟩ | ⟨s, e⟩
  · rw [final_congr (bind_ok e)]
    rcases read_cases m with ⟨v, channel, er⟩ | ⟨s, channel, er⟩
    · rw [final_congr (bind_ok er), if_pos rfl, final_bind_pure]
      refine set_confined (m := { m with channel }) (fun b' hb' => ?_) v
      cases hb.symm.trans hb'
      exact hmut
    · rw [final_error (bind_error er)]
      exact .refl _
  · rw [final_congr (bind_ok e)]
    rcases read_cases m with ⟨v, channel, er⟩ | ⟨s, channel, er⟩
    · rw [final_congr (bind_ok er), if_neg Bool.false_ne_true, final_bind_pure]
      exact define_confined target v { m with channel } hsee
    · rw [final_error (bind_error er)]
      exact .refl _
  · rw [final_error (bind_error e)]
    exact .refl _

/-- The rounds of a counting loop, as long as the innermost scope owns its variable. -/
theorem executeCount_confined {inFunction : Bool} {name : String} {last : Decimal}
    {body : Block} {span : Span} : ∀ (n : Nat) (counter : Decimal) (m : Machine C),
    (∀ k < n, Keeps (Confined .action) (executeAll k inFunction body.statements : Exec C Flow)) →
    m.chain.Sees → m.chain.Owns name →
    m.chain.OnlyVisible
      (final (executeCount n inFunction name counter last body span) m).chain
  | 0, _, m, _, _, _ => by simp only [executeCount]; exact .refl _
  | n + 1, counter, m, hbody, hsee, howns => by
    simp only [executeCount]
    split
    · have hset := set_confined (howns.mutable hsee) counter
      rw [final_ok (set_ok name counter m)] at hset
      rw [final_congr (bind_ok (set_ok name counter m))]
      have hsee₁ := (sees_congr hset.size hset.bases).2 hsee
      refine hset.trans ?_
      -- From here on `m₁` is the machine before the body of this round.
      generalize { m with chain := (m.chain.set? name counter).getD m.chain } = m₁ at *
      have hround := inScope_confined (hbody n (Nat.lt_succ_self n)) m₁ hsee₁
      rcases final_bind (inScope (executeAll n inFunction body.statements)) _ m₁ with
        ⟨flow, m₂, e, hb⟩ | ⟨s, m₂, e, hb⟩
      · rw [hb]
        rw [final_ok e] at hround
        have hsee₂ := (sees_congr hround.size hround.bases).2 hsee₁
        refine hround.trans ?_
        cases flow with
        | returned v => exact .refl _
        | normal =>
          cases counter.add .one with
          | some next =>
            -- Neither the assignment nor the body can take the variable away.
            exact executeCount_confined n next m₂ (fun k hk => hbody k (by omega)) hsee₂
              ((howns.kept hset).kept hround)
          | none => exact .refl _
      · rw [hb]
        rw [final_error e] at hround
        exact hround
    · exact .refl _

theorem count_confined {n : Nat} {inFunction : Bool} {counter : Ident} {first last : Decimal}
    {body : Block} {span : Span}
    (hbody : ∀ k < n,
      Keeps (Confined .action) (executeAll k inFunction body.statements : Exec C Flow)) :
    Keeps (Confined .action) (inScope do
      define counter ⟨first, true⟩
      executeCount n inFunction counter.name first last body span : Exec C Flow) := by
  refine inScope_confined (fun m hsee => ?_)
  have hdef := define_confined counter first m hsee
  cases h : m.chain.define counter.name ⟨first, true⟩ with
  | none =>
    rw [final_error (bind_error (define_error h))]
    exact .refl _
  | some chain =>
    rw [final_ok (define_ok h)] at hdef
    rw [final_congr (bind_ok (define_ok h))]
    exact hdef.trans (executeCount_confined n first _ hbody
      ((sees_congr hdef.size hdef.bases).2 hsee) (.define h))

theorem Careful.confined {role : Role} {x : Exec C α} (h : Careful role x) :
    Keeps (Confined role) x := by
  induction h with
  | pure a => exact .pure' (.refl _) a
  | stop s => exact .stop (.refl _) s
  | lookup name => exact fun m => .refl _ m
  | bind _ _ hx hf => exact .bind' .trans hx hf
  | call name args span _ hbody => exact calling_confined hbody
  | act _ hx => exact fun m hsee => (hx m hsee).onlyVisible
  | declare name v => exact define_confined name v
  | assign target v => exact assign_confined target v
  | input target => exact input_confined target
  | write v =>
    intro m
    rcases write_cases v m with ⟨channel, e⟩ | ⟨s, channel, e⟩
    · rw [final_ok e]; exact .ofChain _ rfl
    · rw [final_error e]; exact .ofChain _ rfl
  | counting name first last =>
    exact fun m => .ofChain _ (by simp only [final, note, Machine.note_eq])
  | inScope _ hx => exact inScope_confined hx
  | count n inFunction counter first last body span _ hbody => exact count_confined hbody

/-! ## Programs -/

theorem executeItems_lasts (n : Nat) : ∀ items : List Item,
    Keeps Lasts (executeItems n items : Exec C Unit)
  | [] => by simp only [executeItems]; exact .pure' .refl ()
  | .statement s :: items => by
    simp only [executeItems]
    refine .bind' .trans (fun m hsee => ?_) (fun _ => executeItems_lasts n items)
    exact ((execute_careful n false s).confined m hsee).lasting
  | .constant _ :: items => by simp only [executeItems]; exact executeItems_lasts n items
  | .function _ :: items => by simp only [executeItems]; exact executeItems_lasts n items

theorem runIn_lasts (n : Nat) (p : Program) : Keeps Lasts (runIn n p : Exec C Unit) := by
  unfold runIn
  refine .bind' .trans (fun m => .refl m) (fun _ => ?_)
  exact .bind' .trans (register_lasts 0 p.items) (fun _ => executeItems_lasts n p.items)

/-! ## Histories -/

/-- One chain through any number of programs, statements and expressions, on whatever
    machines they run. -/
inductive Follows (C : Type) [Channel C] (c : ScopeChain) : ScopeChain → Prop where
  | start : Follows C c c
  | evaluate (m : Machine C) (n : Nat) (e : Expr) :
      Follows C c m.chain → Follows C c (final (evaluate n e) m).chain
  | execute (m : Machine C) (n : Nat) (inFunction : Bool) (s : Stmt) :
      Follows C c m.chain → Follows C c (final (execute n inFunction s) m).chain
  | runIn (m : Machine C) (n : Nat) (p : Program) :
      Follows C c m.chain → Follows C c (final (runIn n p) m).chain

theorem Follows.lasting {c c' : ScopeChain} (h : Follows C c c') (hsee : c.Sees) :
    c.Lasting c' := by
  induction h with
  | start => exact .refl c
  | evaluate m n e _ ih =>
    have h := (evaluate_careful n e).confined m ((sees_congr ih.size ih.bases).2 hsee)
    exact ih.trans h.onlyVisible.lasting
  | execute m n inFunction s _ ih =>
    have h := (execute_careful n inFunction s).confined m
      ((sees_congr ih.size ih.bases).2 hsee)
    exact ih.trans h.lasting
  | runIn m n p _ ih => exact ih.trans (runIn_lasts n p m ((sees_congr ih.size ih.bases).2 hsee))

/-- Every constant in any scope is still there with its value. -/
def KeepsConstants (c c' : ScopeChain) : Prop :=
  ∀ (i : Nat) (s : Scope) (name : String) (b : Binding), c.scopes[i]? = some s →
    s[name]? = some b → b.mutable = false → ∃ s', c'.scopes[i]? = some s' ∧ s'[name]? = some b

theorem keepsConstants_of_lasting {c c' : ScopeChain} (h : c.Lasting c') :
    KeepsConstants c c' := by
  intro i s name b hs hb hconst
  obtain ⟨s', hs', hkept⟩ := h.kept i s hs
  obtain ⟨b', hb', -, heq⟩ := hkept name b hb
  rw [heq hconst] at hb'
  exact ⟨s', hs', hb'⟩

/-- However they end: an expression changes the values of global variables at most; a
    statement adds variables to the innermost scope and changes the values of variables
    that it sees; neither changes a constant, and no history of programs, statements and
    expressions ever does. -/
theorem effects_confined (n : Nat) (m : Machine C) (hm : m.chain.WellFramed) :
    (∀ e, m.chain.OnlyGlobals (final (evaluate n e) m).chain ∧
      KeepsConstants m.chain (final (evaluate n e) m).chain) ∧
    (∀ inFunction s, m.chain.OnlyVisible (final (execute n inFunction s) m).chain ∧
      KeepsConstants m.chain (final (execute n inFunction s) m).chain) ∧
    (∀ c, Follows C m.chain c → c.WellFramed ∧ KeepsConstants m.chain c) := by
  refine ⟨fun e => ?_, fun inFunction s => ?_, fun c hc => ?_⟩
  · have h := (evaluate_careful n e).confined m hm.sees
    exact ⟨h, keepsConstants_of_lasting h.onlyVisible.lasting⟩
  · have h := (execute_careful n inFunction s).confined m hm.sees
    exact ⟨h, keepsConstants_of_lasting h.lasting⟩
  · have h := hc.lasting hm.sees
    exact ⟨wellFramed_congr h.size h.bases hm, keepsConstants_of_lasting h⟩

/-- A frame over a caller that has a local variable, and over a global constant. -/
def framed : ScopeChain :=
  let caller : Scope := (∅ : Scope).insert "x" ⟨.one, true⟩
  let globals : Scope := (∅ : Scope).insert "c" ⟨.one, false⟩
  ScopeChain.pushFrame ⟨[caller], globals, [], 1, rfl⟩

/-- A block in the frame reads the variable's name, which is a new one there, and assigns to
    the constant. The caller's scope and the constant stay. -/
theorem effects_confined_in_frame :
    let m : Machine Script := { Machine.new ⟨[.zero], []⟩ 128 false with chain := framed }
    let x : Ident := ⟨"x", .point 0⟩
    let c : Ident := ⟨"c", .point 0⟩
    let st : Stmt :=
      .block ⟨[.input x (.point 0), .assign c (.number .zero (.point 0)) (.point 0)], .point 0⟩
    let after := (final (execute 9 true st) m).chain
    m.chain.WellFramed ∧ m.chain.Hides 1 ∧ after.scopes[1]? = m.chain.scopes[1]? ∧
      ∃ globals, after.scopes[2]? = some globals ∧ globals["c"]? = some ⟨.one, false⟩ := by
  intro m x c st after
  have hm : m.chain.WellFramed := ⟨by decide, by decide, by decide⟩
  have hhides : m.chain.Hides 1 := ⟨by decide, by decide⟩
  have hbound : ((∅ : Scope).insert "c" ⟨.one, false⟩)["c"]? = some ⟨.one, false⟩ := by
    rw [Scope.getElem?_insert, if_pos rfl]
  obtain ⟨hvisible, hconstants⟩ := (effects_confined 9 m hm).2.1 true st
  exact ⟨hm, hhides, hvisible.hidden 1 hhides, hconstants 2 _ "c" ⟨.one, false⟩ rfl hbound rfl⟩

end Bello.Exec
