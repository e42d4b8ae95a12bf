import Bello.Proofs.Machine.Balance
import Bello.Proofs.Machine.Session
import Bello.Proofs.Scope.Operations

/- The order of declarations does not matter.

   Before the first statement runs, all constants and functions of a program are entered
   into two tables. `Tables items globals functions` says that the tables hold what the
   items declare and nothing else; it speaks of membership alone, so it does not know the
   order of the items. Entering one more declaration keeps it, as long as its name is new
   (`Tables.constant`, `Tables.function`), and so does entering all of them (`register_ok`).
   Two programs with the same declarations and the same sequence of statements hence run
   their statements from machines that differ in their logs at most, and no step looks at
   the log (`declaration_order_irrelevant`). -/
namespace Bello

namespace Item

def constant? : Item → Option ConstantDecl
  | .constant decl => some decl
  | _ => none

def function? : Item → Option Function
  | .function f => some f
  | _ => none

def statement? : Item → Option Stmt
  | .statement s => some s
  | _ => none

end Item

/-- The names of the constants among the items. -/
def constantNames (items : List Item) : List String :=
  (items.filterMap Item.constant?).map (·.name.name)

/-- The names of the functions among the items. -/
def functionNames (items : List Item) : List String :=
  (items.filterMap Item.function?).map (·.name.name)

/-- What is bound to the name of a constant. -/
def ConstantDecl.binding (decl : ConstantDecl) : Binding := ⟨decl.value.value, false⟩

/-! ## Tables -/

/-- The tables hold what the items declare, and nothing else. -/
structure Tables (items : List Item) (globals : Scope)
    (functions : Std.ExtTreeMap String Function) : Prop where
  constants : ∀ (name : String) (b : Binding), globals[name]? = some b ↔
    ∃ decl, .constant decl ∈ items ∧ decl.name.name = name ∧ decl.binding = b
  functions : ∀ (name : String) (f : Function), functions[name]? = some f ↔
    .function f ∈ items ∧ f.name.name = name

namespace Tables

variable {items items' : List Item} {globals globals' : Scope}
  {functions functions' : Std.ExtTreeMap String Function}

theorem nil : Tables [] ∅ ∅ where
  constants name b := by simp
  functions name f := by simp

/-- The order of the items is not part of it. -/
theorem unique (h : Tables items globals functions) (h' : Tables items' globals' functions')
    (hmem : ∀ i, i ∈ items ↔ i ∈ items') : globals = globals' ∧ functions = functions' := by
  constructor
  · apply Std.ExtTreeMap.ext_getElem?
    intro name
    apply Option.ext
    intro b
    rw [h.constants, h'.constants]
    simp only [hmem]
  · apply Std.ExtTreeMap.ext_getElem?
    intro name
    apply Option.ext
    intro f
    rw [h.functions, h'.functions, hmem]

/-- A name that no constant has is free. -/
theorem constant_free (h : Tables items globals functions) {name : String}
    (hn : name ∉ constantNames items) : globals.contains name = false := by
  rw [Std.ExtTreeMap.contains_eq_isSome_getElem?]
  cases hb : globals[name]? with
  | none => rfl
  | some b =>
    obtain ⟨decl, hd, hname, -⟩ := (h.constants name b).1 hb
    refine absurd ?_ hn
    rw [constantNames, List.mem_map]
    exact ⟨decl, List.mem_filterMap.2 ⟨_, hd, rfl⟩, hname⟩

theorem function_free (h : Tables items globals functions) {name : String}
    (hn : name ∉ functionNames items) : functions.contains name = false := by
  rw [Std.ExtTreeMap.contains_eq_isSome_getElem?]
  cases hf : functions[name]? with
  | none => rfl
  | some f =>
    obtain ⟨hmem, hname⟩ := (h.functions name f).1 hf
    refine absurd ?_ hn
    rw [functionNames, List.mem_map]
    exact ⟨f, List.mem_filterMap.2 ⟨_, hmem, rfl⟩, hname⟩

/-- One more constant under a new name. -/
theorem constant (h : Tables items globals functions) {decl : ConstantDecl}
    (hn : decl.name.name ∉ constantNames items) :
    Tables (items ++ [.constant decl]) (globals.insert decl.name.name decl.binding) functions where
  constants name b := by
    have hfree : globals[decl.name.name]? = none := by
      apply Scope.getElem?_of_not_contains
      simp [h.constant_free hn]
    rw [Scope.getElem?_insert]
    simp only [List.mem_append, List.mem_singleton, Item.constant.injEq]
    constructor
    · intro hb
      split at hb
      · next hname => exact ⟨decl, .inr rfl, hname, Option.some.inj hb⟩
      · obtain ⟨d, hd, hrest⟩ := (h.constants name b).1 hb
        exact ⟨d, .inl hd, hrest⟩
    · rintro ⟨d, hd | rfl, hname, hb⟩
      · have hfound := (h.constants name b).2 ⟨d, hd, hname, hb⟩
        have hne : decl.name.name ≠ name := by
          rintro rfl
          rw [hfree] at hfound
          cases hfound
        rw [if_neg hne]
        exact hfound
      · rw [if_pos hname, hb]
  functions name f := by
    rw [h.functions]
    simp

/-- One more function under a new name. -/
theorem function (h : Tables items globals functions) {f : Function}
    (hn : f.name.name ∉ functionNames items) :
    Tables (items ++ [.function f]) globals (functions.insert f.name.name f) where
  constants name b := by
    rw [h.constants]
    simp
  functions name g := by
    have hfree := h.function_free hn
    rw [Std.ExtTreeMap.getElem?_insert]
    simp only [Std.LawfulEqCmp.compare_eq_iff_eq, List.mem_append, List.mem_singleton,
      Item.function.injEq]
    constructor
    · intro hg
      split at hg
      · next hname =>
        cases hg
        exact ⟨.inr rfl, hname⟩
      · obtain ⟨hmem, hname⟩ := (h.functions name g).1 hg
        exact ⟨.inl hmem, hname⟩
    · rintro ⟨hmem | rfl, hname⟩
      · have hfound := (h.functions name g).2 ⟨hmem, hname⟩
        have hne : f.name.name ≠ name := by
          rintro rfl
          rw [Std.ExtTreeMap.contains_eq_isSome_getElem?, hfound] at hfree
          cases hfree
        rw [if_neg hne]
        exact hfound
      · rw [if_pos hname]

/-- Statements are not entered. -/
theorem statement (h : Tables items globals functions) (s : Stmt) :
    Tables (items ++ [.statement s]) globals functions where
  constants name b := by
    rw [h.constants]
    simp
  functions name f := by
    rw [h.functions]
    simp

end Tables

theorem ScopeChain.define_global {c : ScopeChain} {name : String} (hl : c.locals = [])
    (hn : c.globals.contains name = false) (b : Binding) :
    c.define name b = some { c with globals := c.globals.insert name b } := by
  unfold define
  split
  · rw [if_neg (by simp [hn])]
  · next h => rw [hl] at h; cases h

namespace Machine

variable {C : Type}

/-- The machine with other tables and another log. -/
def holding (m : Machine C) (globals : Scope) (functions : Std.ExtTreeMap String Function)
    (log : List Event) : Machine C :=
  { m with chain := { m.chain with globals }, functions, log }

end Machine

namespace Exec

variable {C : Type}

theorem define_holding {name : Ident} {b : Binding} {m : Machine C} (hl : m.chain.locals = [])
    (hn : m.chain.globals.contains name.name = false) :
    define name b m =
      .ok () (m.holding (m.chain.globals.insert name.name b) m.functions m.log) :=
  define_ok (ScopeChain.define_global hl hn b)

theorem addFunction_holding {f : Function} {m : Machine C}
    (hn : m.functions.contains f.name.name = false) :
    ∃ log, addFunction f m =
      .ok () (m.holding m.chain.globals (m.functions.insert f.name.name f) log) := by
  have hget : (get : Exec C (Machine C)) m = .ok m m := rfl
  unfold addFunction
  rw [bind_ok hget]
  rw [if_neg (by simp [hn])]
  split
  · refine ⟨(m.note (.builtinHidden f.name.name)).log, ?_⟩
    show EStateM.Result.ok () ((m.note _).knowing f) = _
    rw [Machine.note_eq]
    rfl
  · exact ⟨m.log, rfl⟩

theorem constantNames_concat (before : List Item) (decl : ConstantDecl) (items : List Item) :
    constantNames (before ++ .constant decl :: items) =
      constantNames before ++ decl.name.name :: constantNames items := by
  simp [constantNames, Item.constant?]

theorem functionNames_concat (before : List Item) (f : Function) (items : List Item) :
    functionNames (before ++ .function f :: items) =
      functionNames before ++ f.name.name :: functionNames items := by
  simp [functionNames, Item.function?]

theorem not_mem_of_nodup_append {name : String} {names names' : List String}
    (h : (names ++ name :: names').Nodup) : name ∉ names := by
  intro hmem
  exact (List.nodup_append.1 h).2.2 name hmem name List.mem_cons_self rfl

/-- Items with new names are all entered, one after the other, whatever has been entered
    before them. -/
theorem register_ok (items : List Item) : ∀ (before : List Item) (constants : Nat) (m : Machine C),
    m.chain.locals = [] → Tables before m.chain.globals m.functions →
    (constantNames (before ++ items)).Nodup → (functionNames (before ++ items)).Nodup →
    ∃ globals functions log, register constants items m =
        .ok () (m.holding globals functions log) ∧
      Tables (before ++ items) globals functions := by
  induction items with
  | nil =>
    intro before constants m _ ht _ _
    refine ⟨m.chain.globals, m.functions,
      (m.note (.registered constants m.functions.size)).log, ?_, by rwa [List.append_nil]⟩
    show EStateM.Result.ok () (m.note (.registered constants m.functions.size)) = _
    rw [Machine.note_eq]
    rfl
  | cons i items ih =>
    intro before constants m hl ht hc hf
    -- The item joins those entered before it, and the rest is entered after it.
    have hsplit : before ++ i :: items = (before ++ [i]) ++ items := by simp
    cases i with
    | constant decl =>
      have hn : decl.name.name ∉ constantNames before := by
        rw [constantNames_concat] at hc
        exact not_mem_of_nodup_append hc
      rw [hsplit] at hc hf ⊢
      rw [register, bind_ok (define_holding hl (ht.constant_free hn))]
      exact ih _ _ (m.holding _ _ _) hl (ht.constant hn) hc hf
    | function f =>
      have hn : f.name.name ∉ functionNames before := by
        rw [functionNames_concat] at hf
        exact not_mem_of_nodup_append hf
      rw [hsplit] at hc hf ⊢
      obtain ⟨log, hadd⟩ := addFunction_holding (ht.function_free hn)
      rw [register, bind_ok hadd]
      exact ih _ _ (m.holding _ _ log) hl (ht.function hn) hc hf
    | statement s =>
      rw [hsplit] at hc hf ⊢
      rw [register]
      exact ih _ _ m hl (ht.statement s) hc hf

theorem outcome_eq_of_hush {α : Type} {x y : Exec C α} {m m' : Machine C}
    (h : hush (x m) = hush (y m')) :
    outcome x m = outcome y m' ∧ (final x m).quiet = (final y m').quiet := by
  unfold outcome final
  cases hx : x m <;> cases hy : y m' <;> simp_all [hush]

/-! ## Statements -/

variable [Channel C]

/-- Declarations among the items are passed over. -/
theorem executeItems_statements (n : Nat) (items : List Item) :
    (executeItems n items : Exec C Unit) =
      executeItems n ((items.filterMap Item.statement?).map .statement) := by
  induction items with
  | nil => rfl
  | cons i items ih =>
    cases i with
    | constant decl => exact ih
    | function f => exact ih
    | statement s =>
      simp only [List.filterMap_cons, Item.statement?, List.map_cons, executeItems]
      rw [ih]

/-- What runs on machines that differ in their logs ends alike, on machines that differ in
    their logs. -/
theorem Made.hush_congr {α : Type} {x : Exec C α} (h : Made x) {m m' : Machine C}
    (hm : m.quiet = m'.quiet) : hush (x m) = hush (x m') := by
  rw [← (h.hushed m m.quiet rfl).hush_eq, ← (h.hushed m' m'.quiet rfl).hush_eq, hm]

/-- **The order of declarations is irrelevant.** Let no two constants and no two functions of
    a program have the same name, and let its items be moved in any way that keeps the order
    of the statements. Then on every machine both programs enter the same constants and the
    same functions, namely those that are declared, and end alike: in the same result, with
    the same error at the same place, and with the same channel, from which the same inputs
    have been read and to which the same outputs have been written. -/
theorem declaration_order_irrelevant {p q : Program} (hperm : q.items.Perm p.items)
    (hstatements : q.items.filterMap Item.statement? = p.items.filterMap Item.statement?)
    (hconstants : (constantNames p.items).Nodup) (hfunctions : (functionNames p.items).Nodup)
    (n : Nat) (m : Machine C) :
    (∃ m₁ m₂ : Machine C,
      register 0 p.items { m with chain := .new, functions := ∅ } = .ok () m₁ ∧
      register 0 q.items { m with chain := .new, functions := ∅ } = .ok () m₂ ∧
      m₂.chain = m₁.chain ∧ m₂.functions = m₁.functions ∧
      Tables p.items m₁.chain.globals m₁.functions) ∧
    outcome (run n q) m = outcome (run n p) m ∧
    (final (run n q) m).channel = (final (run n p) m).channel := by
  have hconstants' : (constantNames q.items).Nodup :=
    (((hperm.filterMap Item.constant?).map _).nodup_iff).2 hconstants
  have hfunctions' : (functionNames q.items).Nodup :=
    (((hperm.filterMap Item.function?).map _).nodup_iff).2 hfunctions
  have hnil : Tables [] (ScopeChain.new.globals) (∅ : Std.ExtTreeMap String Function) := .nil
  obtain ⟨g, fs, log, hp, ht⟩ := register_ok p.items [] 0
    { m with chain := .new, functions := ∅ } rfl hnil hconstants hfunctions
  obtain ⟨g', fs', log', hq, ht'⟩ := register_ok q.items [] 0
    { m with chain := .new, functions := ∅ } rfl hnil hconstants' hfunctions'
  obtain ⟨rfl, rfl⟩ := ht.unique ht' (fun i => hperm.symm.mem_iff)
  refine ⟨⟨_, _, hp, hq, rfl, rfl, ht⟩, ?_⟩
  have hrun : hush (runIn n q { m with chain := .new }) =
      hush (runIn n p { m with chain := .new }) := by
    have hforget : (modify fun m => { m with functions := ∅ } : Exec C Unit)
        { m with chain := .new } = .ok () { m with chain := .new, functions := ∅ } := rfl
    unfold runIn
    rw [bind_ok hforget, bind_ok hforget, bind_ok hp, bind_ok hq, executeItems_statements n q.items,
      executeItems_statements n p.items, hstatements]
    exact (executeItems_made n _).hush_congr rfl
  obtain ⟨ho, hf⟩ := outcome_eq_of_hush hrun
  rw [outcome_run, outcome_run, final_run, final_run]
  have hchannel := congrArg Machine.channel hf
  exact ⟨ho, hchannel⟩

/-- A statement that applies a function to a constant, the function, which returns its
    argument, and the constant. -/
def usedFirst : Program :=
  let at0 : Span := .point 0
  let body : Block := ⟨[.giveBack (.var ⟨"x", at0⟩) at0], at0⟩
  ⟨[.statement (.output (.call ⟨"f", at0⟩ [.var ⟨"c", at0⟩] at0) at0),
    .function ⟨⟨"f", at0⟩, [⟨"x", at0⟩], body, at0⟩,
    .constant ⟨⟨"c", at0⟩, .number .one, at0⟩]⟩

/-- The same items, with the declarations before the statement. -/
def declaredFirst : Program := ⟨usedFirst.items.reverse⟩

/-- Either way the constant is written. -/
theorem declaration_order_irrelevant_used_first :
    let m : Machine Script := .new (.ofInputs []) 128 false
    usedFirst.items.Perm declaredFirst.items ∧ (constantNames declaredFirst.items).Nodup ∧
    (functionNames declaredFirst.items).Nodup ∧
    outcome (run 20 usedFirst) m = outcome (run 20 declaredFirst) m ∧
    (final (run 20 usedFirst) m).channel.outputs = [.one] := by
  intro m
  have hperm : usedFirst.items.Perm declaredFirst.items := (List.reverse_perm _).symm
  have hconstants : (constantNames declaredFirst.items).Nodup := by decide
  have hfunctions : (functionNames declaredFirst.items).Nodup := by decide
  obtain ⟨-, ho, hc⟩ := declaration_order_irrelevant hperm rfl hconstants hfunctions 20 m
  refine ⟨hperm, hconstants, hfunctions, ho, ?_⟩
  rw [hc]
  rfl

end Exec

end Bello
