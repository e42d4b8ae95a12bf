import Bello.Proofs.Layout.Parse
import Bello.Proofs.Machine.Steps

/- Layout and comments do not matter.

   Reading keeps to the significant tokens, so two sources with the same ones have trees
   that are the same but for places (`programWithin_inStep`). It remains to run them. A tree
   and its bare tree run in step: where the one meets a span, the other meets a blank one,
   and spans go into errors and nowhere else. The only trees that a machine keeps are those
   of its functions, so the machines of both runs differ in these alone; that is `Bared`,
   which every step carries on. -/
namespace Bello

def Stop.bare : Stop → Stop
  | .failed e => .failed (Spanned.bare e)
  | .unfinished => .unfinished

instance : Spanned Stop := ⟨Stop.bare⟩

theorem Block.bare_statements (b : Block) :
    (Spanned.bare b).statements = Spanned.bare b.statements := by
  cases b
  exact Stmt.bareAll_eq _

/-- The same functions under the same names, with all spans blank. -/
structure BareTable (fs gs : Std.ExtTreeMap String Function) : Prop where
  find : ∀ name : String, gs[name]? = bare fs[name]?
  size : gs.size = fs.size

namespace BareTable

variable {fs gs : Std.ExtTreeMap String Function}

theorem contains (h : BareTable fs gs) (name : String) : gs.contains name = fs.contains name := by
  rw [Std.ExtTreeMap.contains_eq_isSome_getElem?, Std.ExtTreeMap.contains_eq_isSome_getElem?,
    h.find]
  exact Option.isSome_map

theorem insert (h : BareTable fs gs) (name : String) (f : Function) :
    BareTable (fs.insert name f) (gs.insert name (bare f)) := by
  constructor
  · intro other
    rw [Std.ExtTreeMap.getElem?_insert, Std.ExtTreeMap.getElem?_insert, h.find]
    split
    · rfl
    · rfl
  · rw [Std.ExtTreeMap.size_insert, Std.ExtTreeMap.size_insert, h.size, h.contains]

end BareTable

namespace Machine

variable {C : Type}

/-- The same machine, but the functions of the second one have blank spans. -/
def Bared (m m' : Machine C) : Prop :=
  ∃ fs, BareTable m.functions fs ∧ m' = { m with functions := fs }

theorem note_functions (m : Machine C) (fs : Std.ExtTreeMap String Function) (e : Event) :
    { m with functions := fs }.note e = { m.note e with functions := fs } := by
  rw [note_eq, note_eq]
  rfl

namespace Bared

variable {m m' : Machine C}

theorem note (h : Bared m m') (e : Event) : Bared (m.note e) (m'.note e) := by
  obtain ⟨fs, hfs, rfl⟩ := h
  refine ⟨fs, ?_, note_functions m fs e⟩
  rw [note_eq]
  exact hfs

theorem pushScope (h : Bared m m') : Bared m.pushScope m'.pushScope := by
  obtain ⟨fs, hfs, rfl⟩ := h
  exact note (m := { m with chain := m.chain.pushScope })
    ⟨fs, hfs, rfl⟩ _

theorem popScope (h : Bared m m') : Bared m.popScope m'.popScope := by
  obtain ⟨fs, hfs, rfl⟩ := h
  exact note (m := { m with chain := m.chain.popScope })
    ⟨fs, hfs, rfl⟩ _

theorem enterCall (h : Bared m m') : Bared m.enterCall m'.enterCall := by
  obtain ⟨fs, hfs, rfl⟩ := h
  exact note (m := { m with chain := m.chain.pushFrame, activeCalls := m.activeCalls + 1 })
    ⟨fs, hfs, rfl⟩ _

theorem leaveCall (h : Bared m m') : Bared m.leaveCall m'.leaveCall := by
  obtain ⟨fs, hfs, rfl⟩ := h
  exact note (m := { m with chain := m.chain.popFrame, activeCalls := m.activeCalls - 1 })
    ⟨fs, hfs, rfl⟩ _

theorem knowing (h : Bared m m') (f : Function) : Bared (m.knowing f) (m'.knowing (bare f)) := by
  obtain ⟨fs, hfs, rfl⟩ := h
  exact ⟨_, hfs.insert f.name.name f, rfl⟩

/-- Machines with the same bare machine differ in their functions alone. -/
theorem join {m₁ m₂ : Machine C} (h₁ : Bared m₁ m) (h₂ : Bared m₂ m) :
    m₂ = { m₁ with functions := m₂.functions } := by
  obtain ⟨fs, -, rfl⟩ := h₁
  obtain ⟨gs, -, e⟩ := h₂
  cases m₁
  cases m₂
  cases e
  rfl

end Bared

end Machine

namespace Exec

variable {C α : Type}

/-- The second piece does the same, on a machine whose functions have blank spans. -/
abbrev RunsBare (R : α → α → Prop) (x y : Exec C α) : Prop := Agree Machine.Bared R x y

/-! ## The steps -/

theorem fail_bare {R : α → α → Prop} (cause : Cause) (s s' : Span) :
    RunsBare R (fail cause s : Exec C α) (fail cause s') := .throw' rfl

theorem unfinished_bare {R : α → α → Prop} : RunsBare R (unfinished : Exec C α) unfinished :=
  .throw' rfl

theorem ofExcept_bare (s s' : Span) (r : Except Cause α) :
    RunsBare Eq (ofExcept s r : Exec C α) (ofExcept s' r) := by
  cases r with
  | ok a => exact .pure' rfl
  | error cause => exact fail_bare cause s s'

theorem note_bare (e : Event) : RunsBare Eq (note e : Exec C Unit) (note e) :=
  fun _ _ h => .ok rfl (h.note e)

theorem between_bare {R : α → α → Prop} {enter leave : Machine C → Machine C} {x y : Exec C α}
    (henter : ∀ m m', Machine.Bared m m' → Machine.Bared (enter m) (enter m'))
    (hleave : ∀ m m', Machine.Bared m m' → Machine.Bared (leave m) (leave m'))
    (hx : RunsBare R x y) : RunsBare R (between enter leave x) (between enter leave y) := by
  intro m m' h
  have hxy := hx _ _ (henter m m' h)
  unfold between
  generalize x (enter m) = r at hxy ⊢
  generalize y (enter m') = r' at hxy ⊢
  cases hxy with
  | ok hab hs => exact .ok hab (hleave _ _ hs)
  | error he hs => exact .error he (hleave _ _ hs)

theorem inScope_bare {R : α → α → Prop} {x y : Exec C α} (hx : RunsBare R x y) :
    RunsBare R (inScope x) (inScope y) :=
  between_bare (fun _ _ h => h.pushScope) (fun _ _ h => h.popScope) hx

theorem inFrame_bare {R : α → α → Prop} {x y : Exec C α} (hx : RunsBare R x y) :
    RunsBare R (inFrame x) (inFrame y) :=
  between_bare (fun _ _ h => h.enterCall) (fun _ _ h => h.leaveCall) hx

theorem define_bare (name : Ident) (b : Binding) :
    RunsBare Eq (define name b : Exec C Unit) (define (bare name) b) := by
  rintro m _ ⟨fs, hfs, rfl⟩
  cases h : m.chain.define name.name b with
  | some chain =>
    have h' : ({ m with functions := fs } : Machine C).chain.define (bare name).name b =
        some chain := h
    rw [define_ok h, define_ok h']
    exact .ok rfl ⟨fs, hfs, rfl⟩
  | none =>
    have h' : ({ m with functions := fs } : Machine C).chain.define (bare name).name b = none := h
    rw [define_error h, define_error h']
    exact .error rfl ⟨fs, hfs, rfl⟩

theorem lookup_bare (name : String) :
    RunsBare Eq (lookup name : Exec C (Option Binding)) (lookup name) := by
  rintro m _ ⟨fs, hfs, rfl⟩
  exact .ok rfl ⟨fs, hfs, rfl⟩

theorem set_bare (name : String) (v : Decimal) :
    RunsBare Eq (set name v : Exec C Unit) (set name v) := by
  rintro m _ ⟨fs, hfs, rfl⟩
  rw [set_ok, set_ok]
  exact .ok rfl ⟨fs, hfs, rfl⟩

theorem isWritable_bare (target : Ident) :
    RunsBare Eq (isWritable target : Exec C Bool) (isWritable (bare target)) := by
  refine .bind' (lookup_bare target.name) ?_
  rintro found _ rfl
  cases found with
  | none => exact .pure' rfl
  | some b =>
    show RunsBare Eq (if b.mutable then _ else _) (if b.mutable then _ else _)
    split
    · exact .pure' rfl
    · exact fail_bare _ _ _

theorem nameValue_bare (name : Ident) :
    RunsBare Eq (nameValue name : Exec C Decimal) (nameValue (bare name)) := by
  unfold nameValue
  rw [show (bare name).name = name.name from rfl]
  cases NamedConstant.ofName? name.name with
  | some c => exact .pure' rfl
  | none =>
    refine .bind' (lookup_bare name.name) ?_
    rintro found _ rfl
    cases found with
    | none => exact fail_bare _ _ _
    | some b => exact .pure' rfl

theorem bindParams_bare : ∀ (params : List Ident) (values : List Decimal),
    RunsBare Eq (bindParams params values : Exec C Unit) (bindParams (bare params) values)
  | p :: params, v :: values =>
    .bind' (define_bare p ⟨v, true⟩) (fun _ _ _ => bindParams_bare params values)
  | [], _ => .pure' rfl
  | _ :: _, [] => .pure' rfl

/-- Both machines find a function under the name or neither does, and both count alike. -/
theorem callee_bare (name : Ident) (args : Nat) (s s' : Span) :
    RunsBare (fun f g => g = bare f) (callee name args s : Exec C Function)
      (callee (bare name) args s') := by
  rintro m _ ⟨fs, hfs, rfl⟩
  have hm : Machine.Bared m { m with functions := fs } := ⟨fs, hfs, rfl⟩
  have hget : ∀ m : Machine C, (get : Exec C (Machine C)) m = .ok m m := fun _ => rfl
  unfold callee
  rw [bind_ok (hget m), bind_ok (hget _)]
  dsimp only
  have hname : (bare name : Ident).name = name.name := rfl
  rw [hname, hfs.find]
  cases m.functions[name.name]? with
  | none => exact fail_bare _ _ _ _ _ hm
  | some f =>
    have hlength : (bare f : Function).params.length = f.params.length := List.length_map _
    show Paired _ _ ((if f.params.length ≠ args then _ else _ : Exec C Function) m)
      ((if (bare f : Function).params.length ≠ args then _ else _ : Exec C Function) _)
    rw [hlength]
    split
    · exact fail_bare _ _ _ _ _ hm
    · split
      · exact fail_bare _ _ _ _ _ hm
      · exact .ok rfl hm

theorem callResult_bare (f : Function) (s s' : Span) (flow : Flow) :
    RunsBare Eq (callResult f s flow : Exec C Decimal) (callResult (bare f) s' flow) := by
  cases flow with
  | returned v => exact .pure' rfl
  | normal => exact fail_bare _ _ _

theorem addFunction_bare (f : Function) :
    RunsBare Eq (addFunction f : Exec C Unit) (addFunction (bare f)) := by
  rintro m _ ⟨fs, hfs, rfl⟩
  have hm : Machine.Bared m { m with functions := fs } := ⟨fs, hfs, rfl⟩
  have hget : ∀ m : Machine C, (get : Exec C (Machine C)) m = .ok m m := fun _ => rfl
  have hname : (bare f : Function).name.name = f.name.name := rfl
  unfold addFunction
  rw [bind_ok (hget m), bind_ok (hget _)]
  dsimp only
  rw [hname, hfs.contains]
  by_cases hc : m.functions.contains f.name.name
  · rw [if_pos hc, if_pos hc]
    exact fail_bare _ _ _ _ _ hm
  · rw [if_neg hc, if_neg hc]
    by_cases hb : (Builtin.ofName? f.name.name).isSome
    · rw [if_pos hb, if_pos hb]
      exact .ok rfl ((hm.note _).knowing f)
    · rw [if_neg hb, if_neg hb]
      exact .ok rfl (hm.knowing f)

theorem register_bare : ∀ (constants : Nat) (items : List Item),
    RunsBare Eq (register constants items : Exec C Unit) (register constants (bare items))
  | constants, [] => by
    rintro m _ ⟨fs, hfs, rfl⟩
    show Paired _ _ (.ok () (m.note (.registered constants m.functions.size)))
      (.ok () ({ m with functions := fs }.note (.registered constants fs.size)))
    rw [hfs.size]
    exact .ok rfl (.note ⟨fs, hfs, rfl⟩ _)
  | constants, .constant decl :: items =>
    .bind' (define_bare decl.name _) (fun _ _ _ => register_bare (constants + 1) items)
  | constants, .function f :: items =>
    .bind' (addFunction_bare f) (fun _ _ _ => register_bare constants items)
  | constants, .statement _ :: items => register_bare constants items

variable [Channel C]

theorem read_bare : RunsBare Eq (read : Exec C Decimal) read := by
  rintro m _ ⟨fs, hfs, rfl⟩
  unfold read
  dsimp only
  cases Channel.read m.channel with
  | ok d channel => exact .ok rfl ⟨fs, hfs, rfl⟩
  | error e channel => exact .error rfl ⟨fs, hfs, rfl⟩

theorem write_bare (d : Decimal) : RunsBare Eq (write d : Exec C Unit) (write d) := by
  rintro m _ ⟨fs, hfs, rfl⟩
  unfold write
  dsimp only
  cases Channel.write d m.channel with
  | ok _ channel => exact .ok rfl ⟨fs, hfs, rfl⟩
  | error e channel => exact .error rfl ⟨fs, hfs, rfl⟩

/-! ## Expressions and statements -/

/-- A block in a scope of its own, given that its statements run in step. -/
theorem inBlock_bare {n : Nat} {inFunction : Bool} {b : Block}
    (h : RunsBare Eq (executeAll n inFunction b.statements : Exec C Flow)
      (executeAll n inFunction (bare b.statements))) :
    RunsBare Eq (inScope (executeAll n inFunction b.statements) : Exec C Flow)
      (inScope (executeAll n inFunction (bare b).statements)) := by
  rw [Block.bare_statements]
  exact inScope_bare h

mutual

theorem evaluate_bare (n : Nat) (e : Expr) :
    RunsBare Eq (evaluate n e : Exec C Decimal) (evaluate n (bare e)) := by
  match n, e with
  | 0, _ => simp only [evaluate]; exact unfinished_bare
  | n + 1, .number v _ => exact .pure' rfl
  | n + 1, .constant c _ => exact .pure' rfl
  | n + 1, .var name => exact nameValue_bare name
  | n + 1, .unary op operand _ =>
    refine .bind' (evaluate_bare n operand) ?_
    rintro v _ rfl
    exact .pure' rfl
  | n + 1, .binary op left right span =>
    refine .bind' (evaluate_bare n left) ?_
    rintro a _ rfl
    refine .bind' (evaluate_bare n right) ?_
    rintro b _ rfl
    exact ofExcept_bare _ _ _
  | n + 1, .call name args span =>
    have hargs : RunsBare Eq (evaluateAll n args : Exec C _)
        (evaluateAll n (Expr.bareAll args)) := by
      rw [Expr.bareAll_eq]
      exact evaluateAll_bare n args
    refine .bind' hargs ?_
    rintro values _ rfl
    show RunsBare Eq (match Builtin.ofName? name.name with | some b => _ | none => _)
      (match Builtin.ofName? name.name with | some b => _ | none => _)
    cases Builtin.ofName? name.name with
    | some b => exact ofExcept_bare _ _ _
    | none => exact invoke_bare n name values _ _
  | n + 1, .text _ span => exact fail_bare _ _ _
termination_by n

theorem evaluateAll_bare (n : Nat) (es : List Expr) :
    RunsBare Eq (evaluateAll n es : Exec C (List Decimal)) (evaluateAll n (bare es)) := by
  match n, es with
  | 0, _ => simp only [evaluateAll]; exact unfinished_bare
  | n + 1, [] => exact .pure' rfl
  | n + 1, e :: es =>
    refine .bind' (evaluate_bare n e) ?_
    rintro v _ rfl
    refine .bind' (evaluateAll_bare n es) ?_
    rintro vs _ rfl
    exact .pure' rfl
termination_by n

theorem invoke_bare (n : Nat) (name : Ident) (values : List Decimal) (s s' : Span) :
    RunsBare Eq (invoke n name values s : Exec C Decimal) (invoke n (bare name) values s') := by
  match n with
  | 0 => simp only [invoke]; exact unfinished_bare
  | n + 1 =>
    simp only [invoke, deepening_eq]
    refine .bind' (callee_bare name values.length s s') ?_
    rintro f _ rfl
    refine .bind' (note_bare _) (fun _ _ _ => inFrame_bare ?_)
    refine .bind' (bindParams_bare f.params values) (fun _ _ _ => ?_)
    refine .bind' (inBlock_bare (executeAll_bare n true f.body.statements)) ?_
    rintro flow _ rfl
    exact callResult_bare f s s' flow
termination_by n

theorem execute_bare (n : Nat) (inFunction : Bool) (s : Stmt) :
    RunsBare Eq (execute n inFunction s : Exec C Flow) (execute n inFunction (bare s)) := by
  match n, s with
  | 0, _ => simp only [execute]; exact unfinished_bare
  | n + 1, .declare name _ =>
    exact .bind' (define_bare name _) (fun _ _ _ => .pure' rfl)
  | n + 1, .assign target value _ =>
    refine .bind' (evaluate_bare n value) ?_
    rintro v _ rfl
    refine .bind' (isWritable_bare target) ?_
    rintro (_ | _) _ rfl
    · exact fail_bare _ _ _
    · exact .bind' (set_bare target.name v) (fun _ _ _ => .pure' rfl)
  | n + 1, .input target _ =>
    refine .bind' (isWritable_bare target) ?_
    rintro declared _ rfl
    refine .bind' read_bare ?_
    rintro v _ rfl
    cases declared with
    | false => exact .bind' (define_bare target _) (fun _ _ _ => .pure' rfl)
    | true => exact .bind' (set_bare target.name v) (fun _ _ _ => .pure' rfl)
  | n + 1, .output value _ =>
    refine .bind' (evaluate_bare n value) ?_
    rintro v _ rfl
    exact .bind' (write_bare v) (fun _ _ _ => .pure' rfl)
  | n + 1, .choose condition yes none _ =>
    refine .bind' (evaluate_bare n condition) ?_
    rintro v _ rfl
    dsimp only
    split
    · exact inBlock_bare (executeAll_bare n inFunction yes.statements)
    · exact .pure' rfl
  | n + 1, .choose condition yes (some no) _ =>
    refine .bind' (evaluate_bare n condition) ?_
    rintro v _ rfl
    dsimp only
    split
    · exact inBlock_bare (executeAll_bare n inFunction yes.statements)
    · exact inBlock_bare (executeAll_bare n inFunction no.statements)
  | n + 1, .repeatWhile condition body _ => exact executeWhile_bare n inFunction condition body
  | n + 1, .count counter first last body span =>
    refine .bind' (evaluate_bare n first) ?_
    rintro a _ rfl
    refine .bind' (evaluate_bare n last) ?_
    rintro b _ rfl
    refine .bind' (note_bare _) (fun _ _ _ => inScope_bare ?_)
    refine .bind' (define_bare counter _) (fun _ _ _ => ?_)
    exact executeCount_bare n inFunction counter.name a b body _ _
  | n + 1, .giveBack value span =>
    show RunsBare Eq (if inFunction then _ else _) (if inFunction then _ else _)
    split
    · refine .bind' (evaluate_bare n value) ?_
      rintro v _ rfl
      exact .pure' rfl
    · exact fail_bare _ _ _
  | n + 1, .block b => exact inBlock_bare (executeAll_bare n inFunction b.statements)
  | n + 1, .evaluate e _ =>
    exact .bind' (evaluate_bare n e) (fun _ _ _ => .pure' rfl)
termination_by n

theorem executeAll_bare (n : Nat) (inFunction : Bool) (ss : List Stmt) :
    RunsBare Eq (executeAll n inFunction ss : Exec C Flow) (executeAll n inFunction (bare ss)) := by
  match n, ss with
  | 0, _ => simp only [executeAll]; exact unfinished_bare
  | n + 1, [] => exact .pure' rfl
  | n + 1, s :: ss =>
    refine .bind' (execute_bare n inFunction s) ?_
    rintro (_ | v) _ rfl
    · exact executeAll_bare n inFunction ss
    · exact .pure' rfl
termination_by n

theorem executeWhile_bare (n : Nat) (inFunction : Bool) (condition : Expr) (body : Block) :
    RunsBare Eq (executeWhile n inFunction condition body : Exec C Flow)
      (executeWhile n inFunction (bare condition) (bare body)) := by
  match n with
  | 0 => simp only [executeWhile]; exact unfinished_bare
  | n + 1 =>
    refine .bind' (evaluate_bare n condition) ?_
    rintro v _ rfl
    split
    · refine .bind' (inBlock_bare (executeAll_bare n inFunction body.statements)) ?_
      rintro (_ | v) _ rfl
      · exact executeWhile_bare n inFunction condition body
      · exact .pure' rfl
    · exact .pure' rfl
termination_by n

theorem executeCount_bare (n : Nat) (inFunction : Bool) (name : String) (counter last : Decimal)
    (body : Block) (s s' : Span) :
    RunsBare Eq (executeCount n inFunction name counter last body s : Exec C Flow)
      (executeCount n inFunction name counter last (bare body) s') := by
  match n with
  | 0 => simp only [executeCount]; exact unfinished_bare
  | n + 1 =>
    show RunsBare Eq (if counter.le last then _ else _) (if counter.le last then _ else _)
    split
    · refine .bind' (set_bare name counter) (fun _ _ _ => ?_)
      refine .bind' (inBlock_bare (executeAll_bare n inFunction body.statements)) ?_
      rintro (_ | v) _ rfl
      · dsimp only
        cases counter.add .one with
        | some next => exact executeCount_bare n inFunction name next last body s s'
        | none => exact fail_bare _ _ _
      · exact .pure' rfl
    · exact .pure' rfl
termination_by n

end

/-! ## Programs -/

theorem executeItems_bare (n : Nat) : ∀ items : List Item,
    RunsBare Eq (executeItems n items : Exec C Unit) (executeItems n (bare items))
  | [] => .pure' rfl
  | .statement s :: items =>
    .bind' (execute_bare n false s) (fun _ _ _ => executeItems_bare n items)
  | .constant _ :: items => executeItems_bare n items
  | .function _ :: items => executeItems_bare n items

/-- A program and its bare program run in step. They may start on the same machine, since its
    functions are dropped first. -/
theorem runIn_bare (n : Nat) (p : Program) (m : Machine C) :
    Paired Machine.Bared Eq (runIn n p m) (runIn n (bare p) m) := by
  have hrest : RunsBare Eq (do register 0 p.items; executeItems n p.items : Exec C Unit)
      (do register 0 (bare p.items); executeItems n (bare p.items)) :=
    .bind' (register_bare 0 p.items) (fun _ _ _ => executeItems_bare n p.items)
  refine hrest { m with functions := ∅ } { m with functions := ∅ } ⟨∅, ⟨fun name => ?_, rfl⟩, rfl⟩
  rw [Std.ExtTreeMap.getElem?_empty]
  rfl

instance {ε β : Type} [Spanned ε] : Spanned (Except ε β) := ⟨Except.mapError bare⟩

/-- Programs that are the same but for places do the same on every machine. -/
theorem runIn_same {p p' : Program} (h : Same p p') (n : Nat) (m : Machine C) :
    Same (outcome (runIn n p) m) (outcome (runIn n p') m) ∧
      ∃ fs, final (runIn n p') m = { final (runIn n p) m with functions := fs } := by
  have hp := runIn_bare n p m
  have hp' := runIn_bare n p' m
  rw [← h] at hp'
  simp only [outcome, final]
  generalize runIn n p m = r at hp ⊢
  generalize runIn n p' m = r' at hp' ⊢
  generalize runIn n (bare p) m = b at hp hp'
  cases hp with
  | ok _ hm =>
    cases hp' with
    | ok _ hm' => exact ⟨rfl, _, hm.join hm'⟩
  | error he hm =>
    cases hp' with
    | error he' hm' =>
      exact ⟨congrArg Except.error (he.trans he'.symm), _, hm.join hm'⟩

end Exec

/-! ## Sources -/

theorem Cursor.Like.ofSource {source source' : String}
    (h : Token.placeless source = Token.placeless source') :
    Cursor.Like (.ofSource source) (.ofSource source') := by
  obtain ⟨body, n, htokens, hbody, hc⟩ := Cursor.ofSource_eq source
  obtain ⟨body', n', htokens', hbody', hc'⟩ := Cursor.ofSource_eq source'
  rw [Token.placeless, Token.placeless, htokens, htokens',
    Cursor.significant_concat_end body rfl, Cursor.significant_concat_end body' rfl] at h
  rw [hc, hc']
  exact ⟨hbody, hbody', rfl, rfl, rfl, h⟩

open Exec in
/-- Layout and comments do not matter: sources with the same significant tokens are refused
    for the same reason, or they are the same program but for places. Then both programs do
    the same on every machine, whatever it holds, reads and writes, how deep its calls may
    go, and how far the run is followed: they end alike, in errors that differ in their
    places at most, and leave the same scopes, channel and events. -/
theorem layout_irrelevant {source source' : String}
    (h : Token.placeless source = Token.placeless source') :
    (∃ e e', Program.ofSource source = .error e ∧ Program.ofSource source' = .error e' ∧
      e' = { e with span := e'.span }) ∨
    (∃ p p', Program.ofSource source = .ok p ∧ Program.ofSource source' = .ok p' ∧
      bare p = bare p' ∧
      ∀ {C : Type} [Channel C] (n : Nat) (m : Machine C),
        (outcome (runIn n p) m).mapError Stop.bare = (outcome (runIn n p') m).mapError Stop.bare ∧
        ∃ fs, final (runIn n p') m = { final (runIn n p) m with functions := fs }) := by
  have hread := Parse.programWithin_inStep Parse.maxNesting _ _ (Cursor.Like.ofSource h)
  cases hr : Parse.programWithin Parse.maxNesting (.ofSource source) with
  | ok p _ =>
    cases hr' : Parse.programWithin Parse.maxNesting (.ofSource source') with
    | ok p' _ =>
      rw [hr, hr'] at hread
      cases hread with
      | ok hp _ =>
        exact .inr ⟨p, p', Program.ofSource_ok hr, Program.ofSource_ok hr', hp, runIn_same hp⟩
    | error _ _ => rw [hr, hr'] at hread; cases hread
  | error e _ =>
    cases hr' : Parse.programWithin Parse.maxNesting (.ofSource source') with
    | ok _ _ => rw [hr, hr'] at hread; cases hread
    | error e' _ =>
      rw [hr, hr'] at hread
      cases hread with
      | error he _ =>
        obtain ⟨hcause, -⟩ := Error.mk.inj he
        exact .inl ⟨e, e', Program.ofSource_error hr, Program.ofSource_error hr', by rw [hcause]⟩

/-- Where an expression is broken over lines and comments, the program is the same. -/
theorem layout_irrelevant_commented :
    let source := "bello! tulalilloo ti amo (1 melomo 2) naidu!"
    let source' := "// sum\nbello!\n  tulalilloo ti amo(1 /* one */ melomo\n 2)naidu! // three"
    Token.placeless source = Token.placeless source' ∧
      ∃ p p', Program.ofSource source = .ok p ∧ Program.ofSource source' = .ok p' ∧
        bare p = bare p' := by
  intro source source'
  have htokens : Token.placeless source = Token.placeless source' := by decide +kernel
  refine ⟨htokens, ?_⟩
  rcases layout_irrelevant htokens with ⟨e, _, he, -⟩ | ⟨p, p', hp, hp', hsame, -⟩
  · have hok : (Program.ofSource source).isOk = true := by decide +kernel
    rw [he] at hok
    cases hok
  · exact ⟨p, p', hp, hp', hsame⟩

end Bello
