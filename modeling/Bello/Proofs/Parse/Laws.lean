import Bello.Parse.Program
import Bello.Proofs.Blame.Steps
import Bello.Proofs.Upholds

/- Laws that reading keeps.

   A law speaks of cursors, of the tokens on them, and of errors. It holds of whatever the
   small steps of reading do if it survives the taking of a token and passes from tokens to
   the errors that speak of them. Those steps are the same for every law; what the law says
   of the trees that are made is not, and is left to it. -/
namespace Bello.Parse

/-- `T` holds of the tokens on a cursor with `I`, taking one keeps `I`, and an error that
    speaks of such a token satisfies `E`. -/
structure Law (I : Cursor → Prop) (T : Token → Prop) (E : Error → Prop) : Prop where
  look : ∀ c : Cursor, I c → T c.peek
  take : ∀ c : Cursor, I c → T c.advance.1 ∧ I c.advance.2
  blame : ∀ (t : Token) (e : Error), T t → e.Points t → E e

/-- The name was read from a token with `T`. -/
def ReadFrom (T : Token → Prop) (name : Ident) : Prop := ∃ t, T t ∧ name = ⟨t.lexeme, t.span⟩

variable {α : Type} {P : α → Prop} {I : Cursor → Prop} {T : Token → Prop} {E : Error → Prop}

/-- A repetition keeps a law that each of its rounds keeps. -/
theorem repeatUpTo_upholds {step : Parse (Option α)}
    (h : Upholds I E (fun o => ∀ a ∈ o, P a) step) : ∀ (n : Nat) (done : List α),
    (∀ a ∈ done, P a) → Upholds I E (fun as => ∀ a ∈ as, P a) (repeatUpTo step n done)
  | 0, done, hdone => .pure' (fun a ha => hdone a (List.mem_reverse.1 ha))
  | n + 1, done, hdone => by
    refine .bind' h (fun o ho => ?_)
    cases o with
    | none => exact .pure' (fun a ha => hdone a (List.mem_reverse.1 ha))
    | some a => exact repeatUpTo_upholds h n _ (List.forall_mem_cons.2 ⟨ho a rfl, hdone⟩)

theorem many_upholds {step : Parse (Option α)} (h : Upholds I E (fun o => ∀ a ∈ o, P a) step) :
    Upholds I E (fun as => ∀ a ∈ as, P a) (many step) :=
  fun c hc => repeatUpTo_upholds h _ [] (by simp) c hc

/-- A round that yields the value of a reader. -/
theorem round_upholds {x : Parse α} (hx : Upholds I E P x) :
    Upholds I E (fun o => ∀ a ∈ o, P a) (do let a ← x; pure (some a)) :=
  .bind' hx (fun a ha => .pure' (by simpa using ha))

/-- To look further ahead, or back, moves nothing. -/
theorem peekSecond_upholds : Upholds I E (fun _ => True) peekSecond :=
  fun c hc => .inl ⟨_, c, rfl, hc, trivial⟩

theorem spanFrom_upholds (start : Span) : Upholds I E (fun _ => True) (spanFrom start) :=
  fun c hc => .inl ⟨_, c, rfl, hc, trivial⟩

namespace Law

variable (law : Law I T E)
include law

/-! ## Steps -/

theorem fail {t : Token} (ht : T t) {cause : Cause} (h : (cause.at t.span).Points t) :
    Upholds I E P (Parse.fail cause t.span) := .throw' (law.blame t _ ht h)

theorem peek : Upholds I E T Parse.peek := fun c hc => .inl ⟨_, c, rfl, hc, law.look c hc⟩

theorem advance : Upholds I E T Parse.advance :=
  fun c hc => .inl ⟨_, _, rfl, (law.take c hc).2, (law.take c hc).1⟩

theorem unexpected (expected : String) : Upholds I E P (Parse.unexpected expected) := by
  refine .bind' law.peek (fun t ht => ?_)
  split
  · next hkind => exact law.fail ht (.unexpectedEnd expected hkind)
  · next hkind => exact law.fail ht (.malformedNumber hkind)
  · next hend hmalformed => exact law.fail ht (.unexpectedToken expected hend hmalformed)

theorem tooDeep : Upholds I E P Parse.tooDeep :=
  .bind' law.peek (fun _ ht => law.fail ht .nestingTooDeep)

theorem accept (p : Token → Bool) : Upholds I E (fun _ => True) (Parse.accept p) := by
  refine .bind' law.peek (fun t _ => ?_)
  split
  · exact .bind' law.advance (fun _ _ => .pure' trivial)
  · exact .pure' trivial

theorem expect (p : Token → Bool) (what : String) : Upholds I E T (Parse.expect p what) := by
  refine .bind' law.peek (fun t _ => ?_)
  split
  · exact law.advance
  · exact law.unexpected what

theorem expectIdent (what : String) :
    Upholds I E (ReadFrom T) (Parse.expectIdent what) :=
  .bind' (law.expect _ what) (fun t ht => .pure' ⟨t, ht, rfl⟩)

theorem expectTypeTag : Upholds I E (fun _ => True) Parse.expectTypeTag := by
  refine .bind' law.peek (fun t ht => ?_)
  split
  · next hkind =>
    split
    · exact .bind' law.advance (fun _ _ => .pure' trivial)
    · exact law.fail ht (.unsupportedType hkind)
  · exact law.unexpected _

theorem expectStatementEnd : Upholds I E (fun _ => True) Parse.expectStatementEnd :=
  .bind' (law.expect _ _) (fun _ _ => .pure' trivial)

theorem numberValue {t : Token} (ht : T t) (hkind : t.kind = .number) :
    Upholds I E (fun _ => True) (Parse.numberValue t) := by
  unfold Parse.numberValue
  split
  · exact .pure' trivial
  · exact law.fail ht (.invalidNumber hkind)

/-! ## Operators -/

theorem binaryOperator : ∀ choices : List (Operator × BinaryOp),
    Upholds I E (fun _ => True) (Parse.binaryOperator choices)
  | [] => .pure' trivial
  | (word, op) :: choices => by
    refine .bind' (law.accept _) (fun taken _ => ?_)
    cases taken with
    | true => exact .pure' trivial
    | false => exact binaryOperator choices

theorem orderOperator : Upholds I E (fun _ => True) Parse.orderOperator := by
  have hcon : ∀ yes no : BinaryOp, Upholds I E (fun _ => True)
      (do if ← acceptOperator .con then pure (some yes) else pure (some no)) := by
    intro yes no
    refine .bind' (law.accept _) (fun taken _ => ?_)
    split
    · exact .pure' trivial
    · exact .pure' trivial
  refine .bind' (law.accept _) (fun taken _ => ?_)
  split
  · exact .pure' trivial
  refine .bind' (law.accept _) (fun taken _ => ?_)
  split
  · exact hcon .le .lt
  refine .bind' (law.accept _) (fun taken _ => ?_)
  split
  · exact .bind' (law.expect _ _) (fun _ _ => hcon .ge .gt)
  · exact .pure' trivial

/-! ## Forms without expressions -/

theorem declaration :
    Upholds I E (fun st => ∃ name s, ReadFrom T name ∧ st = .declare name s) Parse.declaration := by
  refine .bind' law.advance (fun t _ => ?_)
  refine .bind' (law.expectIdent _) (fun name hname => ?_)
  refine .bind' law.expectTypeTag (fun _ _ => ?_)
  refine .bind' law.expectStatementEnd (fun _ _ => ?_)
  exact .bind' (spanFrom_upholds _) (fun s _ => .pure' ⟨name, s, hname, rfl⟩)

theorem inputStatement :
    Upholds I E (fun st => ∃ target s, ReadFrom T target ∧ st = .input target s)
      Parse.inputStatement := by
  refine .bind' law.advance (fun t _ => ?_)
  refine .bind' (law.expect _ _) (fun _ _ => ?_)
  refine .bind' (law.expectIdent _) (fun target htarget => ?_)
  refine .bind' (law.expect _ _) (fun _ _ => ?_)
  refine .bind' law.expectStatementEnd (fun _ _ => ?_)
  exact .bind' (spanFrom_upholds _) (fun s _ => .pure' ⟨target, s, htarget, rfl⟩)

theorem constantDecl : Upholds I E (fun decl => ReadFrom T decl.name) Parse.constantDecl := by
  refine .bind' law.advance (fun t _ => ?_)
  refine .bind' (law.expectIdent _) (fun name hname => ?_)
  refine .bind' law.expectTypeTag (fun _ _ => ?_)
  have hend : ∀ value : ConstantValue, True → Upholds I E (fun decl => ReadFrom T decl.name)
      (do
        Parse.expectStatementEnd
        pure (⟨name, value, ← Parse.spanFrom t.span⟩ : ConstantDecl)) := by
    intro value _
    refine .bind' law.expectStatementEnd (fun _ _ => ?_)
    exact .bind' (spanFrom_upholds _) (fun s _ => .pure' hname)
  refine .bind' law.peek (fun u hu => ?_)
  split
  · next hkind =>
    refine .bind' law.advance (fun _ _ => ?_)
    refine .bind' (law.numberValue hu hkind) (fun d _ => ?_)
    exact .bind' (.pure' trivial) hend
  · split
    · refine .bind' law.advance (fun _ _ => ?_)
      exact .bind' (.pure' trivial) hend
    · exact .bind' (law.unexpected _) hend

theorem nextParameter :
    Upholds I E (fun o => ∀ name ∈ o, ReadFrom T name) Parse.nextParameter := by
  refine .bind' (law.accept _) (fun comma _ => ?_)
  split
  · exact round_upholds (law.expectIdent _)
  · exact .pure' (by simp)

theorem parameters :
    Upholds I E (fun names => ∀ name ∈ names, ReadFrom T name) Parse.parameters := by
  refine .bind' law.peek (fun t _ => ?_)
  split
  · exact .pure' (by simp)
  · refine .bind' (law.expectIdent _) (fun first hfirst => ?_)
    refine .bind' (many_upholds law.nextParameter) (fun rest hrest => ?_)
    exact .pure' (List.forall_mem_cons.2 ⟨hfirst, hrest⟩)

end Law

end Bello.Parse
