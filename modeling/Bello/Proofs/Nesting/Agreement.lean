import Bello.Proofs.Nesting.Counted
import Bello.Proofs.Parse.Laws

/- Counting levels and being told the room come to the same.

   `Counts clean room x y` compares a reader that counts with one that is given `room`: where
   the count and the room add up to the limit, both end alike at the same cursor, and the
   count is back where it was; after an error only if `clean` holds. Chains are not clean,
   and everything around an operand that may be one is not; what `nested` encloses is. So the
   levels of an expression agree in the weak sense, and expressions, blocks, statements and
   programs in the strong one.

   On the way the closing token of the cursor stays, whatever it is. -/
namespace Bello

/-- The closing token is an end. -/
def Cursor.Closed (c : Cursor) : Prop := c.final.isEnd = true

theorem Parse.closing : Law Cursor.Closed (fun _ => True) (fun _ => True) where
  look _ _ := trivial
  take c hc := by
    refine ⟨trivial, ?_⟩
    rw [Cursor.Closed, Cursor.final_advance]
    exact hc
  blame _ _ _ _ := trivial

namespace Counted

open Parse (maxNesting closing)

variable {α β : Type}

/-- Both end in the same value or the same error, at the same cursor. The count is back at
    `level` after a value if `value` holds, and after an error if `fault` holds. -/
inductive Matches (value fault : Prop) (level : Nat) :
    EStateM.Result Error Reader α → EStateM.Result Error Cursor α → Prop where
  | ok (a : α) {c : Cursor} {level' : Nat} : c.Closed → (value → level' = level) →
      Matches value fault level (.ok a ⟨c, level'⟩) (.ok a c)
  | error (e : Error) {c : Cursor} {level' : Nat} : c.Closed → (fault → level' = level) →
      Matches value fault level (.error e ⟨c, level'⟩) (.error e c)

namespace Matches

variable {value fault : Prop} {level : Nat}

/-- If the first half is back at the level after a value, the second half starts there. -/
theorem bind' {x : Counted α} {y : Parse α} {f : α → Counted β} {g : α → Parse β} {r : Reader}
    {c : Cursor} (h : Matches True fault level (x r) (y c))
    (hf : ∀ a c', c'.Closed → Matches value fault level (f a ⟨c', level⟩) (g a c')) :
    Matches value fault level ((x >>= f) r) ((y >>= g) c) := by
  show Matches value fault level (EStateM.bind x f r) (EStateM.bind y g c)
  unfold EStateM.bind
  generalize x r = s at h ⊢
  generalize y c = s' at h ⊢
  cases h with
  | ok a hc hback =>
    rw [hback trivial]
    exact hf a _ hc
  | error e hc hback => exact .error e hc hback

/-- Where nothing is said of the count, the level is free. -/
theorem level_free {level' : Nat} {r : EStateM.Result Error Reader α}
    {s : EStateM.Result Error Cursor α} (h : Matches False False level r s) :
    Matches False False level' r s := by
  cases h with
  | ok a hc _ => exact .ok a hc False.elim
  | error e hc _ => exact .error e hc False.elim

end Matches

/-- At the level that leaves `room`, the counting reader does what the other one does. -/
def Counts (clean : Prop) (room : Nat) (x : Counted α) (y : Parse α) : Prop :=
  ∀ (c : Cursor) (level : Nat), c.Closed → level + room = maxNesting →
    Matches True clean level (x ⟨c, level⟩) (y c)

variable {clean : Prop} {room : Nat} {x : Counted α} {y : Parse α}

namespace Counts

theorem pure' (a : α) : Counts clean room (pure a) (pure a) :=
  fun _ _ hc _ => .ok a hc (fun _ => rfl)

/-- A step that does not touch the count. -/
theorem lift' {E : Error → Prop} {P : α → Prop} (h : Upholds Cursor.Closed E P y) :
    Counts clean room (liftM y) y := by
  intro c level hc _
  show Matches True clean level (lift y ⟨c, level⟩) (y c)
  unfold lift
  rcases h c hc with ⟨a, c', hr, hc', -⟩ | ⟨e, c', hr, hc', -⟩
  · simp only [hr]
    exact .ok a hc' (fun _ => rfl)
  · simp only [hr]
    exact .error e hc' (fun _ => rfl)

theorem bind' {f : α → Counted β} {g : α → Parse β} (hx : Counts clean room x y)
    (hf : ∀ a, Counts clean room (f a) (g a)) : Counts clean room (x >>= f) (y >>= g) := by
  intro c level hc hlevel
  exact (hx c level hc hlevel).bind' (fun a c' hc' => hf a c' level hc' hlevel)

/-- Less is said of the count. -/
theorem loose (h : Counts True room x y) : Counts clean room x y := by
  intro c level hc hlevel
  have hxy := h c level hc hlevel
  generalize x ⟨c, level⟩ = r at hxy ⊢
  generalize y c = r' at hxy ⊢
  cases hxy with
  | ok a hc' hback => exact .ok a hc' hback
  | error e hc' hback => exact .error e hc' (fun _ => hback trivial)

theorem repeatUpTo' {step : Counted (Option α)} {step' : Parse (Option α)}
    (h : Counts clean room step step') : ∀ (n : Nat) (done : List α),
    Counts clean room (repeatUpTo step n done) (Parse.repeatUpTo step' n done)
  | 0, done => .pure' _
  | n + 1, done => by
    refine .bind' h (fun o => ?_)
    cases o with
    | none => exact .pure' _
    | some a => exact repeatUpTo' h n (a :: done)

theorem many' {step : Counted (Option α)} {step' : Parse (Option α)}
    (h : Counts clean room step step') : Counts clean room (many step) (Parse.many step') :=
  fun c level hc hlevel => repeatUpTo' h _ [] c level hc hlevel

end Counts

/-! ## Steps -/

theorem fail_counts (cause : Cause) (span : Span) :
    Counts clean room (liftM (Parse.fail cause span)) (Parse.fail cause span : Parse α) :=
  fun _ _ hc _ => .error _ hc (fun _ => rfl)

theorem unexpected_counts (what : String) :
    Counts clean room (liftM (Parse.unexpected what)) (Parse.unexpected what : Parse α) :=
  .lift' (P := fun _ => True) (closing.unexpected what)

theorem spanFrom_counts (start : Span) :
    Counts clean room (liftM (Parse.spanFrom start)) (Parse.spanFrom start) :=
  .lift' (E := fun _ => True) (Parse.spanFrom_upholds start)

theorem tooDeep_counts : Counts clean room (liftM Parse.tooDeep) (Parse.tooDeep : Parse α) :=
  .lift' (P := fun _ => True) closing.tooDeep

/-! ## Going down -/

/-- Without room there is no way down. -/
theorem descend_full {level : Nat} (c : Cursor) (h : ¬ level < maxNesting) :
    descend ⟨c, level⟩ = (lift Parse.tooDeep : Counted Unit) ⟨c, level⟩ := if_neg h

theorem descend_ok {level : Nat} (c : Cursor) (h : level < maxNesting) :
    descend ⟨c, level⟩ = .ok () ⟨c, level + 1⟩ := if_pos h

/-- What comes after the way down is done one level deeper. -/
theorem descend_bind {level : Nat} (c : Cursor) (h : level < maxNesting) (x : Counted α) :
    (descend >>= fun _ => x) ⟨c, level⟩ = x ⟨c, level + 1⟩ := by
  show EStateM.bind descend _ _ = _
  rw [EStateM.bind, descend_ok c h]

/-- Without room the way down fails, and nothing comes after it. -/
theorem descend_bind_full {level : Nat} (c : Cursor) (h : ¬ level < maxNesting) (x : Counted α) :
    (descend >>= fun _ => x) ⟨c, level⟩ =
      .error (Cause.at (.nestingTooDeep maxNesting) c.peek.span) ⟨c, level⟩ := by
  show EStateM.bind descend _ _ = _
  rw [EStateM.bind, descend_full c h]
  rfl

theorem tooDeep_eq (c : Cursor) : (Parse.tooDeep : Parse α) c =
    .error (Cause.at (.nestingTooDeep maxNesting) c.peek.span) c := rfl

theorem nested_full (x : Counted α) :
    Counts clean 0 (nested x) (Parse.tooDeep : Parse α) := by
  intro c level hc hlevel
  unfold nested
  rw [descend_bind_full c (by omega), tooDeep_eq]
  exact .error _ hc (fun _ => rfl)

/-- What goes on inside is mended. -/
theorem nested_counts {M : Prop} (h : Counts M room x y) :
    Counts clean (room + 1) (nested x) y := by
  intro c level hc hlevel
  have hxy := h c (level + 1) hc (by omega)
  unfold nested
  rw [descend_bind c (by omega)]
  generalize x ⟨c, level + 1⟩ = r at hxy ⊢
  generalize y c = r' at hxy ⊢
  cases hxy with
  | ok a hc' _ => exact .ok a hc' (fun _ => rfl)
  | error e hc' _ => exact .error e hc' (fun _ => rfl)

/-! ## Chains -/

section Chain

variable {operator : Parse (Option BinaryOp)} {operand : Counted Expr}
  {operand' : Nat → Parse Expr} {E : Error → Prop} {P : Option BinaryOp → Prop}
  (ho : Upholds Cursor.Closed E P operator)
include ho

/-- The count goes up with each operator and stays up, as far as the chain gets. The bound is
    not met because the room goes down with it. -/
theorem chainRest_matches : ∀ (room bound : Nat) (left : Expr) (c : Cursor) (level : Nat),
    (∀ r ≤ room, Counts False r operand (operand' r)) → room ≤ bound → c.Closed →
    level + room = maxNesting →
    Matches False False level (chainRest operator operand (bound + 1) left ⟨c, level⟩)
      (Parse.chainRest operator operand' room left c) := by
  intro room
  induction room with
  | zero =>
    intro bound left c level _ _ hc hlevel
    have hoperator : Counts False 0 (liftM operator) operator := .lift' ho
    refine (hoperator c level hc hlevel).bind' (fun o c' hc' => ?_)
    cases o with
    | none => exact .ok left hc' False.elim
    | some op =>
      show Matches False False level ((descend >>= fun _ => _) ⟨c', level⟩) (Parse.tooDeep c')
      rw [descend_bind_full c' (by omega), tooDeep_eq]
      exact .error _ hc' False.elim
  | succ room ih =>
    intro bound left c level hx hbound hc hlevel
    obtain ⟨bound, rfl⟩ : ∃ b, bound = b + 1 := ⟨bound - 1, by omega⟩
    have hoperator : Counts False (room + 1) (liftM operator) operator := .lift' ho
    refine (hoperator c level hc hlevel).bind' (fun o c' hc' => ?_)
    cases o with
    | none => exact .ok left hc' False.elim
    | some op =>
      have hright := hx room (by omega) c' (level + 1) hc' (by omega)
      show Matches False False level ((descend >>= fun _ => _) ⟨c', level⟩)
        ((operand' room >>= _) c')
      rw [descend_bind c' (by omega)]
      refine Matches.level_free (hright.bind' (fun right d hd => ?_))
      exact ih bound _ d (level + 1) (fun r hr => hx r (by omega)) (by omega) hd (by omega)

theorem chain_counts (hx : ∀ r ≤ room, Counts False r operand (operand' r)) :
    Counts False room (chain operator operand) (Parse.chain operator operand' room) := by
  intro c level hc hlevel
  have hfirst := hx room (Nat.le_refl room) c level hc hlevel
  have hwhole : Matches False False level
      ((operand >>= chainRest operator operand (maxNesting + 1)) ⟨c, level⟩)
      (Parse.chain operator operand' room c) :=
    hfirst.bind' (fun first d hd =>
      chainRest_matches ho room maxNesting first d level hx (by omega) hd hlevel)
  unfold chain returning
  generalize (operand >>= chainRest operator operand (maxNesting + 1)) ⟨c, level⟩ = r at hwhole ⊢
  generalize Parse.chain operator operand' room c = r' at hwhole ⊢
  cases hwhole with
  | ok e hc' _ => exact .ok e hc' (fun _ => rfl)
  | error e hc' _ => exact .error e hc' False.elim

end Chain

/-! ## Expressions -/

theorem nextArgument_counts {expr : Counted Expr} {expr' : Parse Expr}
    (h : Counts clean room expr expr') :
    Counts clean room (nextArgument expr) (Parse.nextArgument expr') := by
  refine .bind' (.lift' (closing.accept _)) (fun comma => ?_)
  cases comma with
  | true => exact .bind' h (fun _ => .pure' _)
  | false =>
    refine .bind' (.lift' (closing.accept _)) (fun closed => ?_)
    cases closed with
    | true => exact .pure' _
    | false => exact unexpected_counts _

theorem call_counts {expr : Counted Expr} {expr' : Parse Expr} (h : Counts clean room expr expr')
    (callee : Ident) : Counts clean room (call expr callee) (Parse.call expr' callee) := by
  have hend : ∀ args : List Expr, Counts clean room
      (do pure (Expr.call callee args (← Parse.spanFrom callee.span)))
      (do pure (Expr.call callee args (← Parse.spanFrom callee.span))) :=
    fun args => .bind' (spanFrom_counts _) (fun _ => .pure' _)
  refine .bind' (.lift' closing.advance) (fun _ => ?_)
  refine .bind' (.lift' (closing.accept _)) (fun closed => ?_)
  cases closed with
  | true => exact .bind' (.pure' _) hend
  | false =>
    refine .bind' h (fun first => ?_)
    refine .bind' (.many' (nextArgument_counts h)) (fun rest => ?_)
    exact .bind' (.pure' _) hend

theorem primary_counts {expr : Counted Expr} {expr' : Parse Expr}
    (h : Counts clean room expr expr') :
    Counts clean room (primary expr) (Parse.primary expr') := by
  refine .bind' (.lift' closing.peek) (fun t => ?_)
  have hother : Counts clean room
      (if t.isDelimiter "(" then (do
        let _ ← Parse.advance
        let inner ← expr
        let _ ← Parse.expectDelimiter ")"
        pure inner)
      else Parse.unexpected "expression")
      (if t.isDelimiter "(" then (do
        let _ ← Parse.advance
        let inner ← expr'
        let _ ← Parse.expectDelimiter ")"
        pure inner)
      else Parse.unexpected "expression") := by
    split
    · refine .bind' (.lift' closing.advance) (fun _ => ?_)
      refine .bind' h (fun inner => ?_)
      exact .bind' (.lift' (closing.expect _ _)) (fun _ => .pure' _)
    · exact unexpected_counts _
  cases hkind : t.kind with
  | number =>
    refine .bind' (.lift' closing.advance) (fun _ => ?_)
    exact .bind' (.lift' (closing.numberValue trivial hkind)) (fun _ => .pure' _)
  | text => exact .bind' (.lift' closing.advance) (fun _ => .pure' _)
  | keyword word =>
    cases word with
    | da | no => exact .bind' (.lift' closing.advance) (fun _ => .pure' _)
    | _ => exact hother
  | identifier =>
    refine .bind' (.lift' closing.advance) (fun _ => ?_)
    cases NamedConstant.ofName? t.lexeme with
    | some c => exact .pure' _
    | none =>
      refine .bind' (.lift' closing.peek) (fun u => ?_)
      split
      · exact call_counts h _
      · exact .pure' _
  | _ => exact hother

theorem powerOf_counts {exponent base : Counted Expr} {exponent' base' : Parse Expr}
    (hx : Counts clean room exponent exponent') (hb : Counts clean room base base') :
    Counts clean room (powerOf exponent base) (Parse.powerOf exponent' base') := by
  refine .bind' hb (fun b => ?_)
  refine .bind' (.lift' (closing.accept _)) (fun taken => ?_)
  cases taken with
  | true => exact .bind' hx (fun _ => .pure' _)
  | false => exact .pure' _

theorem unaryOf_counts {opOf : Token → Option UnaryOp} {operand plain : Counted Expr}
    {operand' plain' : Parse Expr} (hx : Counts clean room operand operand')
    (hp : Counts clean room plain plain') :
    Counts clean room (unaryOf opOf operand plain) (Parse.unaryOf opOf operand' plain') := by
  refine .bind' (.lift' closing.peek) (fun t => ?_)
  cases opOf t with
  | none => exact hp
  | some op =>
    refine .bind' (.lift' closing.advance) (fun _ => ?_)
    exact .bind' hx (fun _ => .pure' _)

section Tower

variable {expr : Counted Expr} {expr' : Nat → Parse Expr}

theorem power_counts : ∀ bound room : Nat, room ≤ bound →
    (∀ r ≤ room, Counts True r expr (expr' r)) →
    Counts False room (power expr bound) (Parse.power expr' room)
  | 0, 0, _, h => powerOf_counts tooDeep_counts (primary_counts (h 0 (Nat.le_refl 0)).loose)
  | bound + 1, 0, _, h =>
    powerOf_counts (nested_full _) (primary_counts (h 0 (Nat.le_refl 0)).loose)
  | bound + 1, room + 1, hle, h =>
    powerOf_counts (nested_counts (power_counts bound room (by omega) (fun r hr => h r (by omega))))
      (primary_counts (h (room + 1) (Nat.le_refl _)).loose)

theorem signed_counts : ∀ bound room : Nat, room ≤ bound →
    (∀ r ≤ room, Counts True r expr (expr' r)) →
    Counts False room (signed expr bound) (Parse.signed expr' room)
  | 0, 0, hle, h => unaryOf_counts tooDeep_counts (power_counts 0 0 hle h)
  | bound + 1, 0, hle, h => unaryOf_counts (nested_full _) (power_counts (bound + 1) 0 hle h)
  | bound + 1, room + 1, hle, h =>
    unaryOf_counts
      (nested_counts (signed_counts bound room (by omega) (fun r hr => h r (by omega))))
      (power_counts (bound + 1) (room + 1) hle h)

theorem equality_counts {bound room : Nat} (hle : room ≤ bound)
    (h : ∀ r ≤ room, Counts True r expr (expr' r)) :
    ∀ r ≤ room, Counts False r (equality expr bound) (Parse.equality expr' r) := by
  have hsigned : ∀ r ≤ room, Counts False r (signed expr bound) (Parse.signed expr' r) :=
    fun r hr => signed_counts bound r (by omega) (fun q hq => h q (by omega))
  have hproduct : ∀ r ≤ room, Counts False r (product expr bound) (Parse.product expr' r) :=
    fun r hr => chain_counts (closing.binaryOperator _) (fun q hq => hsigned q (by omega))
  have hsum : ∀ r ≤ room, Counts False r (sum expr bound) (Parse.sum expr' r) :=
    fun r hr => chain_counts (closing.binaryOperator _) (fun q hq => hproduct q (by omega))
  have horder : ∀ r ≤ room, Counts False r (order expr bound) (Parse.order expr' r) :=
    fun r hr => chain_counts closing.orderOperator (fun q hq => hsum q (by omega))
  exact fun r hr => chain_counts (closing.binaryOperator _) (fun q hq => horder q (by omega))

theorem negation_counts : ∀ bound room : Nat, room ≤ bound →
    (∀ r ≤ room, Counts True r expr (expr' r)) →
    Counts False room (negation expr bound) (Parse.negation expr' room)
  | 0, 0, hle, h => unaryOf_counts tooDeep_counts (equality_counts hle h 0 (Nat.le_refl 0))
  | bound + 1, 0, hle, h =>
    unaryOf_counts (nested_full _) (equality_counts hle h 0 (Nat.le_refl 0))
  | bound + 1, room + 1, hle, h =>
    unaryOf_counts
      (nested_counts (negation_counts bound room (by omega) (fun r hr => h r (by omega))))
      (equality_counts hle h (room + 1) (Nat.le_refl _))

theorem disjunction_counts {bound room : Nat} (hle : room ≤ bound)
    (h : ∀ r ≤ room, Counts True r expr (expr' r)) :
    Counts False room (disjunction expr bound) (Parse.disjunction expr' room) := by
  have hnegation : ∀ r ≤ room, Counts False r (negation expr bound) (Parse.negation expr' r) :=
    fun r hr => negation_counts bound r (by omega) (fun q hq => h q (by omega))
  have hconjunction : ∀ r ≤ room,
      Counts False r (conjunction expr bound) (Parse.conjunction expr' r) :=
    fun r hr => chain_counts (closing.binaryOperator _) (fun q hq => hnegation q (by omega))
  exact chain_counts (closing.binaryOperator _) hconjunction

end Tower

/-- An expression mends the count, whatever happens inside. -/
theorem expressionWithin_counts : ∀ bound depth room : Nat, room ≤ bound → room ≤ depth →
    Counts True room (expression bound) (Parse.expressionWithin depth room)
  | 0, 0, 0, _, _ => tooDeep_counts
  | 0, _ + 1, 0, _, _ => tooDeep_counts
  | _ + 1, 0, 0, _, _ => nested_full _
  | _ + 1, _ + 1, 0, _, _ => nested_full _
  | bound + 1, depth + 1, room + 1, hb, hd =>
    nested_counts (disjunction_counts (by omega)
      (fun r hr => expressionWithin_counts bound depth r (by omega) (by omega)))

theorem expression_counts {bound room : Nat} (h : room ≤ bound) :
    Counts True room (expression bound) (Parse.expression room) :=
  expressionWithin_counts bound room room h (Nat.le_refl room)

theorem standaloneExpression_counts {bound : Nat} (h : maxNesting ≤ bound) :
    Counts True maxNesting (standaloneExpression bound) Parse.standaloneExpression := by
  refine .bind' (expression_counts h) (fun e => ?_)
  refine .bind' (.lift' closing.peek) (fun t => ?_)
  split
  · exact .pure' _
  · exact fail_counts _ _

/-! ## Statements -/

section Statements

variable {expr : Counted Expr} {expr' : Parse Expr} {blockR : Counted Block}
  {blockR' : Parse Block} (he : Counts clean room expr expr')
include he

theorem outputStatement_counts :
    Counts clean room (outputStatement expr) (Parse.outputStatement expr') := by
  refine .bind' (.lift' closing.advance) (fun t => ?_)
  refine .bind' (.lift' (closing.expect _ _)) (fun _ => ?_)
  refine .bind' (.lift' (closing.expect _ _)) (fun _ => ?_)
  refine .bind' (.lift' (closing.expect _ _)) (fun _ => ?_)
  refine .bind' he (fun value => ?_)
  refine .bind' (.lift' (closing.expect _ _)) (fun _ => ?_)
  refine .bind' (.lift' closing.expectStatementEnd) (fun _ => ?_)
  exact .bind' (spanFrom_counts _) (fun _ => .pure' _)

theorem condition_counts : Counts clean room (condition expr) (Parse.condition expr') := by
  refine .bind' (.lift' (closing.expect _ _)) (fun _ => ?_)
  refine .bind' he (fun value => ?_)
  exact .bind' (.lift' (closing.expect _ _)) (fun _ => .pure' _)

theorem returnStatement_counts :
    Counts clean room (returnStatement expr) (Parse.returnStatement expr') := by
  refine .bind' (.lift' closing.advance) (fun t => ?_)
  refine .bind' (.lift' (closing.expect _ _)) (fun _ => ?_)
  refine .bind' he (fun value => ?_)
  refine .bind' (.lift' closing.expectStatementEnd) (fun _ => ?_)
  exact .bind' (spanFrom_counts _) (fun _ => .pure' _)

theorem assignmentOrExpression_counts :
    Counts clean room (assignmentOrExpression expr) (Parse.assignmentOrExpression expr') := by
  refine .bind' (.lift' closing.peek) (fun t => ?_)
  refine .bind' (.lift' (E := fun _ => True) Parse.peekSecond_upholds) (fun u => ?_)
  split
  · refine .bind' (.lift' (closing.expectIdent _)) (fun target => ?_)
    refine .bind' (.lift' closing.advance) (fun _ => ?_)
    refine .bind' he (fun value => ?_)
    refine .bind' (.lift' closing.expectStatementEnd) (fun _ => ?_)
    exact .bind' (spanFrom_counts _) (fun _ => .pure' _)
  · refine .bind' he (fun value => ?_)
    refine .bind' (.lift' closing.expectStatementEnd) (fun _ => ?_)
    exact .bind' (spanFrom_counts _) (fun _ => .pure' _)

variable (hb : Counts clean room blockR blockR')
include hb

theorem choice_counts : Counts clean room (choice blockR expr) (Parse.choice blockR' expr') := by
  refine .bind' (.lift' closing.advance) (fun t => ?_)
  refine .bind' (condition_counts he) (fun test => ?_)
  refine .bind' hb (fun yes => ?_)
  have hend : ∀ no : Option Block, Counts clean room
      (do pure (Stmt.choose test yes no (← Parse.spanFrom t.span)))
      (do pure (Stmt.choose test yes no (← Parse.spanFrom t.span))) :=
    fun no => .bind' (spanFrom_counts _) (fun _ => .pure' _)
  refine .bind' (.lift' closing.peek) (fun u => ?_)
  split
  · refine .bind' (.lift' closing.advance) (fun _ => ?_)
    refine .bind' hb (fun no => ?_)
    exact .bind' (.pure' _) hend
  · exact .bind' (.pure' _) hend

theorem whileLoop_counts :
    Counts clean room (whileLoop blockR expr) (Parse.whileLoop blockR' expr') := by
  refine .bind' (.lift' closing.advance) (fun t => ?_)
  refine .bind' (condition_counts he) (fun test => ?_)
  refine .bind' hb (fun body => ?_)
  exact .bind' (spanFrom_counts _) (fun _ => .pure' _)

theorem countLoop_counts :
    Counts clean room (countLoop blockR expr) (Parse.countLoop blockR' expr') := by
  refine .bind' (.lift' closing.advance) (fun t => ?_)
  refine .bind' (.lift' (closing.expect _ _)) (fun _ => ?_)
  refine .bind' (.lift' (closing.expectIdent _)) (fun counter => ?_)
  refine .bind' (.lift' (closing.expect _ _)) (fun _ => ?_)
  refine .bind' he (fun first => ?_)
  refine .bind' (.lift' (closing.expect _ _)) (fun _ => ?_)
  refine .bind' he (fun last => ?_)
  refine .bind' (.lift' (closing.expect _ _)) (fun _ => ?_)
  refine .bind' hb (fun body => ?_)
  exact .bind' (spanFrom_counts _) (fun _ => .pure' _)

theorem statement_counts :
    Counts clean room (statement blockR expr) (Parse.statement blockR' expr') := by
  refine .bind' (.lift' closing.peek) (fun t => ?_)
  cases t.kind with
  | keyword word =>
    cases word with
    | poop => exact .lift' closing.declaration
    | guoleila => exact .lift' closing.inputStatement
    | tulalilloo => exact outputStatement_counts he
    | biDo => exact choice_counts he hb
    | kemari => exact whileLoop_counts he hb
    | again => exact countLoop_counts he hb
    | tank => exact returnStatement_counts he
    | oca => exact .bind' hb (fun b => .pure' _)
    | _ => exact assignmentOrExpression_counts he
  | endOfInput => exact unexpected_counts _
  | _ => exact assignmentOrExpression_counts he

end Statements

theorem nextStatement_counts {st : Counted Stmt} {st' : Parse Stmt} (h : Counts clean room st st') :
    Counts clean room (nextStatement st) (Parse.nextStatement st') := by
  refine .bind' (.lift' closing.peek) (fun t => ?_)
  split
  · exact .pure' _
  · split
    · exact unexpected_counts _
    · exact .bind' h (fun _ => .pure' _)

theorem block_counts {expr : Counted Expr} : ∀ bound room : Nat, room ≤ bound →
    (∀ r ≤ room, Counts True r expr (Parse.expression r)) →
    Counts True room (block expr bound) (Parse.block room)
  | 0, 0, _, _ => tooDeep_counts
  | bound + 1, 0, _, _ => nested_full _
  | bound + 1, room + 1, hle, h => by
    have hblock := block_counts bound room (by omega) (fun r hr => h r (by omega))
    have hstatement := statement_counts (h room (by omega)) hblock
    refine nested_counts (M := True) ?_
    refine .bind' (.lift' (closing.expect _ _)) (fun t => ?_)
    refine .bind' (.many' (nextStatement_counts hstatement)) (fun statements => ?_)
    refine .bind' (.lift' closing.advance) (fun _ => ?_)
    exact .bind' (spanFrom_counts _) (fun _ => .pure' _)

/-! ## Programs -/

theorem function_counts {blockR : Counted Block}
    (hb : Counts clean room blockR (Parse.block room)) :
    Counts clean room (function blockR) (Parse.function room) := by
  refine .bind' (.lift' closing.advance) (fun t => ?_)
  refine .bind' (.lift' (closing.expectIdent _)) (fun name => ?_)
  refine .bind' (.lift' closing.expectTypeTag) (fun _ => ?_)
  refine .bind' (.lift' (closing.expect _ _)) (fun _ => ?_)
  refine .bind' (.lift' closing.parameters) (fun params => ?_)
  refine .bind' (.lift' (closing.expect _ _)) (fun _ => ?_)
  refine .bind' hb (fun body => ?_)
  exact .bind' (spanFrom_counts _) (fun _ => .pure' _)

theorem item_counts {expr : Counted Expr} {blockR : Counted Block}
    (he : Counts clean room expr (Parse.expression room))
    (hb : Counts clean room blockR (Parse.block room)) :
    Counts clean room (item blockR expr) (Parse.item room) := by
  refine .bind' (.lift' closing.peek) (fun t => ?_)
  split
  · exact .bind' (.lift' closing.constantDecl) (fun _ => .pure' _)
  · split
    · exact .bind' (function_counts hb) (fun _ => .pure' _)
    · exact .bind' (statement_counts he hb) (fun _ => .pure' _)

theorem nextItem_counts {it : Counted Item} (h : Counts clean room it (Parse.item room)) :
    Counts clean room (nextItem it) (Parse.nextItem room) := by
  refine .bind' (.lift' closing.peek) (fun t => ?_)
  split
  · exact .pure' _
  · exact .bind' h (fun _ => .pure' _)

theorem program_counts {bound : Nat} (h : maxNesting ≤ bound) :
    Counts True maxNesting (program bound) Parse.program := by
  have hexpr : ∀ r ≤ maxNesting, Counts True r (expression bound) (Parse.expression r) :=
    fun r hr => expression_counts (by omega)
  have hblock := block_counts bound maxNesting h hexpr
  have hitem := item_counts (hexpr maxNesting (Nat.le_refl _)) hblock
  refine .bind' (.lift' (closing.expect _ _)) (fun _ => ?_)
  exact .bind' (.many' (nextItem_counts hitem)) (fun _ => .pure' _)

end Counted

end Bello
