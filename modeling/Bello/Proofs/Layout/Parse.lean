import Bello.Machine.Execution
import Bello.Proofs.Layout.Basic
import Bello.Proofs.Parse.Program
import Bello.Proofs.Token.Lossless

/- Reading does not see the layout.

   Two cursors are `Like` each other if the tokens left at them are the same but for their
   places, whatever trivia stand between them. Every reader looks at kinds and lexemes to
   decide, and at places only to build spans, so from such cursors it does the same. That
   a repetition ends after as many rounds on both sides rests on the grammar: each round
   takes a token, so the bounds, which count trivia too, are not reached. -/
namespace Bello

namespace Cursor

/-- The tokens left are the same but for their places, and both sequences are closed by
    their last token only. -/
structure Like (c d : Cursor) : Prop where
  inner₁ : ∀ t ∈ c.pending, t.isEnd = false
  inner₂ : ∀ t ∈ d.pending, t.isEnd = false
  final₁ : c.final.isEnd = true
  final₂ : d.final.isEnd = true
  finals : Same c.final d.final
  remaining : Same c.remaining d.remaining

/-- A cursor that has only trivia before it is at its closing token. -/
theorem upcoming_nil {c : Cursor} (hi : ∀ t ∈ c.pending, t.isEnd = false)
    (hr : c.remaining = []) : c.upcoming = [] := by
  cases hu : c.upcoming with
  | nil => rfl
  | cons t rest =>
    have ht := not_isTrivia_of_upcoming hu
    have hmem : t ∈ c.pending := (List.dropWhile_sublist _).subset (hu ▸ List.mem_cons_self)
    rw [remaining_eq, hu] at hr
    simp [Token.significant, ht, hi t hmem] at hr

theorem pending_advance_subset (c : Cursor) : ∀ t ∈ c.advance.2.pending, t ∈ c.pending := by
  intro t ht
  unfold advance at ht
  split at ht
  · cases ht
  · next u rest hu =>
    have hmem : t ∈ c.upcoming := hu ▸ List.mem_cons_of_mem u ht
    exact (List.dropWhile_sublist _).subset hmem

theorem final_advance (c : Cursor) : c.advance.2.final = c.final := by
  unfold advance
  split <;> rfl

theorem peekSecond_eq (c : Cursor) : c.peekSecond = c.advance.2.peek := by
  unfold peekSecond advance
  split
  · next hu => rw [hu]; rfl
  · next t rest hu => rw [hu]; rfl

namespace Like

variable {c d : Cursor}

theorem at₁ (h : c.Like d) : c.At c.remaining := ⟨h.final₁, rfl⟩

theorem at₂ (h : c.Like d) : d.At d.remaining := ⟨h.final₂, rfl⟩

theorem peek (h : c.Like d) : Same c.peek d.peek := by
  rcases h.remaining.list_cases with ⟨hc, hd⟩ | ⟨t, u, ts, us, hc, hd, htu, -⟩
  · simpa [Cursor.peek, upcoming_nil h.inner₁ hc, upcoming_nil h.inner₂ hd] using h.finals
  · rw [(hc ▸ h.at₁ : c.At (t :: ts)).peek, (hd ▸ h.at₂ : d.At (u :: us)).peek]
    exact htu

theorem advance (h : c.Like d) :
    Same c.advance.1 d.advance.1 ∧ c.advance.2.Like d.advance.2 := by
  have hrest : Same c.advance.1 d.advance.1 ∧
      Same c.advance.2.remaining d.advance.2.remaining := by
    rcases h.remaining.list_cases with ⟨hc, hd⟩ | ⟨t, u, ts, us, hc, hd, htu, hrest⟩
    · simp only [Cursor.advance, upcoming_nil h.inner₁ hc, upcoming_nil h.inner₂ hd]
      exact ⟨h.finals, rfl⟩
    · obtain ⟨ht, hts⟩ := (hc ▸ h.at₁ : c.At (t :: ts)).advance
      obtain ⟨hu, hus⟩ := (hd ▸ h.at₂ : d.At (u :: us)).advance
      rw [ht, hu, hts.remaining, hus.remaining]
      exact ⟨htu, hrest⟩
  refine ⟨hrest.1, ?_, ?_, ?_, ?_, ?_, hrest.2⟩
  · exact fun t ht => h.inner₁ t (c.pending_advance_subset t ht)
  · exact fun t ht => h.inner₂ t (d.pending_advance_subset t ht)
  · rw [final_advance]; exact h.final₁
  · rw [final_advance]; exact h.final₂
  · rw [final_advance, final_advance]; exact h.finals

theorem peekSecond (h : c.Like d) : Same c.peekSecond d.peekSecond := by
  rw [peekSecond_eq, peekSecond_eq]
  exact h.advance.2.peek

end Like

end Cursor

namespace Parse

variable {α : Type}

/-! ## Steps -/

/-- From cursors that are like each other both readers do the same. -/
abbrev InStep (R : α → α → Prop) (x y : Parse α) : Prop := Agree Cursor.Like R x y

/-- The places that a reader has seen are any. -/
abbrev Any (_ _ : α) : Prop := True

theorem peek_inStep : InStep Same peek peek := fun _ _ h => .ok h.peek h

theorem peekSecond_inStep : InStep Same peekSecond peekSecond := fun _ _ h => .ok h.peekSecond h

theorem advance_inStep : InStep Same advance advance := fun _ _ h => .ok h.advance.1 h.advance.2

theorem spanFrom_inStep (s s' : Span) : InStep Any (spanFrom s) (spanFrom s') :=
  fun _ _ h => .ok trivial h

theorem fail_inStep {R : α → α → Prop} (cause : Cause) (s s' : Span) :
    InStep R (fail cause s) (fail cause s') := .throw' (.error_at cause s s')

theorem tooDeep_inStep {R : α → α → Prop} : InStep R tooDeep tooDeep :=
  .bind' peek_inStep (fun t u _ => fail_inStep _ t.span u.span)

theorem unexpected_inStep {R : α → α → Prop} (what : String) :
    InStep R (unexpected what) (unexpected what) := by
  refine .bind' peek_inStep (fun t u htu => ?_)
  obtain ⟨s, rfl⟩ := htu.token
  dsimp only
  cases t.kind <;> exact fail_inStep _ _ _

/-- The place of a token makes no difference to `p`. -/
def Placeless (p : Token → Bool) : Prop := ∀ t s, p { t with span := s } = p t

theorem accept_inStep {p : Token → Bool} (hp : Placeless p) :
    InStep Eq (accept p) (accept p) := by
  refine .bind' peek_inStep (fun t u htu => ?_)
  obtain ⟨s, rfl⟩ := htu.token
  rw [hp t s]
  split
  · exact .bind' advance_inStep (fun _ _ _ => .pure' rfl)
  · exact .pure' rfl

theorem expect_inStep {p : Token → Bool} (hp : Placeless p) (what : String) :
    InStep Same (expect p what) (expect p what) := by
  refine .bind' peek_inStep (fun t u htu => ?_)
  obtain ⟨s, rfl⟩ := htu.token
  rw [hp t s]
  split
  · exact advance_inStep
  · exact unexpected_inStep what

theorem acceptOperator_inStep (word : Operator) :
    InStep Eq (acceptOperator word) (acceptOperator word) := accept_inStep (fun _ _ => rfl)

theorem acceptDelimiter_inStep (text : String) :
    InStep Eq (acceptDelimiter text) (acceptDelimiter text) := accept_inStep (fun _ _ => rfl)

theorem expectKeyword_inStep (word : Keyword) :
    InStep Same (expectKeyword word) (expectKeyword word) := expect_inStep (fun _ _ => rfl) _

theorem expectOperator_inStep (word : Operator) :
    InStep Same (expectOperator word) (expectOperator word) := expect_inStep (fun _ _ => rfl) _

theorem expectDelimiter_inStep (text : String) :
    InStep Same (expectDelimiter text) (expectDelimiter text) := expect_inStep (fun _ _ => rfl) _

theorem expectIdent_inStep (what : String) :
    InStep Same (expectIdent what) (expectIdent what) := by
  refine .bind' (expect_inStep (fun _ _ => rfl) what) (fun t u htu => ?_)
  obtain ⟨s, rfl⟩ := htu.token
  exact .pure' rfl

theorem expectTypeTag_inStep : InStep Any expectTypeTag expectTypeTag := by
  refine .bind' peek_inStep (fun t u htu => ?_)
  obtain ⟨s, rfl⟩ := htu.token
  dsimp only
  split
  · split
    · exact .bind' advance_inStep (fun _ _ _ => .pure' trivial)
    · exact fail_inStep _ _ _
  · exact unexpected_inStep _

theorem expectStatementEnd_inStep : InStep Any expectStatementEnd expectStatementEnd :=
  .bind' (expectKeyword_inStep .naidu) (fun _ _ _ => .pure' trivial)

theorem numberValue_inStep (t : Token) (s : Span) :
    InStep Eq (numberValue t) (numberValue { t with span := s }) := by
  unfold numberValue
  dsimp only
  split
  · exact .pure' rfl
  · exact fail_inStep _ _ _

/-! ## Repetition -/

section Many

variable [Spanned α] {step : Parse (Option α)} {room : Nat} {L : Grammar.Rule α}
  {Ends : List Token → Prop} {Stop : List Token → List Token → Prop}

/-- A round that yields something leaves fewer tokens. -/
theorem Repeats.remaining_lt (h : Repeats step room L Ends Stop) {c : Cursor}
    (hc : c.At c.remaining) (a : α) (c' : Cursor) (e : step c = .ok (some a) c') :
    c'.remaining.length < c.remaining.length := by
  rcases h.sound c.remaining c hc with ⟨o, c'', rest, e', hrest, ho⟩ | ⟨_, _, e', -⟩
  · rw [e] at e'
    cases e'
    obtain ⟨used, k, hused, -, ha⟩ := ho
    have hpos := List.length_pos_iff.2 (h.nonempty ha)
    rw [hused, hrest.remaining, List.length_append]
    omega
  · rw [e] at e'
    cases e'

theorem repeatUpTo_inStep (hrep : Repeats step room L Ends Stop) (h : InStep Same step step) :
    ∀ (n m : Nat) (done done' : List α) (c d : Cursor), Same done done' → c.Like d →
      c.remaining.length < n → d.remaining.length < m →
      Paired Cursor.Like Same (repeatUpTo step n done c) (repeatUpTo step m done' d)
  | 0, _, _, _, _, _, _, _, hn, _ => absurd hn (Nat.not_lt_zero _)
  | _, 0, _, _, _, _, _, _, _, hm => absurd hm (Nat.not_lt_zero _)
  | n + 1, m + 1, done, done', c, d, hdone, hcd, hn, hm => by
    have hstep := h c d hcd
    have hlt₁ := hrep.remaining_lt hcd.at₁
    have hlt₂ := hrep.remaining_lt hcd.at₂
    simp only [repeatUpTo]
    show Paired _ _ (EStateM.bind step _ c) (EStateM.bind step _ d)
    unfold EStateM.bind
    generalize step c = r at hstep hlt₁ ⊢
    generalize step d = r' at hstep hlt₂ ⊢
    cases hstep with
    | error he hs => exact .error he hs
    | @ok o o' c' d' ho hs =>
      rcases ho.option_cases with ⟨rfl, rfl⟩ | ⟨a, b, rfl, rfl, hab⟩
      · exact .ok hdone.reverse hs
      · have h₁ := hlt₁ a c' rfl
        have h₂ := hlt₂ b d' rfl
        exact repeatUpTo_inStep hrep h n m _ _ c' d' (.cons hab hdone) hs (by omega) (by omega)

theorem many_inStep (hrep : Repeats step room L Ends Stop) (h : InStep Same step step) :
    InStep Same (many step) (many step) := by
  intro c d hcd
  refine repeatUpTo_inStep hrep h _ _ _ _ c d .nil hcd ?_ ?_
  · exact Nat.lt_succ_of_le hcd.at₁.length_le
  · exact Nat.lt_succ_of_le hcd.at₂.length_le

end Many

/-! ## Expressions -/

theorem binaryOperator_inStep : ∀ choices : List (Operator × BinaryOp),
    InStep Eq (binaryOperator choices) (binaryOperator choices)
  | [] => .pure' rfl
  | (word, op) :: choices => by
    refine .bind' (acceptOperator_inStep word) ?_
    rintro taken _ rfl
    cases taken with
    | true => exact .pure' rfl
    | false => exact binaryOperator_inStep choices

theorem orderOperator_inStep : InStep Eq orderOperator orderOperator := by
  have hcon : ∀ yes no : BinaryOp, InStep Eq
      (do if ← acceptOperator .con then pure (some yes) else pure (some no))
      (do if ← acceptOperator .con then pure (some yes) else pure (some no)) := by
    intro yes no
    refine .bind' (acceptOperator_inStep .con) ?_
    rintro taken _ rfl
    cases taken <;> exact .pure' rfl
  refine .bind' (acceptOperator_inStep .lacon) ?_
  rintro (_ | _) _ rfl
  · refine .bind' (acceptOperator_inStep .la) ?_
    rintro (_ | _) _ rfl
    · refine .bind' (acceptOperator_inStep .looka) ?_
      rintro (_ | _) _ rfl
      · exact .pure' rfl
      · exact .bind' (expectOperator_inStep .too) (fun _ _ _ => hcon .ge .gt)
    · exact hcon .le .lt
  · exact .pure' rfl

theorem same_binaryNode (op : BinaryOp) {l l' r r' : Expr} (hl : Same l l') (hr : Same r r') :
    Same (binaryNode op l r) (binaryNode op l' r') := by
  show Expr.binary op (bare l) (bare r) .blank = Expr.binary op (bare l') (bare r') .blank
  rw [hl, hr]

theorem same_unaryNode (op : UnaryOp) (s s' : Span) {e e' : Expr} (h : Same e e') :
    Same (unaryNode op s e) (unaryNode op s' e') := by
  show Expr.unary op (bare e) .blank = Expr.unary op (bare e') .blank
  rw [h]

theorem chainRest_inStep {operator : Parse (Option BinaryOp)} {operand : Nat → Parse Expr}
    (ho : InStep Eq operator operator) : ∀ (room : Nat) {left left' : Expr}, Same left left' →
    (∀ r < room, InStep Same (operand r) (operand r)) →
    InStep Same (chainRest operator operand room left) (chainRest operator operand room left')
  | 0, left, left', hleft, _ => by
    refine .bind' ho ?_
    rintro (_ | op) _ rfl
    · exact .pure' hleft
    · exact tooDeep_inStep
  | room + 1, left, left', hleft, hx => by
    refine .bind' ho ?_
    rintro (_ | op) _ rfl
    · exact .pure' hleft
    · refine .bind' (hx room (Nat.lt_succ_self room)) (fun right right' hright => ?_)
      exact chainRest_inStep ho room (same_binaryNode op hleft hright)
        (fun r hr => hx r (Nat.lt_succ_of_lt hr))

theorem chain_inStep {operator : Parse (Option BinaryOp)} {operand : Nat → Parse Expr} {room : Nat}
    (ho : InStep Eq operator operator) (hx : ∀ r ≤ room, InStep Same (operand r) (operand r)) :
    InStep Same (chain operator operand room) (chain operator operand room) :=
  .bind' (hx room (Nat.le_refl room)) (fun _ _ hfirst =>
    chainRest_inStep ho room hfirst (fun r hr => hx r (Nat.le_of_lt hr)))

theorem nextArgument_inStep {nested : Parse Expr} (hn : InStep Same nested nested) :
    InStep Same (nextArgument nested) (nextArgument nested) := by
  refine .bind' (acceptDelimiter_inStep ",") ?_
  rintro (_ | _) _ rfl
  · refine .bind' (acceptDelimiter_inStep ")") ?_
    rintro (_ | _) _ rfl
    · exact unexpected_inStep _
    · exact .pure' rfl
  · exact .bind' hn (fun _ _ he => .pure' he.some)

/-- Whole expressions are read in step, and as the grammar says. -/
structure Nested (nested : Parse Expr) (room : Nat) : Prop where
  reads : Reads nested room Grammar.Expression Grammar.Closed
  inStep : InStep Same nested nested

theorem call_inStep {nested : Parse Expr} {room : Nat} (hn : Nested nested room)
    {callee callee' : Ident} (hc : Same callee callee') :
    InStep Same (call nested callee) (call nested callee') := by
  have hend : ∀ args args' : List Expr, Same args args' → InStep Same
      (do pure (Expr.call callee args (← spanFrom callee.span)))
      (do pure (Expr.call callee' args' (← spanFrom callee'.span))) := by
    intro args args' hargs
    refine .bind' (spanFrom_inStep _ _) (fun s s' _ => .pure' ?_)
    show Expr.call (bare callee) (Expr.bareAll args) .blank =
      Expr.call (bare callee') (Expr.bareAll args') .blank
    rw [Expr.bareAll_eq, Expr.bareAll_eq, hc, hargs]
  refine .bind' advance_inStep (fun _ _ _ => ?_)
  refine .bind' (acceptDelimiter_inStep ")") ?_
  rintro (_ | _) _ rfl
  · refine .bind' hn.inStep (fun first first' hfirst => ?_)
    refine .bind' (many_inStep (nextArgument_repeats hn.reads) (nextArgument_inStep hn.inStep))
      (fun rest rest' hrest => ?_)
    exact .bind' (R := Same) (.pure' (.cons hfirst hrest)) hend
  · exact .bind' (R := Same) (.pure' .nil) hend

theorem primary_inStep {nested : Parse Expr} {room : Nat} (hn : Nested nested room) :
    InStep Same (primary nested) (primary nested) := by
  refine .bind' peek_inStep (fun t u htu => ?_)
  obtain ⟨s, rfl⟩ := htu.token
  dsimp only
  split
  · refine .bind' advance_inStep (fun _ _ _ => ?_)
    refine .bind' (numberValue_inStep t s) ?_
    rintro v _ rfl
    exact .pure' rfl
  · exact .bind' advance_inStep (fun _ _ _ => .pure' rfl)
  · exact .bind' advance_inStep (fun _ _ _ => .pure' rfl)
  · exact .bind' advance_inStep (fun _ _ _ => .pure' rfl)
  · refine .bind' advance_inStep (fun _ _ _ => ?_)
    split
    · exact .pure' rfl
    · refine .bind' peek_inStep (fun v w hvw => ?_)
      obtain ⟨s', rfl⟩ := hvw.token
      show InStep Same (if v.isDelimiter "(" then _ else _) (if v.isDelimiter "(" then _ else _)
      split
      · exact call_inStep hn rfl
      · exact .pure' rfl
  · show InStep Same (if t.isDelimiter "(" then _ else _) (if t.isDelimiter "(" then _ else _)
    split
    · refine .bind' advance_inStep (fun _ _ _ => ?_)
      refine .bind' hn.inStep (fun inner inner' hinner => ?_)
      exact .bind' (expectDelimiter_inStep ")") (fun _ _ _ => .pure' hinner)
    · exact unexpected_inStep _

theorem powerOf_inStep {exponent base : Parse Expr} (hx : InStep Same exponent exponent)
    (hb : InStep Same base base) :
    InStep Same (powerOf exponent base) (powerOf exponent base) := by
  refine .bind' hb (fun b b' hb' => ?_)
  refine .bind' (acceptOperator_inStep .beedo) ?_
  rintro (_ | _) _ rfl
  · exact .pure' hb'
  · exact .bind' hx (fun e e' he => .pure' (same_binaryNode .pow hb' he))

theorem unaryOf_inStep {opOf : Token → Option UnaryOp} {operand plain : Parse Expr}
    (hop : ∀ t s, opOf { t with span := s } = opOf t) (hx : InStep Same operand operand)
    (hp : InStep Same plain plain) :
    InStep Same (unaryOf opOf operand plain) (unaryOf opOf operand plain) := by
  refine .bind' peek_inStep (fun t u htu => ?_)
  obtain ⟨s, rfl⟩ := htu.token
  rw [hop t s]
  cases opOf t with
  | none => exact hp
  | some op =>
    refine .bind' advance_inStep (fun _ _ _ => ?_)
    exact .bind' hx (fun e e' he => .pure' (same_unaryNode op _ _ he))

section Tower

variable {nested : Nat → Parse Expr}

theorem power_inStep : ∀ room, (∀ r ≤ room, Nested (nested r) r) →
    InStep Same (power nested room) (power nested room)
  | 0, hn => powerOf_inStep tooDeep_inStep (primary_inStep (hn 0 (Nat.le_refl 0)))
  | room + 1, hn =>
    powerOf_inStep (power_inStep room (fun r hr => hn r (by omega)))
      (primary_inStep (hn (room + 1) (Nat.le_refl _)))

theorem signed_inStep : ∀ room, (∀ r ≤ room, Nested (nested r) r) →
    InStep Same (signed nested room) (signed nested room)
  | 0, hn => unaryOf_inStep (fun _ _ => rfl) tooDeep_inStep (power_inStep 0 hn)
  | room + 1, hn =>
    unaryOf_inStep (fun _ _ => rfl) (signed_inStep room (fun r hr => hn r (by omega)))
      (power_inStep (room + 1) hn)

variable {room : Nat} (hn : ∀ r ≤ room, Nested (nested r) r)
include hn

theorem equality_inStep : ∀ r ≤ room, InStep Same (equality nested r) (equality nested r) := by
  have hproduct : ∀ r ≤ room, InStep Same (product nested r) (product nested r) := fun r hr =>
    chain_inStep (binaryOperator_inStep _)
      (fun s hs => signed_inStep s (fun q hq => hn q (by omega)))
  have hsum : ∀ r ≤ room, InStep Same (sum nested r) (sum nested r) := fun r hr =>
    chain_inStep (binaryOperator_inStep _) (fun s hs => hproduct s (by omega))
  have horder : ∀ r ≤ room, InStep Same (order nested r) (order nested r) := fun r hr =>
    chain_inStep orderOperator_inStep (fun s hs => hsum s (by omega))
  exact fun r hr => chain_inStep (binaryOperator_inStep _) (fun s hs => horder s (by omega))

theorem negation_inStep : ∀ r ≤ room, InStep Same (negation nested r) (negation nested r)
  | 0, hr => unaryOf_inStep (fun _ _ => rfl) tooDeep_inStep (equality_inStep hn 0 hr)
  | r + 1, hr =>
    unaryOf_inStep (fun _ _ => rfl) (negation_inStep r (by omega)) (equality_inStep hn (r + 1) hr)

theorem disjunction_inStep : InStep Same (disjunction nested room) (disjunction nested room) := by
  have hconjunction : ∀ r ≤ room, InStep Same (conjunction nested r) (conjunction nested r) :=
    fun r hr => chain_inStep (binaryOperator_inStep _) (fun s hs => negation_inStep hn s (by omega))
  exact chain_inStep (binaryOperator_inStep _) hconjunction

end Tower

theorem expressionWithin_nested : ∀ depth room, room ≤ depth →
    Nested (expressionWithin depth room) room
  | 0, 0, h => ⟨expressionWithin_reads 0 0 h, tooDeep_inStep⟩
  | depth + 1, 0, h => ⟨expressionWithin_reads (depth + 1) 0 h, tooDeep_inStep⟩
  | depth + 1, room + 1, h =>
    ⟨expressionWithin_reads (depth + 1) (room + 1) h,
      disjunction_inStep (fun r hr => expressionWithin_nested depth r (by omega))⟩

theorem expression_inStep (room : Nat) : InStep Same (expression room) (expression room) :=
  (expressionWithin_nested room room (Nat.le_refl room)).inStep

theorem standaloneExpression_inStep : InStep Same standaloneExpression standaloneExpression := by
  refine .bind' (expression_inStep maxNesting) (fun e e' he => ?_)
  refine .bind' peek_inStep (fun t u htu => ?_)
  obtain ⟨s, rfl⟩ := htu.token
  show InStep Same (if t.isEnd then _ else _) (if t.isEnd then _ else _)
  split
  · exact .pure' he
  · exact fail_inStep _ _ _

/-! ## Statements -/

section Statements

variable {blockR : Parse Block} {expr : Parse Expr}

theorem declaration_inStep : InStep Same declaration declaration := by
  refine .bind' advance_inStep (fun t u _ => ?_)
  refine .bind' (expectIdent_inStep _) (fun name name' hname => ?_)
  refine .bind' expectTypeTag_inStep (fun _ _ _ => ?_)
  refine .bind' expectStatementEnd_inStep (fun _ _ _ => ?_)
  refine .bind' (spanFrom_inStep _ _) (fun s s' _ => .pure' ?_)
  exact congrArg (Stmt.declare · .blank) hname

theorem inputStatement_inStep : InStep Same inputStatement inputStatement := by
  refine .bind' advance_inStep (fun t u _ => ?_)
  refine .bind' (expectDelimiter_inStep "(") (fun _ _ _ => ?_)
  refine .bind' (expectIdent_inStep _) (fun name name' hname => ?_)
  refine .bind' (expectDelimiter_inStep ")") (fun _ _ _ => ?_)
  refine .bind' expectStatementEnd_inStep (fun _ _ _ => ?_)
  refine .bind' (spanFrom_inStep _ _) (fun s s' _ => .pure' ?_)
  exact congrArg (Stmt.input · .blank) hname

variable (he : InStep Same expr expr)
include he

theorem condition_inStep : InStep Same (condition expr) (condition expr) := by
  refine .bind' (expectDelimiter_inStep "(") (fun _ _ _ => ?_)
  refine .bind' he (fun value value' hvalue => ?_)
  exact .bind' (expectDelimiter_inStep ")") (fun _ _ _ => .pure' hvalue)

theorem outputStatement_inStep : InStep Same (outputStatement expr) (outputStatement expr) := by
  rw [outputStatement_eq]
  refine .bind' advance_inStep (fun t u _ => ?_)
  refine .bind' (expectKeyword_inStep .ti) (fun _ _ _ => ?_)
  refine .bind' (expectKeyword_inStep .amo) (fun _ _ _ => ?_)
  refine .bind' (condition_inStep he) (fun value value' hvalue => ?_)
  refine .bind' expectStatementEnd_inStep (fun _ _ _ => ?_)
  refine .bind' (spanFrom_inStep _ _) (fun s s' _ => .pure' ?_)
  exact congrArg (Stmt.output · .blank) hvalue

theorem returnStatement_inStep : InStep Same (returnStatement expr) (returnStatement expr) := by
  refine .bind' advance_inStep (fun t u _ => ?_)
  refine .bind' (expectKeyword_inStep .yu) (fun _ _ _ => ?_)
  refine .bind' he (fun value value' hvalue => ?_)
  refine .bind' expectStatementEnd_inStep (fun _ _ _ => ?_)
  refine .bind' (spanFrom_inStep _ _) (fun s s' _ => .pure' ?_)
  exact congrArg (Stmt.giveBack · .blank) hvalue

/-- A name and the operator after it are told from an expression by kinds alone. -/
theorem assignmentOrExpression_inStep :
    InStep Same (assignmentOrExpression expr) (assignmentOrExpression expr) := by
  refine .bind' peek_inStep (fun t u htu => ?_)
  refine .bind' peekSecond_inStep (fun v w hvw => ?_)
  obtain ⟨s, rfl⟩ := htu.token
  obtain ⟨s', rfl⟩ := hvw.token
  show InStep Same (if t.kind = .identifier ∧ v.isOperator .lumai then _ else _)
    (if t.kind = .identifier ∧ v.isOperator .lumai then _ else _)
  split
  · refine .bind' (expectIdent_inStep _) (fun target target' htarget => ?_)
    refine .bind' advance_inStep (fun _ _ _ => ?_)
    refine .bind' he (fun value value' hvalue => ?_)
    refine .bind' expectStatementEnd_inStep (fun _ _ _ => ?_)
    refine .bind' (spanFrom_inStep _ _) (fun s s' _ => .pure' ?_)
    show Stmt.assign (bare target) (bare value) .blank = .assign (bare target') (bare value') .blank
    rw [htarget, hvalue]
  · refine .bind' he (fun value value' hvalue => ?_)
    refine .bind' expectStatementEnd_inStep (fun _ _ _ => ?_)
    refine .bind' (spanFrom_inStep _ _) (fun s s' _ => .pure' ?_)
    exact congrArg (Stmt.evaluate · .blank) hvalue

variable (hb : InStep Same blockR blockR)
include hb

theorem choice_inStep : InStep Same (choice blockR expr) (choice blockR expr) := by
  refine .bind' advance_inStep (fun t u _ => ?_)
  refine .bind' (condition_inStep he) (fun test test' htest => ?_)
  refine .bind' hb (fun yes yes' hyes => ?_)
  have hend : ∀ no no' : Option Block, Same no no' → InStep Same
      (do pure (Stmt.choose test yes no (← spanFrom t.span)))
      (do pure (Stmt.choose test' yes' no' (← spanFrom u.span))) := by
    intro no no' hno
    refine .bind' (spanFrom_inStep _ _) (fun s s' _ => .pure' ?_)
    have hbare : ∀ (e : Expr) (y : Block) (n : Option Block) (s : Span),
        bare (Stmt.choose e y n s) = .choose (bare e) (bare y) (bare n) .blank := by
      intro e y n s
      cases n <;> rfl
    rw [Same, hbare, hbare, htest, hyes, hno]
  refine .bind' peek_inStep (fun v w hvw => ?_)
  obtain ⟨s, rfl⟩ := hvw.token
  show InStep Same (if v.isKeyword .uhOh then _ else _) (if v.isKeyword .uhOh then _ else _)
  split
  · refine .bind' advance_inStep (fun _ _ _ => ?_)
    refine .bind' hb (fun no no' hno => ?_)
    exact .bind' (R := Same) (.pure' hno.some) hend
  · exact .bind' (R := Same) (.pure' rfl) hend

theorem whileLoop_inStep : InStep Same (whileLoop blockR expr) (whileLoop blockR expr) := by
  refine .bind' advance_inStep (fun t u _ => ?_)
  refine .bind' (condition_inStep he) (fun test test' htest => ?_)
  refine .bind' hb (fun body body' hbody => ?_)
  refine .bind' (spanFrom_inStep _ _) (fun s s' _ => .pure' ?_)
  show Stmt.repeatWhile (bare test) (bare body) .blank =
    .repeatWhile (bare test') (bare body') .blank
  rw [htest, hbody]

theorem countLoop_inStep : InStep Same (countLoop blockR expr) (countLoop blockR expr) := by
  refine .bind' advance_inStep (fun t u _ => ?_)
  refine .bind' (expectDelimiter_inStep "(") (fun _ _ _ => ?_)
  refine .bind' (expectIdent_inStep _) (fun counter counter' hcounter => ?_)
  refine .bind' (expectDelimiter_inStep "=") (fun _ _ _ => ?_)
  refine .bind' he (fun first first' hfirst => ?_)
  refine .bind' (expect_inStep (fun _ _ => rfl) _) (fun _ _ _ => ?_)
  refine .bind' he (fun last last' hlast => ?_)
  refine .bind' (expectDelimiter_inStep ")") (fun _ _ _ => ?_)
  refine .bind' hb (fun body body' hbody => ?_)
  refine .bind' (spanFrom_inStep _ _) (fun s s' _ => .pure' ?_)
  show Stmt.count (bare counter) (bare first) (bare last) (bare body) .blank =
    .count (bare counter') (bare first') (bare last') (bare body') .blank
  rw [hcounter, hfirst, hlast, hbody]

theorem statement_inStep : InStep Same (statement blockR expr) (statement blockR expr) := by
  refine .bind' peek_inStep (fun t u htu => ?_)
  obtain ⟨s, rfl⟩ := htu.token
  dsimp only
  split
  · exact declaration_inStep
  · exact inputStatement_inStep
  · exact outputStatement_inStep he
  · exact choice_inStep he hb
  · exact whileLoop_inStep he hb
  · exact countLoop_inStep he hb
  · exact returnStatement_inStep he
  · exact .bind' hb (fun b b' hb' => .pure' (congrArg Stmt.block hb'))
  · exact unexpected_inStep _
  · exact assignmentOrExpression_inStep he

end Statements

theorem nextStatement_inStep {x : Parse Stmt} (hx : InStep Same x x) :
    InStep Same (nextStatement x) (nextStatement x) := by
  refine .bind' peek_inStep (fun t u htu => ?_)
  obtain ⟨s, rfl⟩ := htu.token
  show InStep Same (if t.isKeyword .stopa then _ else if t.isEnd then _ else _)
    (if t.isKeyword .stopa then _ else if t.isEnd then _ else _)
  split
  · exact .pure' rfl
  · split
    · exact unexpected_inStep _
    · exact .bind' hx (fun s s' hs => .pure' hs.some)

theorem block_inStep (room : Nat) : InStep Same (block room) (block room) := by
  induction room with
  | zero => exact tooDeep_inStep
  | succ room ih =>
    refine .bind' (expectKeyword_inStep .oca) (fun t u _ => ?_)
    have hstatement := statement_inStep (expression_inStep room) ih
    have hrepeats :=
      nextStatement_repeats (statement_reads (block_reads room) (expression_reads room))
    refine .bind' (many_inStep hrepeats (nextStatement_inStep hstatement)) (fun ss ss' hss => ?_)
    refine .bind' advance_inStep (fun _ _ _ => ?_)
    refine .bind' (spanFrom_inStep _ _) (fun s s' _ => .pure' ?_)
    show Block.mk (Stmt.bareAll ss) .blank = .mk (Stmt.bareAll ss') .blank
    rw [Stmt.bareAll_eq, Stmt.bareAll_eq, hss]

/-! ## Programs -/

theorem constantDecl_inStep : InStep Same constantDecl constantDecl := by
  refine .bind' advance_inStep (fun t u _ => ?_)
  refine .bind' (expectIdent_inStep _) (fun name name' hname => ?_)
  refine .bind' expectTypeTag_inStep (fun _ _ _ => ?_)
  have hend : ∀ value value' : ConstantValue, value = value' → InStep Same
      (do
        expectStatementEnd
        pure (⟨name, value, ← spanFrom t.span⟩ : ConstantDecl))
      (do
        expectStatementEnd
        pure ⟨name', value', ← spanFrom u.span⟩) := by
    rintro value _ rfl
    refine .bind' expectStatementEnd_inStep (fun _ _ _ => ?_)
    refine .bind' (spanFrom_inStep _ _) (fun s s' _ => .pure' ?_)
    exact congrArg (ConstantDecl.mk · value .blank) hname
  refine .bind' peek_inStep (fun v w hvw => ?_)
  obtain ⟨s, rfl⟩ := hvw.token
  dsimp only
  split
  · refine .bind' advance_inStep (fun _ _ _ => ?_)
    refine .bind' (numberValue_inStep v s) ?_
    rintro d _ rfl
    exact .bind' (R := Eq) (.pure' rfl) hend
  · split
    · refine .bind' advance_inStep (fun _ _ _ => ?_)
      exact .bind' (R := Eq) (.pure' rfl) hend
    · exact .bind' (R := Eq) (unexpected_inStep _) hend

theorem nextParameter_inStep : InStep Same nextParameter nextParameter := by
  refine .bind' (acceptDelimiter_inStep ",") ?_
  rintro (_ | _) _ rfl
  · exact .pure' rfl
  · exact .bind' (expectIdent_inStep _) (fun name name' hname => .pure' hname.some)

theorem parameters_inStep : InStep Same parameters parameters := by
  refine .bind' peek_inStep (fun t u htu => ?_)
  obtain ⟨s, rfl⟩ := htu.token
  show InStep Same (if t.isDelimiter ")" then _ else _) (if t.isDelimiter ")" then _ else _)
  split
  · exact .pure' .nil
  · refine .bind' (expectIdent_inStep _) (fun first first' hfirst => ?_)
    refine .bind' (many_inStep (nextParameter_repeats 0) nextParameter_inStep) ?_
    exact fun rest rest' hrest => .pure' (.cons hfirst hrest)

theorem function_inStep (room : Nat) : InStep Same (function room) (function room) := by
  refine .bind' advance_inStep (fun t u _ => ?_)
  refine .bind' (expectIdent_inStep _) (fun name name' hname => ?_)
  refine .bind' expectTypeTag_inStep (fun _ _ _ => ?_)
  refine .bind' (expectDelimiter_inStep "(") (fun _ _ _ => ?_)
  refine .bind' parameters_inStep (fun params params' hparams => ?_)
  refine .bind' (expectDelimiter_inStep ")") (fun _ _ _ => ?_)
  refine .bind' (block_inStep room) (fun body body' hbody => ?_)
  refine .bind' (spanFrom_inStep _ _) (fun s s' _ => .pure' ?_)
  show Function.mk (bare name) (bare params) (bare body) .blank =
    ⟨bare name', bare params', bare body', .blank⟩
  rw [hname, hparams, hbody]

theorem item_inStep (room : Nat) : InStep Same (item room) (item room) := by
  refine .bind' peek_inStep (fun t u htu => ?_)
  obtain ⟨s, rfl⟩ := htu.token
  show InStep Same (if t.isKeyword .trusela then _ else if t.isKeyword .boss then _ else _)
    (if t.isKeyword .trusela then _ else if t.isKeyword .boss then _ else _)
  split
  · exact .bind' constantDecl_inStep (fun _ _ h => .pure' (congrArg Item.constant h))
  · split
    · exact .bind' (function_inStep room) (fun _ _ h => .pure' (congrArg Item.function h))
    · exact .bind' (statement_inStep (expression_inStep room) (block_inStep room))
        (fun _ _ h => .pure' (congrArg Item.statement h))

theorem nextItem_inStep (room : Nat) : InStep Same (nextItem room) (nextItem room) := by
  refine .bind' peek_inStep (fun t u htu => ?_)
  obtain ⟨s, rfl⟩ := htu.token
  show InStep Same (if t.isEnd then _ else _) (if t.isEnd then _ else _)
  split
  · exact .pure' rfl
  · exact .bind' (item_inStep room) (fun i i' hi => .pure' hi.some)

theorem programWithin_inStep (room : Nat) :
    InStep Same (programWithin room) (programWithin room) := by
  refine .bind' (expectKeyword_inStep .bello) (fun _ _ _ => ?_)
  refine .bind' (many_inStep (nextItem_repeats room) (nextItem_inStep room)) ?_
  exact fun items items' hitems => .pure' (congrArg Program.mk hitems)

end Parse

/-! ## Sources -/

/-- The cursor at the start of a source has all its tokens before it and its end behind. -/
theorem Cursor.ofSource_eq (source : String) : ∃ body n,
    Token.tokenize source = body ++ [.endOfInput n] ∧ (∀ t ∈ body, t.isEnd = false) ∧
      Cursor.ofSource source = ⟨body, .endOfInput n, 0⟩ := by
  obtain ⟨body, hend, hbody⟩ := (Token.tokenize_tiles source).ends
  refine ⟨body, _, hend, fun t ht => (hbody t ht).2, ?_⟩
  simp only [Cursor.ofSource, Cursor.ofTokens, hend, List.getLast?_concat, List.dropLast_concat]
  rfl

/-- The significant tokens of a source without their places: what they are, in order. -/
def Token.placeless (source : String) : List Token := Spanned.bare (significant (tokenize source))

theorem Token.mem_placeless {source : String} :
    ∀ t ∈ placeless source, t.isTrivia = false ∧ t.isEnd = false := by
  intro t ht
  obtain ⟨u, hu, rfl⟩ := List.mem_map.1 ht
  have hend := List.all_eq_true.1 List.all_takeWhile u hu
  have htrivia := (List.mem_filter.1 ((List.takeWhile_sublist _).subset hu)).2
  show u.isTrivia = false ∧ u.isEnd = false
  exact ⟨by simpa using htrivia, by simpa using hend⟩

/-- A cursor over them. -/
def Cursor.placeless (source : String) : Cursor := ⟨Token.placeless source, .endOfInput 0, 0⟩

theorem Cursor.placeless_at (source : String) :
    (placeless source).At (Token.placeless source) := by
  refine ⟨rfl, ?_⟩
  show Token.significant (Token.placeless source) = _
  rw [significant_of_inner (fun t ht => (Token.mem_placeless t ht).2)]
  exact List.filter_eq_self.2 (fun t ht => by simp [(Token.mem_placeless t ht).1])

theorem Cursor.Like.placeless (source : String) :
    (Cursor.placeless source).Like (.ofSource source) := by
  obtain ⟨body, n, htokens, hbody, hc⟩ := Cursor.ofSource_eq source
  refine ⟨fun t ht => (Token.mem_placeless t ht).2, ?_, rfl, ?_, ?_, ?_⟩
  · rw [hc]; exact hbody
  · rw [hc]; rfl
  · rw [hc]; rfl
  · rw [(Cursor.placeless_at source).remaining, Token.placeless, htokens,
      Cursor.significant_concat_end body rfl, hc]
    show bare (bare (Token.significant body)) = bare (Token.significant body)
    exact (List.map_map ..).trans rfl

/-- What a reader does on the tokens of a source without places it does on the source. -/
theorem Parse.Runs.on_source {α : Type} [Spanned α] {x : Parse α} {source : String}
    {Q : α → Prop} {E : Error → Prop}
    (h : Runs x (Token.placeless source) (fun a _ => Q a) E) (hx : InStep Same x x) :
    (∃ a b c, x (.ofSource source) = .ok b c ∧ bare a = bare b ∧ Q a) ∨
      (∃ e e' c, x (.ofSource source) = .error e' c ∧ e.cause = e'.cause ∧ E e) := by
  have hstep := hx _ _ (Cursor.Like.placeless source)
  rcases h _ (Cursor.placeless_at source) with ⟨a, _, _, hr, -, hQ⟩ | ⟨e, _, hr, hE⟩
  · rw [hr] at hstep
    generalize x (.ofSource source) = r at hstep ⊢
    cases hstep with
    | ok hsame _ => exact .inl ⟨a, _, _, rfl, hsame, hQ⟩
  · rw [hr] at hstep
    generalize x (.ofSource source) = r at hstep ⊢
    cases hstep with
    | error hsame _ => exact .inr ⟨e, _, _, rfl, (Error.mk.inj hsame).1, hE⟩

namespace Program

variable {source : String} {p : Program}

theorem ofSource_ok {c : Cursor}
    (h : Parse.programWithin Parse.maxNesting (.ofSource source) = .ok p c) :
    ofSource source = .ok p := by
  simp only [ofSource, read, Parse.program, h]

theorem ofSource_error {e : Error} {c : Cursor}
    (h : Parse.programWithin Parse.maxNesting (.ofSource source) = .error e c) :
    ofSource source = .error e := by
  simp only [ofSource, read, Parse.program, h]

/-- A program that is read is derived from the tokens of its source, within the limit. -/
theorem derives_of_ofSource (h : ofSource source = .ok p) :
    ∃ k, Grammar.Derives (Token.placeless source) (Spanned.bare p) k ∧ k ≤ Parse.maxNesting := by
  rcases (Parse.programWithin_sound Parse.maxNesting _).on_source (Parse.programWithin_inStep _)
    with ⟨q, p', _, hr, hsame, hderives⟩ | ⟨_, e, _, hr, -⟩
  · cases h.symm.trans (ofSource_ok hr)
    rw [← show Spanned.bare q = Spanned.bare p from hsame]
    exact hderives
  · cases h.symm.trans (ofSource_error hr)

/-- What the grammar derives from the tokens of a source is read from it, unless it nests too
    deep. -/
theorem ofSource_of_derives {k : Nat} (h : Grammar.Derives (Token.placeless source) p k) :
    (k ≤ Parse.maxNesting → ∃ p', ofSource source = .ok p' ∧ Spanned.bare p' = p) ∧
    (Parse.maxNesting < k → ∃ e, ofSource source = .error e ∧
      e.cause = .nestingTooDeep Parse.maxNesting) := by
  rcases (Parse.programWithin_complete Parse.maxNesting h).on_source (Parse.programWithin_inStep _)
    with ⟨_, p', _, hr, hsame, hk, rfl⟩ | ⟨_, e, _, hr, hcause, hk, he⟩
  · exact ⟨fun _ => ⟨p', ofSource_ok hr, hsame.symm⟩, fun hlt => by omega⟩
  · exact ⟨fun hle => by omega, fun _ => ⟨e, ofSource_error hr, hcause.symm.trans he⟩⟩

end Program

namespace Expr

variable {source : String} {e : Expr}

theorem ofSource_ok {c : Cursor}
    (h : Parse.standaloneExpression (.ofSource source) = .ok e c) : ofSource source = .ok e := by
  simp only [ofSource, h]

theorem ofSource_error {err : Error} {c : Cursor}
    (h : Parse.standaloneExpression (.ofSource source) = .error err c) :
    ofSource source = .error err := by
  simp only [ofSource, h]

/-- An expression that is read is derived from the tokens of its source, within the limit. -/
theorem derives_of_ofSource (h : ofSource source = .ok e) :
    ∃ k, Grammar.Expression (Token.placeless source) (Spanned.bare e) k ∧
      k ≤ Parse.maxNesting := by
  rcases (Parse.standaloneExpression_sound _).on_source Parse.standaloneExpression_inStep
    with ⟨a, e', _, hr, hsame, hderives⟩ | ⟨_, err, _, hr, -⟩
  · cases h.symm.trans (ofSource_ok hr)
    rw [← show Spanned.bare a = Spanned.bare e from hsame]
    exact hderives
  · cases h.symm.trans (ofSource_error hr)

/-- What the grammar derives from the tokens of a source within the limit is read from it. -/
theorem ofSource_of_derives {k : Nat} (h : Grammar.Expression (Token.placeless source) e k)
    (hk : k ≤ Parse.maxNesting) : ∃ e', ofSource source = .ok e' ∧ Spanned.bare e' = e := by
  rcases (Parse.standaloneExpression_complete h).on_source Parse.standaloneExpression_inStep
    with ⟨_, e', _, hr, hsame, -, rfl⟩ | ⟨_, _, _, _, _, hlt, -⟩
  · exact ⟨e', ofSource_ok hr, hsame.symm⟩
  · omega

end Expr

end Bello
