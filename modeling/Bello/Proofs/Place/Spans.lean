import Bello.Proofs.Place.Rows

/- Every node that is read is neat.

   There is one lemma for each form of the grammar: it follows the row of nodes through the
   form and closes it with the node that the form makes. Expressions, blocks, statements and
   items start at the next token or after it (`Spans`); forms that are chosen by their first
   word take it first (`Forms`). The spans of a whole program follow from the row of its items
   (`Program.spans_nest`). -/
namespace Bello

namespace Parse

variable {α : Type} {source : String} {t : Token} {c : Cursor}

/-! ## Expressions -/

section Levels

variable {operator : Parse (Option BinaryOp)} {operand : Nat → Parse Expr}
  (ho : Skips source operator) (hx : ∀ room, Spans source .expr (operand room))
include ho hx

theorem chainRest_since : ∀ (room : Nat) {left : Expr} {c : Cursor},
    c.Since source t [.expr left] →
    Gives (chainRest operator operand room left) c (fun e c' => c'.Since source t [.expr e])
  | 0, left, c, hleft => by
    refine .bind' (ho hleft) (fun o c' h => ?_)
    cases o with
    | none => exact .pure' h
    | some op => exact .tooDeep'
  | room + 1, left, c, hleft => by
    refine .bind' (ho hleft) (fun o c' h => ?_)
    cases o with
    | none => exact .pure' h
    | some op =>
      refine .bind' ((hx room).appends h) (fun right c'' hright => ?_)
      exact chainRest_since room (binaryNode_since op hright)

theorem chain_spans (room : Nat) : Spans source .expr (chain operator operand room) :=
  fun _ hc => .bind' (hx room hc) (fun _ _ hfirst => chainRest_since ho hx room hfirst)

end Levels

section Nested

variable {nested : Parse Expr} (hn : Spans source .expr nested)
include hn

theorem nextArgument_appends :
    Appends source (fun o => o.toList.map .expr) (nextArgument nested) := by
  intro t ns c hc
  refine .bind' (accept_skips _ hc) (fun comma c h => ?_)
  split
  · exact round_appends hn h
  refine .bind' (accept_skips _ h) (fun closed c h => ?_)
  split
  · exact .pure' (by simpa using h)
  · exact .unexpected'

/-- The span of a call goes from the name that it calls to the closing parenthesis. -/
theorem call_since (ht : t.Of source) (hc : c.Since source t []) :
    Gives (call nested ⟨t.lexeme, t.span⟩) c (fun e c' => c'.Since source t [.expr e]) := by
  have hcallee : c.Since source t [.ident ⟨t.lexeme, t.span⟩] :=
    leaf_since ht hc rfl rfl (by rintro name ⟨⟩; rfl)
  have hend : ∀ (args : List Expr) (c : Cursor),
      c.Since source t (.ident ⟨t.lexeme, t.span⟩ :: args.map .expr) →
      Gives (do pure (Expr.call ⟨t.lexeme, t.span⟩ args (← spanFrom t.span))) c
        (fun e c' => c'.Since source t [.expr e]) := by
    intro args c h
    exact spanned_since ht h (fun _ => rfl) (fun _ => rfl) (fun _ => rfl)
  refine .bind' (advance_skips hcallee) (fun _ c h => ?_)
  refine .bind' (accept_skips _ h) (fun closed c h => ?_)
  split
  · exact .bind' (.pure' h) (fun args c h => hend args c h)
  · refine .bind' (hn.appends h) (fun first c h => ?_)
    refine .bind' (many_appends (nextArgument_appends hn) h) (fun rest c h => ?_)
    exact .bind' (.pure' h) (fun args c h => hend args c h)

theorem primary_spans : Spans source .expr (primary nested) := by
  intro c hc
  refine .peek' ?_
  -- A token by itself is a node with its span.
  have hleaf : ∀ {make : Span → Expr}, c.peek.isEnd = false →
      (∀ s, (Node.expr (make s)).span = s) → (∀ s, (Node.expr (make s)).children = []) →
      Gives (do let _ ← advance; pure (make c.peek.span)) c
        (fun e c' => c'.Since source c.peek [.expr e]) := by
    intro make hinner hspan hchildren
    refine advance_begins hc hinner (fun c' hof h => .pure' ?_)
    exact leaf_since hof h (hspan _) (hchildren _) (by simp [Node.name?])
  split
  · next hkind =>
    refine advance_begins hc (by simp [Token.isEnd, hkind]) (fun c' hof h => ?_)
    refine .bind' (numberValue_skips _ h) (fun v c' h => .pure' ?_)
    exact leaf_since hof h rfl rfl (by simp [Node.name?])
  · next hkind => exact hleaf (by simp [Token.isEnd, hkind]) (fun _ => rfl) (fun _ => rfl)
  · next hkind => exact hleaf (by simp [Token.isEnd, hkind]) (fun _ => rfl) (fun _ => rfl)
  · next hkind => exact hleaf (by simp [Token.isEnd, hkind]) (fun _ => rfl) (fun _ => rfl)
  · next hkind =>
    refine advance_begins hc (by simp [Token.isEnd, hkind]) (fun c' hof h => ?_)
    split
    · exact .pure' (leaf_since hof h rfl rfl (by simp [Node.name?]))
    · refine .peek' ?_
      split
      · exact call_since hn hof h
      · have hname : c'.Since source c.peek [.ident ⟨c.peek.lexeme, c.peek.span⟩] :=
          leaf_since hof h rfl rfl (by rintro name ⟨⟩; rfl)
        exact .pure' (wrap_since hname rfl rfl rfl)
  · split
    · next hopen =>
      have hinner : c.peek.isEnd = false := (Token.inner_delimiter "(").isEnd hopen
      refine advance_begins hc hinner (fun c' hof h => ?_)
      refine .bind' (hn.appends h) (fun inner c' h => ?_)
      exact .bind' (expect_skips _ _ h) (fun _ c' h => .pure' h)
    · exact .unexpected'

end Nested

theorem powerOf_spans {exponent base : Parse Expr} (hx : Spans source .expr exponent)
    (hb : Spans source .expr base) : Spans source .expr (powerOf exponent base) := by
  intro c hc
  refine .bind' (hb hc) (fun b c' h => ?_)
  refine .bind' (accept_skips _ h) (fun taken c' h => ?_)
  split
  · exact .bind' (hx.appends h) (fun e c' h => .pure' (binaryNode_since .pow h))
  · exact .pure' h

/-- `opOf` tells no operator where the tokens end. -/
def Inward (opOf : Token → Option UnaryOp) : Prop :=
  ∀ t op, opOf t = some op → t.isEnd = false

theorem unaryOf_spans {opOf : Token → Option UnaryOp} {operand plain : Parse Expr}
    (hop : Inward opOf) (hx : Spans source .expr operand) (hp : Spans source .expr plain) :
    Spans source .expr (unaryOf opOf operand plain) := by
  intro c hc
  refine .peek' ?_
  split
  · exact hp hc
  · next op hsome =>
    refine advance_begins hc (hop _ op hsome) (fun c' hof h => ?_)
    refine .bind' (hx h.orderly) (fun e c'' he => .pure' ?_)
    exact unaryNode_since op hof h he

theorem inward_signOf : Inward signOf := by
  intro t op h
  unfold signOf at h
  split at h
  · next hplus => exact (Token.inner_operator _).isEnd hplus
  · split at h
    · next hminus => exact (Token.inner_operator _).isEnd hminus
    · cases h

theorem inward_negationOf : Inward negationOf := by
  intro t op h
  unfold negationOf at h
  split at h
  · next hnot => exact (Token.inner_operator _).isEnd hnot
  · cases h

section Tower

variable {nested : Nat → Parse Expr} (hn : ∀ room, Spans source .expr (nested room))
include hn

theorem power_spans (room : Nat) : Spans source .expr (power nested room) := by
  induction room with
  | zero => exact powerOf_spans (fun _ _ => .tooDeep') (primary_spans (hn 0))
  | succ room ih => exact powerOf_spans ih (primary_spans (hn (room + 1)))

theorem signed_spans (room : Nat) : Spans source .expr (signed nested room) := by
  induction room with
  | zero => exact unaryOf_spans inward_signOf (fun _ _ => .tooDeep') (power_spans hn 0)
  | succ room ih => exact unaryOf_spans inward_signOf ih (power_spans hn (room + 1))

theorem equality_spans : ∀ room, Spans source .expr (equality nested room) := by
  have hproduct : ∀ room, Spans source .expr (product nested room) :=
    chain_spans (binaryOperator_skips _) (signed_spans hn)
  have hsum : ∀ room, Spans source .expr (sum nested room) :=
    chain_spans (binaryOperator_skips _) hproduct
  have horder : ∀ room, Spans source .expr (order nested room) :=
    chain_spans orderOperator_skips hsum
  exact chain_spans (binaryOperator_skips _) horder

theorem negation_spans (room : Nat) : Spans source .expr (negation nested room) := by
  induction room with
  | zero => exact unaryOf_spans inward_negationOf (fun _ _ => .tooDeep') (equality_spans hn 0)
  | succ room ih => exact unaryOf_spans inward_negationOf ih (equality_spans hn (room + 1))

theorem disjunction_spans : ∀ room, Spans source .expr (disjunction nested room) := by
  have hconjunction : ∀ room, Spans source .expr (conjunction nested room) :=
    chain_spans (binaryOperator_skips _) (negation_spans hn)
  exact chain_spans (binaryOperator_skips _) hconjunction

end Tower

theorem expressionWithin_spans : ∀ depth room,
    Spans source .expr (expressionWithin depth room)
  | 0, _ => fun _ _ => .tooDeep'
  | _ + 1, 0 => fun _ _ => .tooDeep'
  | depth + 1, room + 1 => disjunction_spans (expressionWithin_spans depth) room

theorem expression_spans (room : Nat) : Spans source .expr (expression room) :=
  expressionWithin_spans room room

/-! ## Statements -/

theorem declaration_forms : Forms source .stmt declaration := by
  refine begin_forms (fun {t c} hof h => ?_)
  refine .bind' ((expectIdent_spans _).appends h) (fun name c h => ?_)
  refine .bind' (expectTypeTag_skips h) (fun _ c h => ?_)
  refine .bind' (expectStatementEnd_skips h) (fun _ c h => ?_)
  exact spanned_since hof h (fun _ => rfl) (fun _ => rfl) (fun _ => rfl)

theorem inputStatement_forms : Forms source .stmt inputStatement := by
  refine begin_forms (fun {t c} hof h => ?_)
  refine .bind' (expect_skips _ _ h) (fun _ c h => ?_)
  refine .bind' ((expectIdent_spans _).appends h) (fun target c h => ?_)
  refine .bind' (expect_skips _ _ h) (fun _ c h => ?_)
  refine .bind' (expectStatementEnd_skips h) (fun _ c h => ?_)
  exact spanned_since hof h (fun _ => rfl) (fun _ => rfl) (fun _ => rfl)

section Statements

variable {blockR : Parse Block} {expr : Parse Expr} (he : Spans source .expr expr)
include he

theorem outputStatement_forms : Forms source .stmt (outputStatement expr) := by
  refine begin_forms (fun {t c} hof h => ?_)
  refine .bind' (expect_skips _ _ h) (fun _ c h => ?_)
  refine .bind' (expect_skips _ _ h) (fun _ c h => ?_)
  refine .bind' (expect_skips _ _ h) (fun _ c h => ?_)
  refine .bind' (he.appends h) (fun value c h => ?_)
  refine .bind' (expect_skips _ _ h) (fun _ c h => ?_)
  refine .bind' (expectStatementEnd_skips h) (fun _ c h => ?_)
  exact spanned_since hof h (fun _ => rfl) (fun _ => rfl) (fun _ => rfl)

/-- Parentheses do not widen the span of what they hold. -/
theorem condition_appends : Appends source (fun e => [.expr e]) (condition expr) := by
  intro t ns c h
  refine .bind' (expect_skips _ _ h) (fun _ c h => ?_)
  refine .bind' (he.appends h) (fun value c h => ?_)
  exact .bind' (expect_skips _ _ h) (fun _ c h => .pure' h)

theorem returnStatement_forms : Forms source .stmt (returnStatement expr) := by
  refine begin_forms (fun {t c} hof h => ?_)
  refine .bind' (expect_skips _ _ h) (fun _ c h => ?_)
  refine .bind' (he.appends h) (fun value c h => ?_)
  refine .bind' (expectStatementEnd_skips h) (fun _ c h => ?_)
  exact spanned_since hof h (fun _ => rfl) (fun _ => rfl) (fun _ => rfl)

theorem assignmentOrExpression_forms :
    Forms source .stmt (assignmentOrExpression expr) := by
  intro c hc hinner
  obtain ⟨-, -, hof⟩ := hc.upcoming hinner
  refine .peek' ?_
  refine .bind' (P := fun _ c' => c' = c) (by rintro _ _ ⟨⟩; rfl) (fun second c' hsame => ?_)
  subst hsame
  split
  · refine .bind' (expectIdent_spans _ hc) (fun target c h => ?_)
    refine .bind' (advance_skips h) (fun _ c h => ?_)
    refine .bind' (he.appends h) (fun value c h => ?_)
    refine .bind' (expectStatementEnd_skips h) (fun _ c h => ?_)
    exact spanned_since hof h (fun _ => rfl) (fun _ => rfl) (fun _ => rfl)
  · refine .bind' (he hc) (fun value c h => ?_)
    refine .bind' (expectStatementEnd_skips h) (fun _ c h => ?_)
    exact spanned_since hof h (fun _ => rfl) (fun _ => rfl) (fun _ => rfl)

variable (hb : Spans source .block blockR)
include hb

theorem choice_forms : Forms source .stmt (choice blockR expr) := by
  refine begin_forms (fun {t c} hof h => ?_)
  refine .bind' (condition_appends he h) (fun test c h => ?_)
  refine .bind' (hb.appends h) (fun yes c h => ?_)
  have hend : ∀ (no : Option Block) (c : Cursor),
      c.Since source t (.expr test :: .block yes :: no.toList.map .block) →
      Gives (do pure (Stmt.choose test yes no (← spanFrom t.span))) c
        (fun st c' => c'.Since source t [.stmt st]) := by
    intro no c h
    exact spanned_since hof h (fun _ => rfl) (fun _ => rfl) (fun _ => rfl)
  refine .peek' ?_
  split
  · refine .bind' (advance_skips h) (fun _ c h => ?_)
    refine .bind' (hb.appends h) (fun no c h => ?_)
    exact .bind' (.pure' h) (fun no c h => hend no c h)
  · exact .bind' (.pure' h) (fun no c h => hend no c h)

theorem whileLoop_forms : Forms source .stmt (whileLoop blockR expr) := by
  refine begin_forms (fun {t c} hof h => ?_)
  refine .bind' (condition_appends he h) (fun test c h => ?_)
  refine .bind' (hb.appends h) (fun body c h => ?_)
  exact spanned_since hof h (fun _ => rfl) (fun _ => rfl) (fun _ => rfl)

theorem countLoop_forms : Forms source .stmt (countLoop blockR expr) := by
  refine begin_forms (fun {t c} hof h => ?_)
  refine .bind' (expect_skips _ _ h) (fun _ c h => ?_)
  refine .bind' ((expectIdent_spans _).appends h) (fun counter c h => ?_)
  refine .bind' (expect_skips _ _ h) (fun _ c h => ?_)
  refine .bind' (he.appends h) (fun first c h => ?_)
  refine .bind' (expect_skips _ _ h) (fun _ c h => ?_)
  refine .bind' (he.appends h) (fun last c h => ?_)
  refine .bind' (expect_skips _ _ h) (fun _ c h => ?_)
  refine .bind' (hb.appends h) (fun body c h => ?_)
  exact spanned_since hof h (fun _ => rfl) (fun _ => rfl) (fun _ => rfl)

theorem statement_spans : Spans source .stmt (statement blockR expr) := by
  intro c hc
  refine .peek' ?_
  have hinner : ∀ {kind}, c.peek.kind = kind → kind ≠ .endOfInput → c.peek.isEnd = false := by
    rintro kind rfl hkind
    simpa [Token.isEnd] using hkind
  split
  · next hkind => exact declaration_forms hc (hinner hkind (by decide))
  · next hkind => exact inputStatement_forms hc (hinner hkind (by decide))
  · next hkind => exact outputStatement_forms he hc (hinner hkind (by decide))
  · next hkind => exact choice_forms he hb hc (hinner hkind (by decide))
  · next hkind => exact whileLoop_forms he hb hc (hinner hkind (by decide))
  · next hkind => exact countLoop_forms he hb hc (hinner hkind (by decide))
  · next hkind => exact returnStatement_forms he hc (hinner hkind (by decide))
  · exact .bind' (hb hc) (fun b c h => .pure' (wrap_since h rfl rfl rfl))
  · exact .unexpected'
  · next hend => exact assignmentOrExpression_forms he hc (hinner rfl hend)

end Statements

theorem nextStatement_appends {x : Parse Stmt} (hx : Spans source .stmt x) :
    Appends source (fun o => o.toList.map .stmt) (nextStatement x) := by
  intro t ns c h
  refine .peek' ?_
  split
  · exact .pure' (by simpa using h)
  · split
    · exact .unexpected'
    · exact round_appends hx h

theorem block_spans (room : Nat) : Spans source .block (block room) := by
  induction room with
  | zero => exact fun _ _ => .tooDeep'
  | succ room ih =>
    intro c hc
    have hstatement := statement_spans (expression_spans room) ih
    refine expect_begins (Token.inner_keyword .oca) _ hc (fun c' hof h => ?_)
    refine .bind' (many_appends (nextStatement_appends hstatement) h) (fun body c h => ?_)
    refine .bind' (advance_skips h) (fun _ c h => ?_)
    exact spanned_since hof h (fun _ => rfl) (fun _ => rfl) (fun _ => rfl)

/-! ## Programs -/

theorem constantDecl_forms : Forms source (fun decl => .item (.constant decl)) constantDecl := by
  refine begin_forms (fun {t c} hof h => ?_)
  refine .bind' ((expectIdent_spans _).appends h) (fun name c h => ?_)
  refine .bind' (expectTypeTag_skips h) (fun _ c h => ?_)
  have hend : ∀ (value : ConstantValue) (c : Cursor), c.Since source t [.ident name] →
      Gives (do
        expectStatementEnd
        pure (⟨name, value, ← spanFrom t.span⟩ : ConstantDecl)) c
        (fun decl c' => c'.Since source t [.item (.constant decl)]) := by
    intro value c h
    refine .bind' (expectStatementEnd_skips h) (fun _ c h => ?_)
    exact spanned_since hof h (fun _ => rfl) (fun _ => rfl) (fun _ => rfl)
  refine .peek' ?_
  split
  · refine .bind' (advance_skips h) (fun _ c h => ?_)
    refine .bind' (numberValue_skips _ h) (fun v c h => ?_)
    exact .bind' (.pure' h) (fun value c h => hend value c h)
  · split
    · refine .bind' (advance_skips h) (fun _ c h => ?_)
      exact .bind' (.pure' h) (fun value c h => hend value c h)
    · exact .bind' .unexpected' (fun value c h => hend value c h)

theorem nextParameter_appends :
    Appends source (fun o => o.toList.map .ident) nextParameter := by
  intro t ns c h
  refine .bind' (accept_skips _ h) (fun comma c h => ?_)
  split
  · exact round_appends (expectIdent_spans _) h
  · exact .pure' (by simpa using h)

theorem parameters_appends : Appends source (fun names => names.map .ident) parameters := by
  intro t ns c h
  refine .peek' ?_
  split
  · exact .pure' (by simpa using h)
  · refine .bind' ((expectIdent_spans _).appends h) (fun first c h => ?_)
    refine .bind' (many_appends nextParameter_appends h) (fun rest c h => .pure' ?_)
    simpa using h

theorem function_forms (room : Nat) :
    Forms source (fun f => .item (.function f)) (function room) := by
  refine begin_forms (fun {t c} hof h => ?_)
  refine .bind' ((expectIdent_spans _).appends h) (fun name c h => ?_)
  refine .bind' (expectTypeTag_skips h) (fun _ c h => ?_)
  refine .bind' (expect_skips _ _ h) (fun _ c h => ?_)
  refine .bind' (parameters_appends h) (fun params c h => ?_)
  refine .bind' (expect_skips _ _ h) (fun _ c h => ?_)
  refine .bind' ((block_spans room).appends h) (fun body c h => ?_)
  exact spanned_since hof h (fun _ => rfl) (fun _ => rfl) (fun _ => rfl)

theorem item_spans (room : Nat) : Spans source .item (item room) := by
  intro c hc
  refine .peek' ?_
  split
  · next hpeek =>
    refine .bind' (constantDecl_forms hc ((Token.inner_keyword _).isEnd hpeek)) ?_
    exact fun decl c h => .pure' h
  · split
    · next hpeek =>
      refine .bind' (function_forms room hc ((Token.inner_keyword _).isEnd hpeek)) ?_
      exact fun f c h => .pure' h
    · refine .bind' (statement_spans (expression_spans room) (block_spans room) hc) ?_
      exact fun s c h => .pure' (wrap_since h rfl rfl rfl)

theorem nextItem_appends (room : Nat) :
    Appends source (fun o => o.toList.map .item) (nextItem room) := by
  intro t ns c h
  refine .peek' ?_
  split
  · exact .pure' (by simpa using h)
  · exact round_appends (item_spans room) h

/-- The items come in a row behind the greeting. -/
theorem programWithin_row (room : Nat) {c : Cursor} (hc : c.Orderly source) :
    Gives (programWithin room) c
      (fun p c' => c'.Since source c.peek (p.items.map .item)) := by
  refine expect_begins (Token.inner_keyword .bello) _ hc (fun c' hof h => ?_)
  exact .bind' (many_appends (nextItem_appends room) h) (fun items c h => .pure' h)

end Parse

namespace Program

/-- The node is one of the items or lies in one. -/
def Has (p : Program) (n : Node) : Prop := ∃ i ∈ p.items, (Node.item i).Has n

theorem ofSource_row {source : String} {p : Program} (h : ofSource source = .ok p) :
    ∃ low high, Row source low (p.items.map .item) high := by
  unfold ofSource read at h
  cases hr : Parse.program (Cursor.ofSource source) with
  | error e c =>
    rw [hr] at h
    cases h
  | ok q c =>
    rw [hr] at h
    cases h
    exact ⟨_, _, (Parse.programWithin_row _ (.ofSource source) p c hr).row⟩

/-- **Spans nest and are ordered.** Every node of a program that was read has a span that is
    not empty, goes from the start of a significant token to the end of one, and holds the
    spans of its children, which come one after another as the items do; and the text at the
    span of a name is the name. -/
theorem spans_nest (source : String) (p : Program) (h : ofSource source = .ok p) :
    (p.items.map Node.item).Pairwise Node.Precedes ∧ ∀ n, p.Has n → n.Neat source := by
  obtain ⟨low, high, hrow⟩ := ofSource_row h
  refine ⟨hrow.ordered, ?_⟩
  rintro n ⟨i, hi, hn⟩
  exact hrow.sound (.item i) (List.mem_map_of_mem hi) n hn

/-- A call and parentheses around its argument. -/
theorem spans_nest_call :
    let source := "bello! poop x Papaya naidu! x lumai muak((2)) naidu!"
    ∃ p, ofSource source = .ok p ∧ p.items.length = 2 ∧
      (p.items.map Node.item).Pairwise Node.Precedes ∧ ∀ n, p.Has n → n.Neat source := by
  intro source
  have hcheck : (ofSource source).toOption.map (·.items.length) = some 2 := by decide +kernel
  cases hp : ofSource source with
  | error e =>
    rw [hp] at hcheck
    cases hcheck
  | ok p =>
    rw [hp] at hcheck
    obtain ⟨hitems, hneat⟩ := spans_nest source p hp
    exact ⟨p, rfl, Option.some.inj hcheck, hitems, hneat⟩

end Program

end Bello
