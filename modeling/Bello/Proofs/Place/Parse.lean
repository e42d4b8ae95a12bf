import Bello.Proofs.Layout.Parse
import Bello.Proofs.Parse.Laws
import Bello.Proofs.Place.Basic

/- Readers make trees whose places are right, or errors that fit the text.

   `Places text P x` says so of the reader `x`: over tokens that show themselves in the text
   its value satisfies `P` or its error fits the text, and the tokens left show themselves again.
   That is a law of reading (`placing`), and there is one lemma for each form of the grammar;
   the tokens of a source are placed in its normalized text because cutting it loses nothing
   (`Token.Tiles.slice`). -/
namespace Bello

/-! ## Cursors -/

/-- All tokens ahead show themselves, and what was taken lies in the text. -/
structure Cursor.Placed (text : List Char) (c : Cursor) : Prop where
  pending : ∀ t ∈ c.pending, t.Placed text
  final : c.final.Placed text
  previous : c.previousStop ≤ text.length

namespace Cursor.Placed

variable {text : List Char} {c : Cursor}

theorem upcoming (h : c.Placed text) : ∀ t ∈ c.upcoming, t.Placed text :=
  fun t ht => h.pending t ((List.dropWhile_sublist _).subset ht)

theorem peek (h : c.Placed text) : c.peek.Placed text := by
  unfold Cursor.peek
  cases hu : c.upcoming with
  | nil => exact h.final
  | cons t rest => exact h.upcoming t (by simp [hu])

theorem advance (h : c.Placed text) : c.advance.1.Placed text ∧ c.advance.2.Placed text := by
  unfold Cursor.advance
  cases hu : c.upcoming with
  | nil => exact ⟨h.final, by simp, h.final, h.previous⟩
  | cons t rest =>
    have ht := h.upcoming t (by simp [hu])
    exact ⟨ht, fun u hu' => h.upcoming u (by simp [hu, hu']), h.final, ht.bounded⟩

theorem ofSource (source : String) :
    (Cursor.ofSource source).Placed (Text.normalize source.toList) := by
  obtain ⟨body, n, htokens, -, hc⟩ := Cursor.ofSource_eq source
  have hplaced : ∀ t ∈ Token.tokenize source, t.Placed (Text.normalize source.toList) := by
    intro t ht
    obtain ⟨hordered, hbounded, hword⟩ := (Token.tokenize_tiles source).slice [] rfl t ht
    exact ⟨⟨hordered, hbounded⟩, hword⟩
  rw [htokens] at hplaced
  rw [hc]
  exact ⟨fun t ht => hplaced t (List.mem_append_left _ ht), hplaced _ (by simp), Nat.zero_le _⟩

end Cursor.Placed

namespace Parse

variable {α : Type} {text : List Char}

/-- Over placed tokens the value of the reader satisfies `P`, or its error fits the text. -/
abbrev Places (text : List Char) (P : α → Prop) (x : Parse α) : Prop :=
  Upholds (Cursor.Placed text) (Error.Fits text) P x

variable {P : α → Prop}

/-! ## Steps -/

/-- Tokens pass their place on to the errors that speak of them. -/
theorem placing : Law (Cursor.Placed text) (Token.Placed text) (Error.Fits text) where
  look _ hc := hc.peek
  take _ hc := hc.advance
  blame := by
    intro t e ht he
    cases he with
    | malformedNumber _ => exact ⟨t.span, rfl, ht⟩
    | invalidNumber _ => exact ⟨t.span, rfl, ht⟩
    | unsupportedType _ => exact ⟨t.span, rfl, ht⟩
    | unexpectedEnd _ _ => exact ⟨t.span, rfl, ht.toWithin⟩
    | nestingTooDeep => exact ⟨t.span, rfl, ht.toWithin⟩
    | unexpectedToken _ hend _ =>
      -- A token that is no end is quoted as it stands in the text.
      have hquoted : Token.describe t.kind t.lexeme = s!"'{t.lexeme}' ({t.kind.name})" := by
        unfold Token.describe
        split
        · next hk => exact absurd hk hend
        · rfl
      exact ⟨t.span, rfl, ht, hquoted⟩

/-- A name has the span of its token. -/
theorem ReadFrom.placed {name : Ident} (h : ReadFrom (Token.Placed text) name) :
    name.Placed text := by
  obtain ⟨t, ht, rfl⟩ := h
  exact ht

theorem expectIdent_places (what : String) :
    Places text (Ident.Placed text) (expectIdent what) :=
  (placing.expectIdent what).mono (fun _ => ReadFrom.placed)

theorem spanFrom_places {start : Span} (h : start.Within text) :
    Places text (Span.Reaches text · start) (spanFrom start) := by
  intro c hc
  have hstop : start.stop ≤ max c.previousStop start.stop := Nat.le_max_right ..
  have hwithin : Span.Within text ⟨start.start, max c.previousStop start.stop⟩ :=
    ⟨Nat.le_trans h.ordered hstop, Nat.max_le.2 ⟨hc.previous, h.bounded⟩⟩
  exact .inl ⟨_, c, rfl, hc, hwithin, rfl, hstop⟩

/-! ## Expressions -/

theorem binaryNode_placed (op : BinaryOp) {l r : Expr} (hl : l.Placed text) (hr : r.Placed text) :
    (binaryNode op l r).Placed text := .binary op hl hr (hl.within.merge hr.within)

theorem unaryNode_placed (op : UnaryOp) {s : Span} {e : Expr} (hs : s.Within text)
    (he : e.Placed text) : (unaryNode op s e).Placed text := .unary op he (hs.merge he.within)

section Levels

variable {operator : Parse (Option BinaryOp)} {operand : Nat → Parse Expr}
  (ho : Places text (fun _ => True) operator)
  (hx : ∀ room, Places text (Expr.Placed text) (operand room))
include ho hx

theorem chainRest_places : ∀ (room : Nat) {left : Expr}, left.Placed text →
    Places text (Expr.Placed text) (chainRest operator operand room left)
  | 0, left, hleft => by
    refine .bind' ho (fun o _ => ?_)
    cases o with
    | none => exact .pure' hleft
    | some op => exact placing.tooDeep
  | room + 1, left, hleft => by
    refine .bind' ho (fun o _ => ?_)
    cases o with
    | none => exact .pure' hleft
    | some op =>
      refine .bind' (hx room) (fun right hright => ?_)
      exact chainRest_places room (binaryNode_placed op hleft hright)

theorem chain_places (room : Nat) :
    Places text (Expr.Placed text) (chain operator operand room) :=
  .bind' (hx room) (fun _ hfirst => chainRest_places ho hx room hfirst)

end Levels

section Nested

variable {nested : Parse Expr} (hn : Places text (Expr.Placed text) nested)
include hn

theorem nextArgument_places :
    Places text (fun o => ∀ a ∈ o, Expr.Placed text a) (nextArgument nested) := by
  refine .bind' (placing.accept _) (fun comma _ => ?_)
  split
  · exact round_upholds hn
  refine .bind' (placing.accept _) (fun closed _ => ?_)
  split
  · exact .pure' (by simp)
  · exact placing.unexpected _

/-- The span of a call reaches from the name that it calls to the closing parenthesis. -/
theorem call_places {callee : Ident} (hc : callee.Placed text) :
    Places text (Expr.Placed text) (call nested callee) := by
  have hend : ∀ args : List Expr, (∀ a ∈ args, a.Placed text) → Places text (Expr.Placed text)
      (do pure (Expr.call callee args (← spanFrom callee.span))) := by
    intro args hargs
    exact .bind' (spanFrom_places hc.toWithin) (fun s hs => .pure' (.call hc hargs (hc.opens hs)))
  refine .bind' placing.advance (fun _ _ => ?_)
  refine .bind' (placing.accept _) (fun closed _ => ?_)
  split
  · exact .bind' (P := fun args => ∀ a ∈ args, Expr.Placed text a) (.pure' (by simp)) hend
  · refine .bind' hn (fun first hfirst => ?_)
    refine .bind' (many_upholds (nextArgument_places hn)) (fun rest hrest => ?_)
    exact .bind' (.pure' (List.forall_mem_cons.2 ⟨hfirst, hrest⟩)) hend

theorem primary_places : Places text (Expr.Placed text) (primary nested) := by
  refine .bind' placing.peek (fun t ht => ?_)
  have hwithin : t.span.Within text := ht.toWithin
  split
  · next hkind =>
    refine .bind' placing.advance (fun _ _ => ?_)
    exact .bind' (placing.numberValue ht hkind) (fun v _ => .pure' (.number v hwithin))
  · exact .bind' placing.advance (fun _ _ => .pure' (.number _ hwithin))
  · exact .bind' placing.advance (fun _ _ => .pure' (.number _ hwithin))
  · exact .bind' placing.advance (fun _ _ => .pure' (.text _ hwithin))
  · refine .bind' placing.advance (fun _ _ => ?_)
    split
    · exact .pure' (.constant _ hwithin)
    · refine .bind' placing.peek (fun u _ => ?_)
      split
      · exact call_places hn ht
      · exact .pure' (.var ht)
  · split
    · refine .bind' placing.advance (fun _ _ => ?_)
      refine .bind' hn (fun inner hinner => ?_)
      exact .bind' (placing.expect _ _) (fun _ _ => .pure' hinner)
    · exact placing.unexpected _

end Nested

theorem powerOf_places {exponent base : Parse Expr}
    (hx : Places text (Expr.Placed text) exponent) (hb : Places text (Expr.Placed text) base) :
    Places text (Expr.Placed text) (powerOf exponent base) := by
  refine .bind' hb (fun b hb' => ?_)
  refine .bind' (placing.accept _) (fun taken _ => ?_)
  split
  · exact .bind' hx (fun e he => .pure' (binaryNode_placed .pow hb' he))
  · exact .pure' hb'

theorem unaryOf_places {opOf : Token → Option UnaryOp} {operand plain : Parse Expr}
    (hx : Places text (Expr.Placed text) operand) (hp : Places text (Expr.Placed text) plain) :
    Places text (Expr.Placed text) (unaryOf opOf operand plain) := by
  refine .bind' placing.peek (fun t ht => ?_)
  split
  · exact hp
  · refine .bind' placing.advance (fun _ _ => ?_)
    exact .bind' hx (fun e he => .pure' (unaryNode_placed _ ht.toWithin he))

section Tower

variable {nested : Nat → Parse Expr} (hn : ∀ room, Places text (Expr.Placed text) (nested room))
include hn

theorem power_places (room : Nat) : Places text (Expr.Placed text) (power nested room) := by
  induction room with
  | zero => exact powerOf_places placing.tooDeep (primary_places (hn 0))
  | succ room ih => exact powerOf_places ih (primary_places (hn (room + 1)))

theorem signed_places (room : Nat) : Places text (Expr.Placed text) (signed nested room) := by
  induction room with
  | zero => exact unaryOf_places placing.tooDeep (power_places hn 0)
  | succ room ih => exact unaryOf_places ih (power_places hn (room + 1))

theorem equality_places : ∀ room, Places text (Expr.Placed text) (equality nested room) := by
  have hproduct : ∀ room, Places text (Expr.Placed text) (product nested room) :=
    chain_places (placing.binaryOperator _) (signed_places hn)
  have hsum : ∀ room, Places text (Expr.Placed text) (sum nested room) :=
    chain_places (placing.binaryOperator _) hproduct
  have horder : ∀ room, Places text (Expr.Placed text) (order nested room) :=
    chain_places placing.orderOperator hsum
  exact chain_places (placing.binaryOperator _) horder

theorem negation_places (room : Nat) : Places text (Expr.Placed text) (negation nested room) := by
  induction room with
  | zero => exact unaryOf_places placing.tooDeep (equality_places hn 0)
  | succ room ih => exact unaryOf_places ih (equality_places hn (room + 1))

theorem disjunction_places : ∀ room, Places text (Expr.Placed text) (disjunction nested room) := by
  have hconjunction : ∀ room, Places text (Expr.Placed text) (conjunction nested room) :=
    chain_places (placing.binaryOperator _) (negation_places hn)
  exact chain_places (placing.binaryOperator _) hconjunction

end Tower

theorem expressionWithin_places : ∀ depth room,
    Places text (Expr.Placed text) (expressionWithin depth room)
  | 0, _ => placing.tooDeep
  | _ + 1, 0 => placing.tooDeep
  | depth + 1, room + 1 => disjunction_places (expressionWithin_places depth) room

theorem expression_places (room : Nat) : Places text (Expr.Placed text) (expression room) :=
  expressionWithin_places room room

/-! ## Statements -/

section Statements

variable {blockR : Parse Block} {expr : Parse Expr}

/-- The end of a form that carries a span of its own. -/
theorem spanned_places {start : Span} (hstart : start.Within text) {node : Span → α}
    (h : ∀ s : Span, s.Within text → P (node s)) :
    Places text P (do pure (node (← spanFrom start))) :=
  .bind' (spanFrom_places hstart) (fun s hs => .pure' (h s hs.toWithin))

variable (he : Places text (Expr.Placed text) expr)
include he

theorem outputStatement_places : Places text (Stmt.Placed text) (outputStatement expr) := by
  refine .bind' placing.advance (fun t ht => ?_)
  refine .bind' (placing.expect _ _) (fun _ _ => ?_)
  refine .bind' (placing.expect _ _) (fun _ _ => ?_)
  refine .bind' (placing.expect _ _) (fun _ _ => ?_)
  refine .bind' he (fun value hvalue => ?_)
  refine .bind' (placing.expect _ _) (fun _ _ => ?_)
  refine .bind' placing.expectStatementEnd (fun _ _ => ?_)
  exact spanned_places ht.toWithin (fun s _ => .output s hvalue)

theorem condition_places : Places text (Expr.Placed text) (condition expr) := by
  refine .bind' (placing.expect _ _) (fun _ _ => ?_)
  refine .bind' he (fun value hvalue => ?_)
  exact .bind' (placing.expect _ _) (fun _ _ => .pure' hvalue)

theorem returnStatement_places : Places text (Stmt.Placed text) (returnStatement expr) := by
  refine .bind' placing.advance (fun t ht => ?_)
  refine .bind' (placing.expect _ _) (fun _ _ => ?_)
  refine .bind' he (fun value hvalue => ?_)
  refine .bind' placing.expectStatementEnd (fun _ _ => ?_)
  exact spanned_places ht.toWithin (fun s hs => .giveBack hvalue hs)

theorem assignmentOrExpression_places :
    Places text (Stmt.Placed text) (assignmentOrExpression expr) := by
  refine .bind' placing.peek (fun t ht => ?_)
  refine .bind' peekSecond_upholds (fun _ _ => ?_)
  split
  · refine .bind' (expectIdent_places _) (fun target htarget => ?_)
    refine .bind' placing.advance (fun _ _ => ?_)
    refine .bind' he (fun value hvalue => ?_)
    refine .bind' placing.expectStatementEnd (fun _ _ => ?_)
    exact spanned_places ht.toWithin (fun s _ => .assign s htarget hvalue)
  · refine .bind' he (fun value hvalue => ?_)
    refine .bind' placing.expectStatementEnd (fun _ _ => ?_)
    exact spanned_places ht.toWithin (fun s _ => .evaluate s hvalue)

variable (hb : Places text (Block.Placed text) blockR)
include hb

theorem choice_places : Places text (Stmt.Placed text) (choice blockR expr) := by
  refine .bind' placing.advance (fun t ht => ?_)
  refine .bind' (condition_places he) (fun test htest => ?_)
  refine .bind' hb (fun yes hyes => ?_)
  have hend : ∀ no : Option Block, (∀ b ∈ no, b.Placed text) → Places text (Stmt.Placed text)
      (do pure (Stmt.choose test yes no (← spanFrom t.span))) := by
    intro no hno
    exact spanned_places ht.toWithin (fun s _ => .choose s htest hyes hno)
  refine .bind' placing.peek (fun _ _ => ?_)
  split
  · refine .bind' placing.advance (fun _ _ => ?_)
    refine .bind' hb (fun no hno => ?_)
    exact .bind' (.pure' (by simpa using hno)) hend
  · exact .bind' (P := fun no => ∀ b ∈ no, Block.Placed text b) (.pure' (by simp)) hend

theorem whileLoop_places : Places text (Stmt.Placed text) (whileLoop blockR expr) := by
  refine .bind' placing.advance (fun t ht => ?_)
  refine .bind' (condition_places he) (fun test htest => ?_)
  refine .bind' hb (fun body hbody => ?_)
  exact spanned_places ht.toWithin (fun s _ => .repeatWhile s htest hbody)

theorem countLoop_places : Places text (Stmt.Placed text) (countLoop blockR expr) := by
  refine .bind' placing.advance (fun t ht => ?_)
  refine .bind' (placing.expect _ _) (fun _ _ => ?_)
  refine .bind' (expectIdent_places _) (fun counter hcounter => ?_)
  refine .bind' (placing.expect _ _) (fun _ _ => ?_)
  refine .bind' he (fun first hfirst => ?_)
  refine .bind' (placing.expect _ _) (fun _ _ => ?_)
  refine .bind' he (fun last hlast => ?_)
  refine .bind' (placing.expect _ _) (fun _ _ => ?_)
  refine .bind' hb (fun body hbody => ?_)
  exact spanned_places ht.toWithin (fun s hs => .count hcounter hfirst hlast hbody hs)

theorem statement_places : Places text (Stmt.Placed text) (statement blockR expr) := by
  refine .bind' placing.peek (fun t _ => ?_)
  split
  · refine placing.declaration.mono (fun st hst => ?_)
    obtain ⟨name, s, hname, rfl⟩ := hst
    exact .declare s hname.placed
  · refine placing.inputStatement.mono (fun st hst => ?_)
    obtain ⟨target, s, htarget, rfl⟩ := hst
    exact .input s htarget.placed
  · exact outputStatement_places he
  · exact choice_places he hb
  · exact whileLoop_places he hb
  · exact countLoop_places he hb
  · exact returnStatement_places he
  · exact .bind' hb (fun b hb' => .pure' (.block hb'))
  · exact placing.unexpected _
  · exact assignmentOrExpression_places he

end Statements

theorem nextStatement_places {x : Parse Stmt} (hx : Places text (Stmt.Placed text) x) :
    Places text (fun o => ∀ st ∈ o, Stmt.Placed text st) (nextStatement x) := by
  refine .bind' placing.peek (fun t _ => ?_)
  split
  · exact .pure' (by simp)
  · split
    · exact placing.unexpected _
    · exact round_upholds hx

theorem block_places (room : Nat) : Places text (Block.Placed text) (block room) := by
  induction room with
  | zero => exact placing.tooDeep
  | succ room ih =>
    have hstatement := statement_places (expression_places room) ih
    refine .bind' (placing.expect _ _) (fun t ht => ?_)
    refine .bind' (many_upholds (nextStatement_places hstatement)) (fun body hbody => ?_)
    refine .bind' placing.advance (fun _ _ => ?_)
    exact spanned_places ht.toWithin (fun s _ => hbody)

/-! ## Programs -/

theorem function_places (room : Nat) : Places text (Function.Placed text) (function room) := by
  refine .bind' placing.advance (fun t ht => ?_)
  refine .bind' (expectIdent_places _) (fun name hname => ?_)
  refine .bind' placing.expectTypeTag (fun _ _ => ?_)
  refine .bind' (placing.expect _ _) (fun _ _ => ?_)
  refine .bind' placing.parameters (fun params hparams => ?_)
  refine .bind' (placing.expect _ _) (fun _ _ => ?_)
  refine .bind' (block_places room) (fun body hbody => ?_)
  exact spanned_places ht.toWithin (fun s _ => ⟨hname, fun p hp => (hparams p hp).placed, hbody⟩)

theorem item_places (room : Nat) : Places text (Item.Placed text) (item room) := by
  refine .bind' placing.peek (fun t _ => ?_)
  split
  · exact .bind' placing.constantDecl (fun _ h => .pure' h.placed)
  · split
    · exact .bind' (function_places room) (fun _ h => .pure' h)
    · exact .bind' (statement_places (expression_places room) (block_places room))
        (fun _ h => .pure' h)

theorem nextItem_places (room : Nat) :
    Places text (fun o => ∀ i ∈ o, Item.Placed text i) (nextItem room) := by
  refine .bind' placing.peek (fun t _ => ?_)
  split
  · exact .pure' (by simp)
  · exact round_upholds (item_places room)

theorem programWithin_places (room : Nat) :
    Places text (Program.Placed text) (programWithin room) := by
  refine .bind' (placing.expect _ _) (fun _ _ => ?_)
  exact .bind' (many_upholds (nextItem_places room)) (fun _ hitems => .pure' hitems)

end Parse

/-- A source is read as a placed program, or with an error that fits its text. -/
theorem Program.ofSource_places (source : String) :
    (∃ p, ofSource source = .ok p ∧ p.Placed (Text.normalize source.toList)) ∨
      (∃ e, ofSource source = .error e ∧ e.Fits (Text.normalize source.toList)) := by
  rcases Parse.programWithin_places Parse.maxNesting _ (Cursor.Placed.ofSource source) with
    ⟨p, _, hr, -, hp⟩ | ⟨e, _, hr, -, he⟩
  · exact .inl ⟨p, ofSource_ok hr, hp⟩
  · exact .inr ⟨e, ofSource_error hr, he⟩

end Bello
