import Bello.Proofs.Grammar.Render

/- How high trees grow below the limit on nesting.

   The limit is there to bound the recursion of an evaluation, that is, the height of
   trees. What it bounds is the counter of the grammar. The two part at chains: an operand
   after the `i`-th operator counts `i` more, but of the tree it is as far below the root as
   there are operators from it to the end of the chain; the first operand, which is below
   all of them, counts nothing. Six levels of chains stand above each other, and each can
   have all its operators over one first operand. The base of a power and the call around an
   argument add a node each that is not counted either.

   `Precedence.reach p k` is how high a phrase of level `p` can get that nests `k` deep. It
   bounds every derivation (`Phrase.height_le`), and towers of chains in calls attain it
   (`tower_phrase`, `height_towerTree`). So a tree that is read can be higher than the limit;
   only one that nests at most five deep cannot. -/
namespace Bello

/-! ## Heights -/

mutual

/-- How many operators and calls there are on the longest way down. -/
def Expr.height : Expr → Nat
  | .number _ _ | .constant _ _ | .var _ | .text _ _ => 0
  | .unary _ operand _ => operand.height + 1
  | .binary _ left right _ => max left.height right.height + 1
  | .call _ args _ => Expr.heightAll args + 1

/-- The greatest height of some expressions. -/
def Expr.heightAll : List Expr → Nat
  | [] => 0
  | e :: es => max e.height (Expr.heightAll es)

end

mutual

theorem Expr.height_bare : ∀ e : Expr, (Spanned.bare e).height = e.height
  | .number _ _ | .constant _ _ | .var _ | .text _ _ => rfl
  | .unary _ e _ => congrArg (· + 1) (Expr.height_bare e)
  | .binary _ l r _ => by
    show max (Spanned.bare l).height (Spanned.bare r).height + 1 = max l.height r.height + 1
    rw [Expr.height_bare l, Expr.height_bare r]
  | .call _ args _ => congrArg (· + 1) (Expr.heightAll_bare args)

theorem Expr.heightAll_bare : ∀ es : List Expr, Expr.heightAll (Expr.bareAll es) = Expr.heightAll es
  | [] => rfl
  | e :: es => by
    show max (Spanned.bare e).height (Expr.heightAll (Expr.bareAll es)) = _
    rw [Expr.height_bare e, Expr.heightAll_bare es]
    rfl

end

mutual

/-- The expressions that a statement is made of. -/
def Stmt.expressions : Stmt → List Expr
  | .declare _ _ | .input _ _ => []
  | .assign _ e _ | .output e _ | .giveBack e _ | .evaluate e _ => [e]
  | .choose e yes none _ => e :: yes.expressions
  | .choose e yes (some no) _ => e :: (yes.expressions ++ no.expressions)
  | .repeatWhile e body _ => e :: body.expressions
  | .count _ first last body _ => first :: last :: body.expressions
  | .block b => b.expressions

def Block.expressions : Block → List Expr
  | .mk statements _ => Stmt.allExpressions statements

def Stmt.allExpressions : List Stmt → List Expr
  | [] => []
  | s :: ss => s.expressions ++ Stmt.allExpressions ss

end

def Item.expressions : Item → List Expr
  | .constant _ => []
  | .function f => f.body.expressions
  | .statement s => s.expressions

def Program.expressions (p : Program) : List Expr := p.items.flatMap Item.expressions

mutual

theorem Stmt.expressions_bare : ∀ s : Stmt,
    (Spanned.bare s).expressions = s.expressions.map Spanned.bare
  | .declare _ _ | .input _ _ | .assign _ _ _ | .output _ _ | .giveBack _ _ | .evaluate _ _ => rfl
  | .choose e yes none _ => congrArg (Spanned.bare e :: ·) (Block.expressions_bare yes)
  | .choose e yes (some no) _ => by
    show Spanned.bare e :: ((Spanned.bare yes).expressions ++ (Spanned.bare no).expressions) = _
    rw [Block.expressions_bare yes, Block.expressions_bare no, ← List.map_append]
    rfl
  | .repeatWhile e body _ => congrArg (Spanned.bare e :: ·) (Block.expressions_bare body)
  | .count _ first last body _ =>
    congrArg (fun es => Spanned.bare first :: Spanned.bare last :: es) (Block.expressions_bare body)
  | .block b => Block.expressions_bare b

theorem Block.expressions_bare : ∀ b : Block,
    (Spanned.bare b).expressions = b.expressions.map Spanned.bare
  | .mk ss _ => Stmt.allExpressions_bare ss

theorem Stmt.allExpressions_bare : ∀ ss : List Stmt,
    Stmt.allExpressions (Stmt.bareAll ss) = (Stmt.allExpressions ss).map Spanned.bare
  | [] => rfl
  | s :: ss => by
    show (Spanned.bare s).expressions ++ Stmt.allExpressions (Stmt.bareAll ss) = _
    rw [Stmt.expressions_bare s, Stmt.allExpressions_bare ss, ← List.map_append]
    rfl

end

theorem Item.expressions_bare : ∀ i : Item,
    (Spanned.bare i).expressions = i.expressions.map Spanned.bare
  | .constant _ => rfl
  | .function f => f.body.expressions_bare
  | .statement s => s.expressions_bare

theorem Program.expressions_bare (p : Program) :
    (Spanned.bare p).expressions = p.expressions.map Spanned.bare := by
  show (p.items.map Spanned.bare).flatMap Item.expressions = _
  rw [List.flatMap_map, funext Item.expressions_bare, Program.expressions, List.map_flatMap]

namespace Grammar

/-! ## The reach of a level -/

/-- The greatest height of a power that nests `k` deep: above an argument of a call there are
    six chains of `k` operators, the call and the power. -/
def powerReach : Nat → Nat
  | 0 => 1
  | k + 1 => powerReach k + 6 * k + 2

theorem powerReach_mono {j k : Nat} (h : j ≤ k) : powerReach j ≤ powerReach k := by
  induction h with
  | refl => exact Nat.le_refl _
  | step _ ih =>
    rw [powerReach]
    omega

/-- How many levels of chains there are from powers up to the tier. -/
def Tier.chains : Tier → Nat
  | or => 6
  | and => 5
  | equality => 4
  | order => 3
  | sum => 2
  | product => 1

/-- The greatest height of a phrase of the level that nests `k` deep. -/
def Precedence.reach : Precedence → Nat → Nat
  | .chain tier, k => powerReach k + tier.chains * k
  | .negation, k => powerReach k + 4 * k
  | .signed, k => powerReach k
  | .power, k => powerReach k
  | .primary, 0 => 1
  | .primary, k + 1 => powerReach k + 6 * k + 1

theorem Precedence.reach_mono (p : Precedence) {j k : Nat} (h : j ≤ k) :
    p.reach j ≤ p.reach k := by
  have hpower := powerReach_mono h
  cases p with
  | chain tier =>
    have hmul : tier.chains * j ≤ tier.chains * k := Nat.mul_le_mul_left _ h
    simp only [reach]
    omega
  | negation => simp only [reach]; omega
  | signed => exact hpower
  | power => exact hpower
  | primary =>
    match j, k with
    | 0, 0 => exact Nat.le_refl _
    | 0, k + 1 => simp only [reach]; omega
    | j + 1, k + 1 =>
      have hsucc := powerReach_mono (Nat.le_of_succ_le_succ h)
      simp only [reach]
      omega

/-- A chain adds as many as it has operators. -/
theorem Tier.reach_operand (tier : Tier) (k : Nat) :
    tier.operand.reach k + k = (Precedence.chain tier).reach k := by
  cases tier <;> simp only [Tier.operand, Precedence.reach, Tier.chains] <;> omega

theorem Precedence.reach_base (k : Nat) : Precedence.primary.reach k ≤ powerReach k := by
  cases k with
  | zero => exact Nat.le_refl _
  | succ k => simp only [reach, powerReach]; omega

/-- The greatest height of an expression that nests `k` deep. -/
def reach : Nat → Nat
  | 0 => 0
  | k + 1 => 3 * (k * k) + 5 * k + 1

theorem reach_succ (k : Nat) : reach (k + 1) = (Precedence.chain .or).reach k := by
  show 3 * (k * k) + 5 * k + 1 = powerReach k + 6 * k
  induction k with
  | zero => rfl
  | succ k ih =>
    have hsquare : (k + 1) * (k + 1) = k * k + 2 * k + 1 := by
      rw [Nat.succ_mul, Nat.mul_succ]
      omega
    rw [powerReach, hsquare]
    omega

theorem reach_mono {j k : Nat} (h : j ≤ k) : reach j ≤ reach k := by
  match j, k with
  | 0, _ => exact Nat.zero_le _
  | j + 1, k + 1 =>
    rw [reach_succ, reach_succ]
    exact Precedence.reach_mono _ (Nat.le_of_succ_le_succ h)

/-- A call is one higher than its arguments. -/
theorem reach_call (k : Nat) : Precedence.primary.reach k = reach k + 1 := by
  cases k with
  | zero => rfl
  | succ k => rw [reach_succ]; rfl

theorem reach_raise (k k' : Nat) :
    max (Precedence.primary.reach k) (powerReach k') + 1 ≤ powerReach (max k (k' + 1)) := by
  obtain ⟨j, hj⟩ : ∃ j, max k (k' + 1) = j + 1 := ⟨max k (k' + 1) - 1, by omega⟩
  have hbase : Precedence.primary.reach k ≤ powerReach j + 6 * j + 1 :=
    Precedence.reach_mono .primary (show k ≤ j + 1 by omega)
  have hexponent : powerReach k' ≤ powerReach j := powerReach_mono (by omega)
  rw [hj, powerReach]
  omega

/-- The first operand of a chain is below all its operators, the last one below one. -/
theorem Tier.reach_next (tier : Tier) (n k k' : Nat) :
    max (tier.operand.reach k + n) (tier.operand.reach k') + 1 ≤
      tier.operand.reach (max k (n + 1 + k')) + (n + 1) := by
  have hleft : tier.operand.reach k ≤ tier.operand.reach (max k (n + 1 + k')) :=
    Precedence.reach_mono _ (by omega)
  have hright : tier.operand.reach k' ≤ tier.operand.reach (max k (n + 1 + k')) :=
    Precedence.reach_mono _ (by omega)
  omega

/-! ## Derivations stay below it -/

mutual

theorem Phrase.height_le {p : Precedence} {ts : List Token} {e : Expr} {k : Nat} :
    Phrase p ts e k → e.height ≤ p.reach k
  | .chain h => by
    obtain ⟨hn, hheight⟩ := h.height_le
    rw [← Tier.reach_operand]
    omega
  | .not _ h => by
    have hheight := h.height_le
    simp only [Expr.height, Precedence.reach, powerReach] at hheight ⊢
    omega
  | .positive h => h.height_le
  | .sign _ _ h => by
    have hheight := h.height_le
    simp only [Expr.height, Precedence.reach, powerReach] at hheight ⊢
    omega
  | .unsigned h => h.height_le
  | .raise h _ h' => by
    have hbase := h.height_le
    have hexponent : _ ≤ powerReach _ := h'.height_le
    refine Nat.le_trans ?_ (reach_raise _ _)
    show max _ _ + 1 ≤ _
    omega
  | .base h => Nat.le_trans h.height_le (Precedence.reach_base _)
  | .number _ _ | .yes _ | .no _ | .text _ | .constant _ _ | .var _ _ => Nat.zero_le _
  | .call _ _ h => by
    rw [reach_call]
    exact Nat.succ_le_succ h.height_le
  | .parens _ h _ => by
    rw [reach_call]
    exact Nat.le_succ_of_le h.height_le

theorem Chain.height_le {tier : Tier} {n : Nat} {ts : List Token} {e : Expr} {k : Nat} :
    Chain tier n ts e k → n ≤ k ∧ e.height ≤ tier.operand.reach k + n
  | .first h => ⟨Nat.zero_le _, h.height_le⟩
  | .next h _ h' => by
    obtain ⟨hn, hleft⟩ := h.height_le
    have hright := h'.height_le
    refine ⟨by omega, Nat.le_trans ?_ (tier.reach_next _ _ _)⟩
    show max _ _ + 1 ≤ _
    omega

theorem Expression.height_le {ts : List Token} {e : Expr} {k : Nat} :
    Expression ts e k → e.height ≤ reach k
  | .mk h => by
    rw [reach_succ]
    exact h.height_le

theorem Arguments.height_le {ts : List Token} {args : List Expr} {k : Nat} :
    Arguments ts args k → Expr.heightAll args ≤ reach k
  | .none _ _ => Nat.le_refl _
  | .some _ h h' _ =>
    Nat.max_le.2 ⟨Nat.le_trans h.height_le (reach_mono (Nat.le_max_left _ _)),
      Nat.le_trans (nextArguments_height_le h') (reach_mono (Nat.le_max_right _ _))⟩

theorem nextArguments_height_le {ts : List Token} {es : List Expr} {k : Nat} :
    Sequence NextArgument ts es k → Expr.heightAll es ≤ reach k
  | .nil => Nat.le_refl _
  | .cons h h' =>
    Nat.max_le.2 ⟨Nat.le_trans h.height_le (reach_mono (Nat.le_max_left _ _)),
      Nat.le_trans (nextArguments_height_le h') (reach_mono (Nat.le_max_right _ _))⟩

theorem NextArgument.height_le {ts : List Token} {e : Expr} {k : Nat} :
    NextArgument ts e k → e.height ≤ reach k
  | .mk _ h => h.height_le

end

/-! ## Statements and programs -/

/-- No expression is higher than one can be that nests `k` deep. -/
def Bounded (k : Nat) (es : List Expr) : Prop := ∀ e ∈ es, e.height ≤ reach k

namespace Bounded

theorem nil {k : Nat} : Bounded k [] := List.forall_mem_nil _

theorem mono {j k : Nat} {es : List Expr} (h : Bounded j es) (hjk : j ≤ k) : Bounded k es :=
  fun e he => Nat.le_trans (h e he) (reach_mono hjk)

theorem append {j k : Nat} {es es' : List Expr} (h : Bounded j es) (h' : Bounded k es') :
    Bounded (max j k) (es ++ es') :=
  List.forall_mem_append.2 ⟨h.mono (Nat.le_max_left _ _), h'.mono (Nat.le_max_right _ _)⟩

end Bounded

theorem Expression.bounded {ts : List Token} {e : Expr} {k : Nat} (h : Expression ts e k) :
    Bounded k [e] :=
  List.forall_mem_singleton.2 h.height_le

theorem Condition.bounded {ts : List Token} {e : Expr} {k : Nat} : Condition ts e k → Bounded k [e]
  | .mk _ h _ => h.bounded

mutual

theorem Statement.bounded {ts : List Token} {s : Stmt} {k : Nat} :
    Statement ts s k → Bounded k s.expressions
  | .declare _ _ _ _ | .input _ _ _ _ _ => .nil
  | .assign _ _ h _ | .giveBack _ _ h _ | .evaluate h _ => h.bounded
  | .output _ _ _ h _ => h.bounded
  | .choose _ h h' => h.bounded.append h'.bounded
  | .chooseElse _ h h' _ h'' => by
    have hall := h.bounded.append (h'.bounded.append h''.bounded)
    rwa [← Nat.max_assoc] at hall
  | .repeatWhile _ h h' => h.bounded.append h'.bounded
  | .count _ _ _ _ h _ h' _ h'' => by
    have hall := h.bounded.append (h'.bounded.append h''.bounded)
    rwa [← Nat.max_assoc] at hall
  | .block h => h.bounded

theorem Body.bounded {ts : List Token} {b : Block} {k : Nat} : Body ts b k → Bounded k b.expressions
  | .mk _ h _ => (statements_bounded h).mono (Nat.le_succ _)

theorem statements_bounded {ts : List Token} {ss : List Stmt} {k : Nat} :
    Sequence Statement ts ss k → Bounded k (Stmt.allExpressions ss)
  | .nil => .nil
  | .cons h h' => h.bounded.append (statements_bounded h')

end

theorem TopLevel.bounded {ts : List Token} {i : Item} {k : Nat} (h : TopLevel ts i k) :
    Bounded k i.expressions := by
  cases h with
  | constant _ => exact .nil
  | function h =>
    cases h with
    | mk _ _ _ _ _ _ hbody => exact hbody.bounded.mono (Nat.le_max_right _ _)
  | statement h => exact h.bounded

theorem Derives.bounded {ts : List Token} {p : Program} {k : Nat} (h : Derives ts p k) :
    Bounded k p.expressions := by
  cases h with
  | mk _ hitems =>
    show Bounded k (List.flatMap Item.expressions _)
    induction hitems with
    | nil => exact .nil
    | cons h _ ih =>
      rw [List.flatMap_cons]
      exact h.bounded.append ih

/-! ## Towers -/

open Token (Legible ofOperator ofName ofNumber parens writable_operator writable_number
  writable_name)

/-- Tokens with `n` more operands after an operator. -/
def chainTokens (op : BinaryOp) (ts : List Token) : Nat → List Token
  | 0 => ts
  | n + 1 => chainTokens op ts n ++ (op.words.map ofOperator ++ [ofNumber .one])

def chainTree (op : BinaryOp) (e : Expr) : Nat → Expr
  | 0 => e
  | n + 1 => .binary op (chainTree op e n) (.number .one .blank) .blank

theorem one_phrase (p : Precedence) : Phrase p [ofNumber .one] (.number .one .blank) 0 := by
  have hnumber : Phrase .primary [ofNumber .one] (.number .one .blank) 0 :=
    .number rfl (Decimal.ofPlain?_plain .one)
  exact hnumber.of_primary p

/-- The first operand of a chain does not count how many operators are above it. -/
theorem chain_phrase (tier : Tier) (op : BinaryOp) {ts : List Token} {e : Expr} {k : Nat}
    (hop : (op.words, op) ∈ tier.operators) (h : Phrase tier.operand ts e k) (n : Nat) :
    Chain tier n (chainTokens op ts n) (chainTree op e n) (max k n) := by
  induction n with
  | zero =>
    rw [Nat.max_zero]
    exact .first h
  | succ n ih =>
    have hnext := ih.next (Tier.operator_words hop) (one_phrase _)
    rwa [Nat.add_zero, Nat.max_assoc, Nat.max_eq_right (Nat.le_succ n)] at hnext

theorem height_chainTree (op : BinaryOp) (e : Expr) (n : Nat) :
    (chainTree op e n).height = e.height + n := by
  induction n with
  | zero => rfl
  | succ n ih =>
    show max (chainTree op e n).height 0 + 1 = _
    omega

theorem legible_chainTokens {ts : List Token} (h : Legible ts) (op : BinaryOp) (n : Nat) :
    Legible (chainTokens op ts n) := by
  induction n with
  | zero => exact h
  | succ n ih => exact ih.append ((Rewrites.operators _).concat (writable_number _))

/-- One operator for each level of chains, the tightest level first. -/
def storeys : List BinaryOp := [.mul, .add, .lt, .eq, .and, .or]

/-- Six chains of `n` operators over one another. -/
def storeyTokens (n : Nat) (ts : List Token) : List Token :=
  storeys.foldl (fun ts op => chainTokens op ts n) ts

def storeyTree (n : Nat) (e : Expr) : Expr := storeys.foldl (fun e op => chainTree op e n) e

theorem storey_phrase {ts : List Token} {e : Expr} {k : Nat} (h : Phrase .power ts e k) :
    Phrase (.chain .or) (storeyTokens k ts) (storeyTree k e) k := by
  have hchain : ∀ (tier : Tier) (op : BinaryOp) {ts : List Token} {e : Expr},
      (op.words, op) ∈ tier.operators → Phrase tier.operand ts e k →
      Phrase (.chain tier) (chainTokens op ts k) (chainTree op e k) k := by
    intro tier op ts e hop h
    have hphrase := chain_phrase tier op hop h k
    rw [Nat.max_self] at hphrase
    exact .chain hphrase
  have hproduct := hchain .product .mul (by decide) (.unsigned h)
  have hsum := hchain .sum .add (by decide) hproduct
  have horder := hchain .order .lt (by decide) hsum
  have hequality := hchain .equality .eq (by decide) horder
  have hand := hchain .and .and (by decide) (.positive hequality)
  exact hchain .or .or (by decide) hand

theorem height_storeyTree (n : Nat) (e : Expr) : (storeyTree n e).height = e.height + 6 * n := by
  simp only [storeyTree, storeys, List.foldl, height_chainTree]
  omega

theorem legible_storeyTokens {ts : List Token} (h : Legible ts) (n : Nat) :
    Legible (storeyTokens n ts) := by
  unfold storeyTokens
  induction storeys generalizing ts with
  | nil => exact h
  | cons op ops ih => exact ih (legible_chainTokens h op n)

/-- A tower whose counter gets to `k`: below all its chains is the power of a call whose only
    argument is the tower for one less. -/
def towerTokens : Nat → List Token
  | 0 => ofName "f" :: parens []
  | k + 1 => storeyTokens (k + 1)
      (ofName "f" :: parens (towerTokens k) ++ ofOperator .beedo :: [ofNumber .one])

def towerTree : Nat → Expr
  | 0 => .call ⟨"f", .blank⟩ [] .blank
  | k + 1 => storeyTree (k + 1)
      (.binary .pow (.call ⟨"f", .blank⟩ [towerTree k] .blank) (.number .one .blank) .blank)

theorem tower_phrase (k : Nat) : Phrase (.chain .or) (towerTokens k) (towerTree k) k := by
  induction k with
  | zero =>
    have hargs : Arguments (parens []) [] 0 := .none (by decide) (by decide)
    have hcall := Phrase.call (t := ofName "f") rfl (by decide) hargs
    exact hcall.of_primary _
  | succ k ih =>
    have hargs : Arguments (parens (towerTokens k)) [towerTree k] (k + 1) :=
      .some (by decide) (.mk ih) .nil (by decide)
    have hcall := Phrase.call (t := ofName "f") rfl (by decide) hargs
    have hpower := hcall.raise (t := ofOperator .beedo) (by decide) (one_phrase .power)
    rw [Nat.max_eq_left (Nat.le_add_left 1 k)] at hpower
    exact storey_phrase hpower

theorem height_towerTree (k : Nat) : (towerTree k).height = reach (k + 1) := by
  rw [reach_succ]
  induction k with
  | zero => rfl
  | succ k ih =>
    rw [towerTree, height_storeyTree]
    show max (max (towerTree k).height 0 + 1) 0 + 1 + 6 * (k + 1) = powerReach (k + 1) + 6 * (k + 1)
    rw [ih, powerReach]
    show max (max (powerReach k + 6 * k) 0 + 1) 0 + 1 + 6 * (k + 1) = _
    omega

theorem legible_towerTokens (k : Nat) : Legible (towerTokens k) := by
  have hname : Token.Writable (ofName "f") := writable_name (by decide) (by decide)
  induction k with
  | zero => exact .cons hname (Token.legible_parens .nil)
  | succ k ih =>
    refine legible_storeyTokens (.append (.cons hname (Token.legible_parens ih)) ?_) _
    exact .cons (writable_operator _) (.singleton (writable_number _))

/-! ## Sources -/

open Parse (wordToken maxNesting)

/-- The text of written tokens is read as the expression that they stand for. -/
theorem Expression.read {ts : List Token} {e : Expr} {k : Nat} (hlegible : Legible ts)
    (h : Expression ts e k) (hk : k ≤ maxNesting) :
    ∃ source e', source = String.ofList (Token.spell ts) ∧ Expr.ofSource source = .ok e' ∧
      Expression (Token.placeless source) (Spanned.bare e') k ∧ e'.height = e.height := by
  have htokens : Token.placeless (String.ofList (Token.spell ts)) = ts :=
    Token.tokenize_spell hlegible
  rw [← htokens] at h
  obtain ⟨e', hread, rfl⟩ := Expr.ofSource_of_derives h hk
  exact ⟨_, e', rfl, hread, h, (Expr.height_bare e').symm⟩

theorem Derives.read {ts : List Token} {p : Program} {k : Nat} (hlegible : Legible ts)
    (h : Derives ts p k) (hk : k ≤ maxNesting) :
    ∃ source p', Program.ofSource source = .ok p' ∧
      Derives (Token.placeless source) (Spanned.bare p') k ∧ Spanned.bare p' = p := by
  have htokens : Token.placeless (String.ofList (Token.spell ts)) = ts :=
    Token.tokenize_spell hlegible
  rw [← htokens] at h
  obtain ⟨p', hread, rfl⟩ := (Program.ofSource_of_derives h).1 hk
  exact ⟨_, p', hread, h, rfl⟩

theorem tower_program (k : Nat) :
    Derives (wordToken .bello :: (towerTokens k ++ [wordToken .naidu]))
      ⟨[.statement (.evaluate (towerTree k) .blank)]⟩ (k + 1) := by
  have hitems := Sequence.nil.cons (TopLevel.statement
    (.evaluate (z := wordToken .naidu) (.mk (tower_phrase k)) (by decide)))
  rw [List.append_nil] at hitems
  exact .mk (by decide) hitems

/-- What the limit on nesting makes of the height of trees: the greatest height at `k` levels
    is `reach k`, both in expressions and in the statements of programs. It is within the
    limit up to five levels only. -/
theorem height_of_nesting {k : Nat} (hpos : 0 < k) (hk : k ≤ maxNesting) :
    (∀ source e, Expr.ofSource source = .ok e → ∃ j ≤ maxNesting,
      Expression (Token.placeless source) (Spanned.bare e) j ∧ (j ≤ k → e.height ≤ reach k)) ∧
    (∀ source p, Program.ofSource source = .ok p → ∃ j ≤ maxNesting,
      Derives (Token.placeless source) (Spanned.bare p) j ∧
        (j ≤ k → ∀ e ∈ p.expressions, e.height ≤ reach k)) ∧
    (∃ source e, Expr.ofSource source = .ok e ∧
      Expression (Token.placeless source) (Spanned.bare e) k ∧ e.height = reach k) ∧
    (∃ source p, Program.ofSource source = .ok p ∧
      Derives (Token.placeless source) (Spanned.bare p) k ∧
        ∃ e ∈ p.expressions, e.height = reach k) ∧
    (reach k ≤ maxNesting ↔ k ≤ 5) := by
  obtain ⟨k, rfl⟩ : ∃ j, k = j + 1 := ⟨k - 1, by omega⟩
  refine ⟨fun source e h => ?_, fun source p h => ?_, ?_, ?_, fun h => ?_, fun h => ?_⟩
  · obtain ⟨j, hderives, hj⟩ := Expr.derives_of_ofSource h
    refine ⟨j, hj, hderives, fun hle => ?_⟩
    rw [← Expr.height_bare]
    exact Nat.le_trans hderives.height_le (reach_mono hle)
  · obtain ⟨j, hderives, hj⟩ := Program.derives_of_ofSource h
    refine ⟨j, hj, hderives, fun hle e he => ?_⟩
    have hbounded := hderives.bounded.mono hle
    rw [Program.expressions_bare] at hbounded
    rw [← Expr.height_bare]
    exact hbounded _ (List.mem_map_of_mem he)
  · obtain ⟨source, e, -, hread, hderives, hheight⟩ :=
      (Expression.mk (tower_phrase k)).read (legible_towerTokens k) hk
    exact ⟨source, e, hread, hderives, hheight.trans (height_towerTree k)⟩
  · have hlegible : Legible (wordToken .bello :: (towerTokens k ++ [wordToken .naidu])) :=
      .cons (Token.writable_keyword _) ((legible_towerTokens k).concat (Token.writable_keyword _))
    obtain ⟨source, p, hread, hderives, hp⟩ := (tower_program k).read hlegible hk
    have hmem : towerTree k ∈ p.expressions.map Spanned.bare := by
      rw [← Program.expressions_bare, hp]
      exact List.mem_singleton.2 rfl
    obtain ⟨e, he, hbare⟩ := List.mem_map.1 hmem
    refine ⟨source, p, hread, hderives, e, he, ?_⟩
    rw [← Expr.height_bare, hbare, height_towerTree]
  · rcases Nat.lt_or_ge 5 (k + 1) with hlt | hle
    · have hsix : reach 6 ≤ reach (k + 1) := reach_mono hlt
      have hvalue : reach 6 = maxNesting + 1 := rfl
      omega
    · exact hle
  · have hfive : reach (k + 1) ≤ reach 5 := reach_mono h
    exact Nat.le_trans hfive (by decide)

/-- At the limit itself: no tree that is read is higher than 29899, and one is as high. -/
theorem height_of_nesting_limit :
    (∀ source e, Expr.ofSource source = .ok e → e.height ≤ 29899) ∧
    (∀ source p, Program.ofSource source = .ok p → ∀ e ∈ p.expressions, e.height ≤ 29899) ∧
    (∃ source e, Expr.ofSource source = .ok e ∧ e.height = 29899) := by
  obtain ⟨hexpr, hprogram, ⟨source, e, hread, -, hheight⟩, -⟩ :=
    height_of_nesting (k := maxNesting) (by decide) (Nat.le_refl _)
  refine ⟨fun source e h => ?_, fun source p h => ?_, source, e, hread, hheight⟩
  · obtain ⟨j, hj, -, hle⟩ := hexpr source e h
    exact hle hj
  · obtain ⟨j, hj, -, hle⟩ := hprogram source p h
    exact hle hj

/-- A product of a hundred factors below two sums is read, and is higher than the limit. -/
theorem limit_exceeded :
    ∃ e, Expr.ofSource ("1" ++ String.join (List.replicate 99 " dibotada 1") ++
      String.join (List.replicate 2 " melomo 1")) = .ok e ∧ e.height = 101 := by
  have hproduct : Phrase (.chain .product) (chainTokens .mul [ofNumber .one] 99)
      (chainTree .mul (.number .one .blank) 99) 99 :=
    .chain (chain_phrase .product .mul (by decide) (one_phrase _) 99)
  have hsum : Phrase (.chain .sum) (chainTokens .add (chainTokens .mul [ofNumber .one] 99) 2)
      (chainTree .add (chainTree .mul (.number .one .blank) 99) 2) 99 :=
    .chain (chain_phrase .sum .add (by decide) hproduct 2)
  have hlegible := legible_chainTokens
    (legible_chainTokens (.singleton (writable_number .one)) .mul 99) .add 2
  obtain ⟨source, e, hsource, hread, -, hheight⟩ :=
    (Expression.mk hsum.to_or).read hlegible (Nat.le_refl _)
  have hspell : source = "1" ++ String.join (List.replicate 99 " dibotada 1") ++
      String.join (List.replicate 2 " melomo 1") := by
    rw [hsource]
    decide +kernel
  rw [hspell] at hread
  refine ⟨e, hread, ?_⟩
  rw [hheight, height_chainTree, height_chainTree]
  rfl

end Grammar

end Bello
