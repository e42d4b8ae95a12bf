import Bello.Proofs.Blame.Steps

/- The first wrong token of an expression.

   Each level of precedence is read by a reader that fails at the first token that is wrong,
   provided that the readers that it is made of do. What has been taken before that token is
   completed by an operand, by the rest of an operator, or by what closes the parentheses. -/
namespace Bello.Parse

open Grammar

variable {room : Nat} {nested : Parse Expr}

/-! ## Operands -/

theorem nextArgument_blames (hn : Exact nested room Expression Closed) (ts : List Token) :
    Blames NextArgument [] (nextArgument nested) ts := by
  have hstart : Begins NextArgument [] :=
    .start (.mk (isDelimiter_ofDelimiter ",") expression_da)
  unfold nextArgument
  refine .accept (Token.inner_delimiter ",") (fun t us _ ht => ?_) ?_
  · refine hn.part (fun he => .whole (.mk ht he)) (fun e vs rest k _ he => ?_)
    exact .pure' _
  · refine .accept (Token.inner_delimiter ")") (fun r us _ hr => .pure' _) ?_
    exact .unexpected _ hstart

theorem call_blames (hn : Exact nested room Expression Closed) (callee : Ident) {l : Token}
    (hl : l.isDelimiter "(" = true) (ts : List Token) :
    Blames Arguments [] (call nested callee) (l :: ts) := by
  have hclose := isDelimiter_ofDelimiter ")"
  unfold call
  refine .advance (.accept (Token.inner_delimiter ")") (fun r us _ hr => ?_) ?_)
  · simp only [if_true, pure_bind]
    exact .spanFrom (fun s => .pure' _)
  · simp only [Bool.false_eq_true, if_false, pure_bind]
    refine hn.part (fun he => ?_) (fun e us rest k _ he => ?_)
    · exact .followed [.ofDelimiter ")"] (.some hl he .nil hclose) (by simp)
    refine (nextArgument_repeats hn.toReads).part (nextArgument_blames hn) (fun hes => ?_)
      (fun es vs mid rest k' _ hes hstop => ?_)
    · exact .followed [.ofDelimiter ")"] (.some hl he hes hclose) (by simp)
    · obtain ⟨r, rfl, hr⟩ := hstop
      exact ⟨[r], rfl, .spanFrom (fun s => .pure' _)⟩

theorem primary_blames (hn : Exact nested room Expression Closed) (ts : List Token) :
    Blames (Phrase .primary) [] (primary nested) ts := by
  have hstart : Begins (Phrase .primary) [] := .start (phrase_da .primary)
  unfold primary
  cases ts with
  | nil =>
    refine .peek_nil (fun t ht => ?_)
    simp only [ht, Token.isDelimiter]
    exact .unexpected _ hstart
  | cons t us =>
    refine .peek ?_
    split
    · next hk => exact .number hstart hk (fun v _ => .pure' _)
    · exact .advance (.pure' _)
    · exact .advance (.pure' _)
    · exact .advance (.pure' _)
    · next hk =>
      refine .advance ?_
      split
      · exact .pure' _
      · next hc =>
        refine .ifPeek (Token.inner_delimiter "(") (fun l vs _ hl => ?_) (.pure' _)
        exact (call_blames hn _ hl vs).lift (fun hargs => .whole (.call hk hc hargs))
    · split
      · next hl =>
        have hinside : ∀ {us e k}, Expression us e k → Begins (Phrase .primary) (t :: us) :=
          fun he => .followed [.ofDelimiter ")"]
            (.parens hl he (isDelimiter_ofDelimiter ")")) (by simp)
        refine .advance (hn.part hinside (fun e vs rest k _ he => ?_))
        exact .expect (Token.inner_delimiter ")") (hinside he) (fun r ws _ _ => .pure' _)
      · exact .unexpected _ hstart

theorem primary_exact (hn : Exact nested room Expression Closed) :
    Exact (primary nested) room (Phrase .primary) Precedence.primary.Ends :=
  ⟨primary_reads hn.toReads, primary_blames hn⟩

/-! ## Powers -/

theorem powerOf_exact {exponent base : Parse Expr}
    (hx : Exact exponent room (Deeper (Phrase .power)) Precedence.power.Ends)
    (hb : Exact base room (Phrase .primary) Precedence.primary.Ends) :
    Exact (powerOf exponent base) room (Phrase .power) Precedence.power.Ends := by
  refine ⟨powerOf_reads hx.toReads hb.toReads, fun ts => ?_⟩
  unfold powerOf
  refine hb.part (fun h => .whole (.base h)) (fun b us rest k _ hb' => ?_)
  refine .accept (Token.inner_operator .beedo) (fun t vs _ ht => ?_) (.pure' _)
  refine hx.part (fun {ws e k'} he => ?_) (fun _ _ _ _ _ _ => .pure' _)
  obtain ⟨k'', rfl, he⟩ := he
  exact .followed [] (.raise hb' ht he) (by simp)

theorem power_exact {nested : Nat → Parse Expr} : ∀ room,
    (∀ r ≤ room, Exact (nested r) r Expression Closed) →
    Exact (power nested room) room (Phrase .power) Precedence.power.Ends
  | 0, hn => powerOf_exact (tooDeep_exact _ _) (primary_exact (hn 0 (Nat.le_refl 0)))
  | room + 1, hn =>
    powerOf_exact (power_exact room (fun r hr => hn r (by omega))).deeper
      (primary_exact (hn (room + 1) (Nat.le_refl _)))

/-! ## Operators before an operand -/

theorem unaryOf_blames {opOf : Token → Option UnaryOp} {operand plain : Parse Expr}
    {L P : Rule Expr} {Ends : List Token → Prop}
    (hx : Exact operand room (Deeper L) Ends) (hp : Exact plain room P Ends)
    (hend : ∀ t : Token, t.kind = .endOfInput → opOf t = none)
    (hop : ∀ {t op ts e k}, opOf t = some op → L ts e k → L (t :: ts) (.unary op e .blank) (k + 1))
    (hplain : ∀ {ts e k}, P ts e k → L ts e k) (ts : List Token) :
    Blames L [] (unaryOf opOf operand plain) ts := by
  have hlow : ∀ ts, Blames L [] plain ts :=
    fun ts => (hp.blames ts).lift (fun h => .whole (hplain h))
  unfold unaryOf
  cases ts with
  | nil =>
    refine .peek_nil (fun t ht => ?_)
    rw [hend t ht]
    exact hlow []
  | cons t us =>
    refine .peek ?_
    cases ht : opOf t with
    | none => exact hlow (t :: us)
    | some op =>
      refine .advance (hx.part (fun he => ?_) (fun _ _ _ _ _ _ => .pure' _))
      obtain ⟨k, rfl, he⟩ := he
      exact .whole (hop ht he)

theorem unaryOf_signOf_exact {operand plain : Parse Expr}
    (hx : Exact operand room (Deeper (Phrase .signed)) Precedence.signed.Ends)
    (hp : Exact plain room (Phrase .power) Precedence.power.Ends) :
    Exact (unaryOf signOf operand plain) room (Phrase .signed) Precedence.signed.Ends := by
  refine ⟨unaryOf_signOf_reads hx.toReads hp.toReads, unaryOf_blames hx hp ?_ ?_ .unsigned⟩
  · intro t ht
    simp [signOf, Token.isOperator, ht]
  · intro t op ts e k ht he
    obtain ⟨word, hw, ht⟩ := signOf_some.1 ht
    exact .sign hw ht he

theorem signed_exact {nested : Nat → Parse Expr} : ∀ room,
    (∀ r ≤ room, Exact (nested r) r Expression Closed) →
    Exact (signed nested room) room (Phrase .signed) Precedence.signed.Ends
  | 0, hn => unaryOf_signOf_exact (tooDeep_exact _ _) (power_exact 0 hn)
  | room + 1, hn =>
    unaryOf_signOf_exact (signed_exact room (fun r hr => hn r (by omega))).deeper
      (power_exact (room + 1) hn)

theorem unaryOf_negationOf_exact {operand plain : Parse Expr}
    (hx : Exact operand room (Deeper (Phrase .negation)) Precedence.negation.Ends)
    (hp : Exact plain room (Phrase (.chain .equality)) (Precedence.chain .equality).Ends) :
    Exact (unaryOf negationOf operand plain) room (Phrase .negation) Precedence.negation.Ends := by
  refine ⟨unaryOf_negationOf_reads hx.toReads hp.toReads, unaryOf_blames hx hp ?_ ?_ .positive⟩
  · intro t ht
    simp [negationOf, Token.isOperator, ht]
  · intro t op ts e k ht he
    unfold negationOf at ht
    split at ht
    · next ht' => cases ht; exact .not ht' he
    · cases ht

/-! ## Chains -/

/-- The operators of a chain, which do not nest. -/
def Operators (tier : Tier) : Rule BinaryOp := fun os op _ => tier.Operator os op

/-- The reader takes an operator of the chain, and fails at the first token that is wrong in
    one of several words. -/
structure ExactOperator (x : Parse (Option BinaryOp)) (tier : Tier) : Prop
    extends ReadsOperator x tier where
  blames : ∀ ts, Blames (Operators tier) [] x ts

section Chain

variable {operator : Parse (Option BinaryOp)} {operand : Nat → Parse Expr} {tier : Tier}

/-- An operator is read after the operands that `us` holds. -/
theorem operator_bind (ho : ExactOperator operator tier) {n k : Nat} {us ts : List Token}
    {left : Expr} (hleft : Chain tier n us left k) {f : Option BinaryOp → Parse Expr}
    (hnone : ∀ vs rest, Blames (Phrase (.chain tier)) vs (f none) rest)
    (hsome : ∀ op os rest, tier.Operator os op →
      Blames (Phrase (.chain tier)) (us ++ os) (f (some op)) rest) :
    Blames (Phrase (.chain tier)) us (operator >>= f) ts := by
  have hlift : ∀ {os op k'}, Operators tier os op k' → Begins (Phrase (.chain tier)) (us ++ os) :=
    fun hop => .followed [wordToken .da] (.chain (.next hleft hop (phrase_da _))) (by simp)
  refine .bind' ((ho.blames ts).lift hlift) (ho.sound ts) (fun o os rest hts h => ?_)
  cases o with
  | none => exact hnone _ rest
  | some op =>
    obtain ⟨os', hts', hop⟩ := h
    cases List.append_cancel_right (hts.symm.trans hts')
    exact hsome op os rest hop

/-- `left` holds what the first `n` operators of the chain join. -/
theorem chainRest_blames (ho : ExactOperator operator tier) : ∀ (room : Nat) {left : Expr}
    {n k : Nat} {us : List Token}, Chain tier n us (bare left) k →
    (∀ r < room, Exact (operand r) r (Phrase tier.operand) tier.operand.Ends) →
    ∀ ts, Blames (Phrase (.chain tier)) us (chainRest operator operand room left) ts
  | 0, left, n, k, us, hleft, _, ts => by
    unfold chainRest
    exact operator_bind ho hleft (fun _ _ => .pure' _) (fun _ _ _ _ => .tooDeep)
  | room + 1, left, n, k, us, hleft, hx, ts => by
    unfold chainRest
    refine operator_bind ho hleft (fun _ _ => .pure' _) (fun op os rest hop => ?_)
    refine (hx room (Nat.lt_succ_self room)).part
      (fun hright => .followed [] (.chain (.next hleft hop hright)) (by simp))
      (fun right vs rest' k' _ hright => ?_)
    have hnext : Chain tier (n + 1) (us ++ (os ++ vs)) (bare (binaryNode op left right))
        (max k (n + 1 + k')) := .next hleft hop hright
    rw [List.append_assoc]
    exact chainRest_blames ho room hnext (fun r hr => hx r (by omega)) rest'

theorem chain_exact (ho : ExactOperator operator tier) {room : Nat}
    (hx : ∀ r ≤ room, Exact (operand r) r (Phrase tier.operand) tier.operand.Ends) :
    Exact (chain operator operand room) room (Phrase (.chain tier))
      (Precedence.chain tier).Ends := by
  refine ⟨chain_reads ho.toReadsOperator (fun r hr => (hx r hr).toReads), fun ts => ?_⟩
  unfold chain
  refine (hx room (Nat.le_refl _)).part (fun h => .whole (.chain (.first h)))
    (fun left us rest k _ hleft => ?_)
  exact chainRest_blames ho room (.first hleft) (fun r hr => hx r (by omega)) rest

end Chain

/-! ## Operators between operands -/

/-- One word is taken or left, so nothing can be wrong. -/
theorem binaryOperator_blames {γ : Type} {L : Rule γ} {used : List Token} (ts : List Token) :
    ∀ choices : List (Operator × BinaryOp), Blames L used (binaryOperator choices) ts
  | [] => .pure' _
  | (word, op) :: choices => by
    simp only [binaryOperator]
    refine .accept (Token.inner_operator word) (fun _ _ _ _ => .pure' _) ?_
    exact binaryOperator_blames ts choices

theorem binaryOperator_exact {tier : Tier} {choices : List (Operator × BinaryOp)}
    (hc : tier.operators = choices.map (fun p => ([p.1], p.2)))
    (hdistinct : ∀ p ∈ choices, ∀ q ∈ choices, p.1 = q.1 → p = q) :
    ExactOperator (binaryOperator choices) tier :=
  ⟨binaryOperator_reads hc hdistinct, fun ts => binaryOperator_blames ts choices⟩

/-- Only the second word of an operator can be missing. -/
theorem orderOperator_exact : ExactOperator orderOperator .order := by
  refine ⟨orderOperator_reads, fun ts => ?_⟩
  unfold orderOperator
  refine .accept (Token.inner_operator .lacon) (fun _ _ _ _ => .pure' _) ?_
  refine .accept (Token.inner_operator .la) (fun t us _ ht => ?_) ?_
  · exact .accept (Token.inner_operator .con) (fun _ _ _ _ => .pure' _) (.pure' _)
  refine .accept (Token.inner_operator .looka) (fun t us _ ht => ?_) (.pure' _)
  have hbegun : Begins (Operators .order) [t] :=
    ⟨[.ofOperator .too], .gt, 0, [.looka, .too], by decide,
      by simp [Token.isOperator_iff.1 ht, Token.ofOperator]⟩
  refine .expect (Token.inner_operator .too) hbegun (fun t' vs _ _ => ?_)
  exact .accept (Token.inner_operator .con) (fun _ _ _ _ => .pure' _) (.pure' _)

/-! ## The tower of levels -/

section Tower

variable {nested : Nat → Parse Expr} {room : Nat}

theorem product_exact (hn : ∀ r ≤ room, Exact (nested r) r Expression Closed) :
    ∀ r ≤ room,
      Exact (product nested r) r (Phrase (.chain .product)) (Precedence.chain .product).Ends :=
  fun r hr => chain_exact (binaryOperator_exact rfl (by decide))
    (fun s hs => signed_exact s (fun q hq => hn q (by omega)))

theorem sum_exact (hn : ∀ r ≤ room, Exact (nested r) r Expression Closed) :
    ∀ r ≤ room, Exact (sum nested r) r (Phrase (.chain .sum)) (Precedence.chain .sum).Ends :=
  fun r hr => chain_exact (binaryOperator_exact rfl (by decide))
    (fun s hs => product_exact hn s (by omega))

theorem order_exact (hn : ∀ r ≤ room, Exact (nested r) r Expression Closed) :
    ∀ r ≤ room, Exact (order nested r) r (Phrase (.chain .order)) (Precedence.chain .order).Ends :=
  fun r hr => chain_exact orderOperator_exact (fun s hs => sum_exact hn s (by omega))

theorem equality_exact (hn : ∀ r ≤ room, Exact (nested r) r Expression Closed) :
    ∀ r ≤ room,
      Exact (equality nested r) r (Phrase (.chain .equality)) (Precedence.chain .equality).Ends :=
  fun r hr => chain_exact (binaryOperator_exact rfl (by decide))
    (fun s hs => order_exact hn s (by omega))

theorem negation_exact (hn : ∀ r ≤ room, Exact (nested r) r Expression Closed) :
    ∀ r ≤ room, Exact (negation nested r) r (Phrase .negation) Precedence.negation.Ends
  | 0, hr => unaryOf_negationOf_exact (tooDeep_exact _ _) (equality_exact hn 0 hr)
  | r + 1, hr =>
    unaryOf_negationOf_exact (negation_exact hn r (by omega)).deeper (equality_exact hn (r + 1) hr)

theorem conjunction_exact (hn : ∀ r ≤ room, Exact (nested r) r Expression Closed) :
    ∀ r ≤ room,
      Exact (conjunction nested r) r (Phrase (.chain .and)) (Precedence.chain .and).Ends :=
  fun r hr => chain_exact (binaryOperator_exact rfl (by decide))
    (fun s hs => negation_exact hn s (by omega))

theorem disjunction_exact (hn : ∀ r ≤ room, Exact (nested r) r Expression Closed) :
    Exact (disjunction nested room) room (Phrase (.chain .or)) (Precedence.chain .or).Ends :=
  chain_exact (binaryOperator_exact rfl (by decide))
    (fun s hs => conjunction_exact hn s (by omega))

end Tower

theorem expressionWithin_exact : ∀ depth room, room ≤ depth →
    Exact (expressionWithin depth room) room Expression Closed
  | 0, 0, _ => (tooDeep_exact _ _).of_iff expression_iff
  | _ + 1, 0, _ => (tooDeep_exact _ _).of_iff expression_iff
  | depth + 1, room + 1, h =>
    (disjunction_exact (fun r hr => expressionWithin_exact depth r (by omega))).deeper.of_iff
      expression_iff

theorem expression_exact (room : Nat) : Exact (expression room) room Expression Closed :=
  expressionWithin_exact room room (Nat.le_refl room)

end Bello.Parse
