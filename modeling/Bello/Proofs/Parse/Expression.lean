import Bello.Parse.Expression
import Bello.Proofs.Parse.Steps

/- Expressions are read as the grammar says.

   Each level of precedence has its reader, and each reader reads the phrases of its level,
   provided that the readers that it is made of do. The levels are stacked on each other
   from the operands up, and the whole stands on itself one level down: an operand may hold
   an expression in less room (`expressionWithin_reads`). -/
namespace Bello.Parse

open Grammar

variable {room : Nat} {nested : Parse Expr}

/-! ## Operands -/

theorem nextArgument_repeats (hn : Reads nested room Expression Closed) :
    Repeats (nextArgument nested) room NextArgument Closed
      (fun mid rest => ∃ r, mid = r :: rest ∧ r.isDelimiter ")" = true) where
  nonempty := by rintro _ _ _ ⟨⟩; simp
  ends := by
    rintro _ _ _ ⟨ht, _⟩ rest
    exact Precedence.ends_of_none (rank?_delimiter (by decide) ht) _
  sound := by
    intro ts
    unfold nextArgument
    refine .accept (Token.inner_delimiter ",") ?_ (fun _ => ?_)
    · rintro t us rfl ht
      refine hn.sound_bind ?_
      rintro e used rest k rfl hk he
      exact .pure' ⟨t :: used, k, rfl, hk, .mk ht he⟩
    · refine .accept (Token.inner_delimiter ")") ?_ (fun _ => ?_)
      · rintro r us rfl hr
        exact .pure' ⟨r, rfl, hr⟩
      · exact .unexpected_sound _
  complete := by
    rintro _ e k rest ⟨ht, he⟩ hrest
    unfold nextArgument
    refine .accept_true (Token.inner_delimiter ",") ht ?_
    refine hn.complete_bind he hrest (Nat.le_refl k) (fun e' hk he' => ?_)
    exact .pure' ⟨hk, rfl, e', rfl, he'⟩
  stop := by
    rintro _ rest ⟨r, rfl, hr⟩
    refine ⟨Precedence.ends_of_none (rank?_delimiter (by decide) hr) _, ?_⟩
    unfold nextArgument
    refine .accept_false (Token.inner_delimiter ",") ?_ ?_
    · simp [Token.leads, Token.isDelimiter, Token.isDelimiter_iff.1 hr]
    · refine .accept_true (Token.inner_delimiter ")") hr ?_
      exact .pure' ⟨rfl, rfl⟩

theorem call_sound (hn : Reads nested room Expression Closed) (callee : Ident) {l : Token}
    (hl : l.isDelimiter "(" = true) (us : List Token) :
    Runs (call nested callee) (l :: us)
      (fun e rest => ∃ used args k, l :: us = used ++ rest ∧ k ≤ room ∧ Arguments used args k ∧
        bare e = .call callee.bare args .blank) Anyhow := by
  unfold call
  refine .advance (.accept (Token.inner_delimiter ")") ?_ (fun _ => ?_))
  · rintro r us rfl hr
    simp only [if_true, pure_bind]
    refine .spanFrom (fun s => .pure' ?_)
    exact ⟨[l, r], [], 0, rfl, Nat.zero_le _, .none hl hr, rfl⟩
  · simp only [Bool.false_eq_true, if_false, pure_bind]
    refine hn.sound_bind ?_
    rintro e used rest k rfl hk he
    refine (nextArgument_repeats hn).sound_bind ?_
    rintro es used' _ rest' k' rfl hk' hes ⟨r, rfl, hr⟩
    refine .spanFrom (fun s => .pure' ?_)
    refine ⟨l :: (used ++ (used' ++ [r])), bare e :: bare es, max k k', by simp, by omega,
      .some hl he hes hr, ?_⟩
    show Expr.call callee.bare (Expr.bareAll (e :: es)) .blank = _
    rw [Expr.bareAll_eq]
    rfl

theorem call_complete (hn : Reads nested room Expression Closed) (callee : Ident)
    {used rest : List Token} {args : List Expr} {k : Nat} (h : Arguments used args k) :
    Runs (call nested callee) (used ++ rest)
      (Got room k (.call callee.bare args .blank) rest) (Late room k) := by
  unfold call
  cases h with
  | none hl hr =>
    refine .advance (.accept_true (Token.inner_delimiter ")") hr ?_)
    simp only [if_true, pure_bind]
    exact .spanFrom (fun s => .pure' ⟨Nat.zero_le _, rfl, rfl⟩)
  | @some l r ts us e es k k' hl he hes hr =>
    simp only [List.cons_append, List.append_assoc]
    refine .advance (.accept_false (Token.inner_delimiter ")") ?_ ?_)
    · obtain ⟨t, rest', rfl, ht, -⟩ := he.front
      exact Precedence.opens_delimiter ht (by decide)
    · simp only [Bool.false_eq_true, if_false, pure_bind]
      have hrep := nextArgument_repeats hn
      have hstop : ∃ r', [r] ++ rest = r' :: rest ∧ r'.isDelimiter ")" = true := ⟨r, rfl, hr⟩
      refine hn.complete_bind he (hrep.ends_sequence hes hstop) (by omega) (fun e' hk he' => ?_)
      refine hrep.complete_bind hes hstop (by omega) (fun es' hk' hes' => ?_)
      refine .spanFrom (fun s => .pure' ⟨by omega, rfl, ?_⟩)
      show Expr.call callee.bare (Expr.bareAll (e' :: es')) .blank = _
      rw [Expr.bareAll_eq, ← he', ← hes']
      rfl

theorem primary_sound (hn : Reads nested room Expression Closed) (ts : List Token) :
    Runs (primary nested) ts (Took room (Phrase .primary) ts) Anyhow := by
  unfold primary
  cases ts with
  | nil =>
    refine .peek_nil (fun t ht => ?_)
    simp only [ht, Token.isDelimiter]
    exact .unexpected_sound _
  | cons t us =>
    refine .peek ?_
    split
    · next hk =>
      refine .advance (.numberValue_sound (fun v hv => .pure' ?_))
      exact ⟨[t], 0, rfl, Nat.zero_le _, .number hk hv⟩
    · next hk =>
      exact .advance (.pure' ⟨[t], 0, rfl, Nat.zero_le _, .yes (Token.isKeyword_iff.2 hk)⟩)
    · next hk =>
      exact .advance (.pure' ⟨[t], 0, rfl, Nat.zero_le _, .no (Token.isKeyword_iff.2 hk)⟩)
    · next hk => exact .advance (.pure' ⟨[t], 0, rfl, Nat.zero_le _, .text hk⟩)
    · next hk =>
      refine .advance ?_
      split
      · next c hc => exact .pure' ⟨[t], 0, rfl, Nat.zero_le _, .constant hk hc⟩
      · next hc =>
        have hvar : Took room (Phrase .primary) (t :: us) (.var ⟨t.lexeme, t.span⟩) us :=
          ⟨[t], 0, rfl, Nat.zero_le _, .var hk hc⟩
        refine .ifPeek (Token.inner_delimiter "(") ?_ (fun _ => .pure' hvar)
        rintro l us rfl hl
        refine (call_sound hn _ hl us).mono ?_ (fun _ he => he)
        rintro e rest ⟨used, args, k, hus, hkr, hargs, he⟩
        exact ⟨t :: used, k, by rw [hus]; rfl, hkr, he ▸ .call hk hc hargs⟩
    · split
      · next hl =>
        refine .advance (hn.sound_bind ?_)
        rintro e used _ k rfl hk he
        refine .expect_sound (Token.inner_delimiter ")") ?_
        rintro r rest rfl hr
        exact .pure' ⟨t :: (used ++ [r]), k, by simp, hk, .parens hl he hr⟩
      · exact .unexpected_sound _

theorem primary_complete (hn : Reads nested room Expression Closed) {used rest : List Token}
    {e : Expr} {k : Nat} (h : Phrase .primary used e k) (hrest : Precedence.primary.Ends rest) :
    Runs (primary nested) (used ++ rest) (Got room k e rest) (Late room k) := by
  unfold primary
  cases h with
  | number hk hv =>
    refine .peek ?_
    simp only [hk]
    exact .advance (.numberValue hv (.pure' ⟨Nat.zero_le _, rfl, rfl⟩))
  | yes ht =>
    refine .peek ?_
    simp only [Token.isKeyword_iff.1 ht]
    exact .advance (.pure' ⟨Nat.zero_le _, rfl, rfl⟩)
  | no ht =>
    refine .peek ?_
    simp only [Token.isKeyword_iff.1 ht]
    exact .advance (.pure' ⟨Nat.zero_le _, rfl, rfl⟩)
  | text hk =>
    refine .peek ?_
    simp only [hk]
    exact .advance (.pure' ⟨Nat.zero_le _, rfl, rfl⟩)
  | constant hk hc =>
    refine .peek ?_
    simp only [hk, hc]
    exact .advance (.pure' ⟨Nat.zero_le _, rfl, rfl⟩)
  | var hk hc =>
    refine .peek ?_
    simp only [hk, hc]
    refine .advance (.ifPeek (Token.inner_delimiter "(") ?_
      (fun _ => .pure' ⟨Nat.zero_le _, rfl, rfl⟩))
    -- A parenthesis would make it a call, but none follows.
    rintro l us rfl hl
    exact absurd (hrest.rank_lt (rank?_parenthesis hl)) (Nat.not_lt_zero _)
  | call hk hc hargs =>
    obtain ⟨l, us, rfl, hl⟩ := hargs.front
    refine .peek ?_
    simp only [hk, hc]
    refine .advance (.peek ?_)
    simp only [hl, if_true]
    exact call_complete hn _ hargs
  | @parens l r ts e k hl he hr =>
    simp only [List.cons_append, List.append_assoc]
    refine .peek ?_
    simp only [(Token.isDelimiter_iff.1 hl).1, hl, if_true]
    refine .advance (hn.complete_bind he ?_ (Nat.le_refl _) (fun e' hk he' => ?_))
    · exact Precedence.ends_of_none (rank?_delimiter (by decide) hr) _
    · exact .expect hr (.pure' ⟨hk, rfl, he'⟩)

theorem primary_reads (hn : Reads nested room Expression Closed) :
    Reads (primary nested) room (Phrase .primary) Precedence.primary.Ends :=
  ⟨primary_sound hn, fun _ _ _ _ => primary_complete hn⟩

/-! ## Powers -/

theorem powerOf_reads {exponent base : Parse Expr}
    (hx : Reads exponent room (Deeper (Phrase .power)) Precedence.power.Ends)
    (hb : Reads base room (Phrase .primary) Precedence.primary.Ends) :
    Reads (powerOf exponent base) room (Phrase .power) Precedence.power.Ends where
  sound ts := by
    unfold powerOf
    refine hb.sound_bind ?_
    rintro b used rest k rfl hk hb'
    refine .accept (Token.inner_operator .beedo) ?_ (fun _ => ?_)
    · rintro t us rfl ht
      refine hx.sound_bind ?_
      rintro e used' rest' _ rfl hk' ⟨k', rfl, he⟩
      exact .pure' ⟨used ++ t :: used', max k (k' + 1), by simp, by omega, .raise hb' ht he⟩
    · exact .pure' ⟨used, k, rfl, hk, .base hb'⟩
  complete := by
    intro used e k rest h hrest
    unfold powerOf
    cases h with
    | @raise t ts us b e k k' hb' ht he =>
      simp only [List.append_assoc, List.cons_append]
      refine hb.complete_bind hb' ?_ (by omega) (fun b' hk hb'' => ?_)
      · refine Precedence.ends_of_rank (fun r hr => ?_) _
        rw [rank?_operator ht] at hr
        cases hr
        decide
      · refine .accept_true (Token.inner_operator .beedo) ht ?_
        refine hx.complete_bind ⟨k', rfl, he⟩ hrest (by omega) (fun e' hk' he' => ?_)
        refine .pure' ⟨by omega, rfl, ?_⟩
        rw [← hb'', ← he']
        rfl
    | base hb' =>
      refine hb.complete_bind hb' (hrest.of_le (by decide)) (Nat.le_refl k) (fun b' hk hb'' => ?_)
      exact .accept_false (Token.inner_operator .beedo) (hrest.leads_word rfl (by decide))
        (.pure' ⟨hk, rfl, hb''⟩)

theorem power_reads {nested : Nat → Parse Expr} : ∀ room,
    (∀ r ≤ room, Reads (nested r) r Expression Closed) →
    Reads (power nested room) room (Phrase .power) Precedence.power.Ends
  | 0, hn => powerOf_reads (tooDeep_reads _ _) (primary_reads (hn 0 (Nat.le_refl 0)))
  | room + 1, hn =>
    powerOf_reads (power_reads room (fun r hr => hn r (by omega))).deeper
      (primary_reads (hn (room + 1) (Nat.le_refl _)))

/-! ## Operators before an operand -/

/-- The rules `L` and `P` are those of a level with operators before an operand and of the
    level below it. -/
theorem unaryOf_reads {opOf : Token → Option UnaryOp} {operand plain : Parse Expr}
    {L P : Rule Expr} {Ends : List Token → Prop}
    (hx : Reads operand room (Deeper L) Ends) (hp : Reads plain room P Ends)
    (hend : ∀ t : Token, t.kind = .endOfInput → opOf t = none)
    (hop : ∀ {t op ts e k}, opOf t = some op → L ts e k → L (t :: ts) (.unary op e .blank) (k + 1))
    (hplain : ∀ {ts e k}, P ts e k → L ts e k)
    (hcases : ∀ {ts e k}, L ts e k →
      (P ts e k ∧ ∃ t us, ts = t :: us ∧ opOf t = none) ∨
      ∃ t us op e' k', ts = t :: us ∧ opOf t = some op ∧ e = .unary op e' .blank ∧ k = k' + 1 ∧
        L us e' k') :
    Reads (unaryOf opOf operand plain) room L Ends where
  sound ts := by
    have hlow : ∀ ts, Runs plain ts (Took room L ts) Anyhow := by
      intro ts
      refine (hp.sound ts).mono ?_ (fun _ he => he)
      rintro e rest ⟨used, k, hts, hk, he⟩
      exact ⟨used, k, hts, hk, hplain he⟩
    unfold unaryOf
    cases ts with
    | nil =>
      refine .peek_nil (fun t ht => ?_)
      rw [hend t ht]
      exact hlow []
    | cons t us =>
      refine .peek ?_
      cases ht : opOf t with
      | none => exact hlow (t :: us)
      | some op =>
        refine .advance (hx.sound_bind ?_)
        rintro e used rest _ rfl hk ⟨k, rfl, he⟩
        exact .pure' ⟨t :: used, k + 1, rfl, hk, hop ht he⟩
  complete := by
    intro used e k rest h hrest
    unfold unaryOf
    rcases hcases h with ⟨he, t, us, rfl, ht⟩ | ⟨t, us, op, e', k', rfl, ht, rfl, rfl, he⟩
    · refine .peek ?_
      rw [ht]
      exact hp.complete (t :: us) e k rest he hrest
    · refine .peek ?_
      rw [ht]
      refine .advance (hx.complete_bind ⟨k', rfl, he⟩ hrest (Nat.le_refl _) (fun e'' hk he' => ?_))
      exact .pure' ⟨hk, rfl, by rw [← he']; rfl⟩

theorem signOf_some {t : Token} {op : UnaryOp} :
    signOf t = some op ↔ ∃ word, (word, op) ∈ signs ∧ t.isOperator word = true := by
  simp only [signs, List.mem_cons, Prod.mk.injEq, List.not_mem_nil, or_false]
  constructor
  · intro h
    unfold signOf at h
    split at h
    · next ht => cases h; exact ⟨.melomo, .inl ⟨rfl, rfl⟩, ht⟩
    · split at h
      · next ht => cases h; exact ⟨.flavuk, .inr ⟨rfl, rfl⟩, ht⟩
      · cases h
  · rintro ⟨word, ⟨rfl, rfl⟩ | ⟨rfl, rfl⟩, ht⟩
    all_goals simp [signOf, Token.isOperator, Token.isOperator_iff.1 ht]

theorem unaryOf_signOf_reads {operand plain : Parse Expr}
    (hx : Reads operand room (Deeper (Phrase .signed)) Precedence.signed.Ends)
    (hp : Reads plain room (Phrase .power) Precedence.power.Ends) :
    Reads (unaryOf signOf operand plain) room (Phrase .signed) Precedence.signed.Ends := by
  refine unaryOf_reads hx hp ?_ ?_ .unsigned ?_
  · intro t ht
    simp [signOf, Token.isOperator, ht]
  · intro t op ts e k ht he
    obtain ⟨word, hw, ht⟩ := signOf_some.1 ht
    exact .sign hw ht he
  · intro ts e k h
    cases h with
    | sign hw ht he =>
      exact .inr ⟨_, _, _, _, _, rfl, signOf_some.2 ⟨_, hw, ht⟩, rfl, rfl, he⟩
    | unsigned he =>
      obtain ⟨t, us, rfl, ht, -⟩ := he.front
      refine .inl ⟨he, t, us, rfl, ?_⟩
      have hplus := Precedence.opens_word ht .melomo (by decide)
      have hminus := Precedence.opens_word ht .flavuk (by decide)
      simp [signOf, hplus, hminus]

theorem signed_reads {nested : Nat → Parse Expr} : ∀ room,
    (∀ r ≤ room, Reads (nested r) r Expression Closed) →
    Reads (signed nested room) room (Phrase .signed) Precedence.signed.Ends
  | 0, hn => unaryOf_signOf_reads (tooDeep_reads _ _) (power_reads 0 hn)
  | room + 1, hn =>
    unaryOf_signOf_reads (signed_reads room (fun r hr => hn r (by omega))).deeper
      (power_reads (room + 1) hn)

theorem unaryOf_negationOf_reads {operand plain : Parse Expr}
    (hx : Reads operand room (Deeper (Phrase .negation)) Precedence.negation.Ends)
    (hp : Reads plain room (Phrase (.chain .equality)) (Precedence.chain .equality).Ends) :
    Reads (unaryOf negationOf operand plain) room (Phrase .negation) Precedence.negation.Ends := by
  refine unaryOf_reads hx hp ?_ ?_ .positive ?_
  · intro t ht
    simp [negationOf, Token.isOperator, ht]
  · intro t op ts e k ht he
    unfold negationOf at ht
    split at ht
    · next ht' => cases ht; exact .not ht' he
    · cases ht
  · intro ts e k h
    cases h with
    | not ht he => exact .inr ⟨_, _, _, _, _, rfl, by simp [negationOf, ht], rfl, rfl, he⟩
    | positive he =>
      obtain ⟨t, us, rfl, ht, -⟩ := he.front
      refine .inl ⟨he, t, us, rfl, ?_⟩
      simp [negationOf, Precedence.opens_word ht .makoroni (by decide)]

/-! ## Chains -/

/-- The reader takes an operator of the chain, or nothing where there is none. What follows
    an operator cannot be a part of it. -/
structure ReadsOperator (x : Parse (Option BinaryOp)) (tier : Tier) : Prop where
  sound : ∀ ts, Runs x ts
    (fun o rest => match o with
      | some op => ∃ os, ts = os ++ rest ∧ tier.Operator os op
      | none => rest = ts) Anyhow
  some : ∀ {os op rest}, tier.Operator os op → Token.leads (·.isOperator .con) rest = false →
    Runs x (os ++ rest) (fun o rest' => o = some op ∧ rest' = rest) (fun _ => False)
  none : ∀ {rest}, (Precedence.chain tier).Ends rest →
    Runs x rest (fun o rest' => o = none ∧ rest' = rest) (fun _ => False)

section Chain

variable {operator : Parse (Option BinaryOp)} {operand : Nat → Parse Expr} {tier : Tier}

/-- `left` holds what the first `n` operators of the chain join. -/
theorem chainRest_sound (ho : ReadsOperator operator tier) : ∀ (room : Nat) {left : Expr}
    {n k : Nat} {us : List Token}, Chain tier n us (bare left) k → k ≤ n + room →
    (∀ r < room, Reads (operand r) r (Phrase tier.operand) tier.operand.Ends) →
    ∀ ts, Runs (chainRest operator operand room left) ts
      (fun e rest => ∃ used n' k', ts = used ++ rest ∧ k' ≤ n + room ∧
        Chain tier n' (us ++ used) (bare e) k') Anyhow
  | 0, left, n, k, us, hleft, hk, _, ts => by
    unfold chainRest
    refine .bind' (ho.sound ts) ?_
    rintro (_ | op) rest h
    · cases h
      exact .pure' ⟨[], n, k, rfl, hk, by simpa using hleft⟩
    · exact .tooDeep_sound
  | room + 1, left, n, k, us, hleft, hk, hx, ts => by
    unfold chainRest
    refine .bind' (ho.sound ts) ?_
    rintro (_ | op) rest h
    · cases h
      exact .pure' ⟨[], n, k, rfl, hk, by simpa using hleft⟩
    · obtain ⟨os, rfl, hop⟩ := h
      refine (hx room (Nat.lt_succ_self room)).sound_bind ?_
      rintro right used rest' k' rfl hk' hright
      have hnext : Chain tier (n + 1) (us ++ (os ++ used)) (bare (binaryNode op left right))
          (max k (n + 1 + k')) := .next hleft hop hright
      refine (chainRest_sound ho room hnext (by omega) (fun r hr => hx r (by omega)) rest').mono
        ?_ (fun _ he => he)
      rintro e rest'' ⟨used', n', k'', rfl, hk'', he⟩
      refine ⟨os ++ (used ++ used'), n', k'', by simp, by omega, ?_⟩
      simpa using he

/-- Where no operator follows, the chain is over. -/
theorem chainRest_none {rest : List Token} {e : Expr} {Q : Expr → List Token → Prop}
    {E : Error → Prop} (h : Runs operator rest (fun o rest' => o = none ∧ rest' = rest)
      (fun _ => False)) (hQ : Q e rest) :
    ∀ room, Runs (chainRest operator operand room e) rest Q E := by
  intro room
  cases room with
  | zero =>
    unfold chainRest
    refine .bind' h.of_total ?_
    rintro _ _ ⟨rfl, rfl⟩
    exact .pure' hQ
  | succ room =>
    unfold chainRest
    refine .bind' h.of_total ?_
    rintro _ _ ⟨rfl, rfl⟩
    exact .pure' hQ

/-- Reading a chain comes down to reading what follows it with the chain in hand, in the
    room that its operators leave. -/
theorem chain_complete (ho : ReadsOperator operator tier) {room K : Nat}
    (hx : ∀ r ≤ room, Reads (operand r) r (Phrase tier.operand) tier.operand.Ends)
    {Q : Expr → List Token → Prop} : ∀ (n : Nat) {ts rest : List Token} {e : Expr} {k : Nat},
    Chain tier n ts e k → tier.operand.Ends rest → k ≤ K →
    (∀ e', bare e' = e → k ≤ room → n ≤ room →
      Runs (chainRest operator operand (room - n) e') rest Q (Late room K)) →
    Runs (chain operator operand room) (ts ++ rest) Q (Late room K)
  | 0, ts, rest, e, k, .first h, hrest, hk, hf => by
    unfold chain
    refine (hx room (Nat.le_refl _)).complete_bind h hrest hk (fun e' hroom he' => ?_)
    exact hf e' he' hroom (Nat.zero_le _)
  | n + 1, _, rest, _, _, @Chain.next _ _ ts os us op left right k k' hleft hop hright, hrest,
      hk, hf => by
    rw [List.append_assoc, List.append_assoc]
    refine chain_complete ho hx n hleft (hop.ends _) (by omega) (fun left' hl hroom hn => ?_)
    -- No operand begins with the word that could still belong to the operator.
    have hcon : Token.leads (·.isOperator .con) (us ++ rest) = false := by
      obtain ⟨t, us', rfl, ht, -⟩ := hright.front
      exact Precedence.opens_word ht .con (by cases tier <;> decide)
    have hop' := ho.some hop hcon
    cases hr : room - n with
    | zero =>
      -- The operators before this one have used up the room.
      unfold chainRest
      refine .bind' hop'.of_total ?_
      rintro _ _ ⟨rfl, rfl⟩
      exact .tooDeep (fun s => ⟨by omega, rfl⟩)
    | succ r =>
      unfold chainRest
      refine .bind' hop'.of_total ?_
      rintro _ _ ⟨rfl, rfl⟩
      refine .bind' (((hx r (by omega)).complete us right k' rest hright hrest).mono
        (fun _ _ h => h) ?_) ?_
      · exact fun err herr => herr.mono (by omega)
      · rintro right' _ ⟨hk', rfl, hr'⟩
        have hnode : bare (binaryNode op left' right') = .binary op left right .blank := by
          rw [← hl, ← hr']; rfl
        have := hf _ hnode (by omega) (by omega)
        rwa [show room - (n + 1) = r by omega] at this

theorem chain_reads (ho : ReadsOperator operator tier) {room : Nat}
    (hx : ∀ r ≤ room, Reads (operand r) r (Phrase tier.operand) tier.operand.Ends) :
    Reads (chain operator operand room) room (Phrase (.chain tier))
      (Precedence.chain tier).Ends where
  sound ts := by
    unfold chain
    refine (hx room (Nat.le_refl _)).sound_bind ?_
    rintro left used rest k rfl hk hleft
    refine (chainRest_sound ho room (.first hleft) (by omega) (fun r hr => hx r (by omega))
      rest).mono ?_ (fun _ he => he)
    rintro e rest' ⟨used', n, k', rfl, hk', he⟩
    exact ⟨used ++ used', k', by simp, by omega, .chain he⟩
  complete := by
    rintro used e k rest ⟨h⟩ hrest
    refine chain_complete ho hx _ h (hrest.of_le (Nat.le_of_lt tier.rank_operand))
      (Nat.le_refl k) (fun e' he' hk hn => ?_)
    exact chainRest_none (ho.none hrest) ⟨hk, rfl, he'⟩ _

end Chain

/-! ## Operators between operands -/

/-- The first choice whose word comes next is taken. -/
theorem binaryOperator_runs (ts : List Token) : ∀ choices : List (Operator × BinaryOp),
    Runs (binaryOperator choices) ts
      (fun o rest => match choices.find? (fun p => Token.leads (·.isOperator p.1) ts) with
        | some p => o = some p.2 ∧ rest = ts.tail
        | none => o = none ∧ rest = ts) (fun _ => False)
  | [] => .pure' ⟨rfl, rfl⟩
  | (word, op) :: choices => by
    simp only [binaryOperator]
    refine .accept (Token.inner_operator word) ?_ (fun hw => ?_)
    · rintro t us rfl ht
      refine .pure' ?_
      simp [Token.leads, ht]
    · simp only [List.find?_cons, hw]
      exact binaryOperator_runs ts choices

theorem binaryOperator_reads {tier : Tier} {choices : List (Operator × BinaryOp)}
    (hc : tier.operators = choices.map (fun p => ([p.1], p.2)))
    (hdistinct : ∀ p ∈ choices, ∀ q ∈ choices, p.1 = q.1 → p = q) :
    ReadsOperator (binaryOperator choices) tier where
  sound ts := by
    refine (binaryOperator_runs ts choices).of_total.mono ?_ (fun _ h => h)
    intro o rest h
    split at h
    · next p hp =>
      obtain ⟨rfl, rfl⟩ := h
      have hmem := List.mem_of_find?_eq_some hp
      have hlead := List.find?_some hp
      cases ts with
      | nil => cases hlead
      | cons t us =>
        have ht : t.kind = .operator p.1 := by
          simpa [Token.leads, Token.isOperator] using hlead
        exact ⟨[t], rfl, [p.1], by rw [hc]; exact List.mem_map_of_mem hmem, by simp [ht]⟩
    · obtain ⟨rfl, rfl⟩ := h
      rfl
  some := by
    rintro os op rest ⟨words, hmem, hmap⟩ -
    rw [hc] at hmem
    obtain ⟨p, hp, hpe⟩ := List.mem_map.1 hmem
    cases hpe
    cases os with
    | nil => cases hmap
    | cons t os' =>
      cases os' with
      | cons _ _ => simp at hmap
      | nil =>
        have ht : t.kind = .operator p.1 := by simpa using hmap
        refine (binaryOperator_runs ([t] ++ rest) choices).mono ?_ (fun _ h => h)
        intro o rest' h
        have hlead : ∀ q : Operator × BinaryOp,
            Token.leads (·.isOperator q.1) ([t] ++ rest) = true → p.1 = q.1 := by
          intro q hq
          simpa [Token.leads, Token.isOperator, ht] using hq
        -- The choices have distinct words, so the one that is found is the one that was meant.
        split at h
        · next q hq =>
          have hlead' := List.find?_some hq
          rw [hdistinct p hp q (List.mem_of_find?_eq_some hq) (hlead q hlead')]
          exact h
        · next hnone =>
          have := List.find?_eq_none.1 hnone p hp
          simp [Token.leads, Token.isOperator, ht] at this
  none := by
    intro rest hrest
    refine (binaryOperator_runs rest choices).mono ?_ (fun _ h => h)
    intro o rest' h
    split at h
    · next p hp =>
      have hmem : ([p.1], p.2) ∈ tier.operators := by
        rw [hc]; exact List.mem_map_of_mem (List.mem_of_find?_eq_some hp)
      have hrank := tier.operators_rank _ hmem
      have hlead := List.find?_some hp
      rw [hrest.leads_word (by simpa using hrank) (Nat.le_refl _)] at hlead
      cases hlead
    · exact h

theorem orderOperator_reads : ReadsOperator orderOperator .order where
  sound ts := by
    unfold orderOperator
    refine .accept (Token.inner_operator .lacon) ?_ (fun _ => ?_)
    · rintro t us rfl ht
      have hk := Token.isOperator_iff.1 ht
      exact .pure' ⟨[t], rfl, [.lacon], by decide, by simp [hk]⟩
    refine .accept (Token.inner_operator .la) ?_ (fun _ => ?_)
    · rintro t us rfl ht
      have hk := Token.isOperator_iff.1 ht
      refine .accept (Token.inner_operator .con) ?_ (fun _ => ?_)
      · rintro t' us rfl ht'
        have hk' := Token.isOperator_iff.1 ht'
        exact .pure' ⟨[t, t'], rfl, [.la, .con], by decide, by simp [hk, hk']⟩
      · exact .pure' ⟨[t], rfl, [.la], by decide, by simp [hk]⟩
    refine .accept (Token.inner_operator .looka) ?_ (fun _ => .pure' rfl)
    rintro t us rfl ht
    have hk := Token.isOperator_iff.1 ht
    refine .expect_sound (Token.inner_operator .too) ?_
    rintro t' us rfl ht'
    have hk' := Token.isOperator_iff.1 ht'
    refine .accept (Token.inner_operator .con) ?_ (fun _ => ?_)
    · rintro t'' us rfl ht''
      have hk'' := Token.isOperator_iff.1 ht''
      exact .pure' ⟨[t, t', t''], rfl, [.looka, .too, .con], by decide, by simp [hk, hk', hk'']⟩
    · exact .pure' ⟨[t, t'], rfl, [.looka, .too], by decide, by simp [hk, hk']⟩
  some := by
    have hother : ∀ {t : Token} {word other : Operator}, t.kind = .operator word →
        word ≠ other → t.isOperator other = false := by
      intro t word other h hne; simp [Token.isOperator, h, hne]
    rintro os op rest ⟨words, hmem, hmap⟩ hcon
    unfold orderOperator
    simp only [Tier.operators, List.mem_cons, Prod.mk.injEq, List.not_mem_nil, or_false] at hmem
    rcases hmem with ⟨rfl, rfl⟩ | ⟨rfl, rfl⟩ | ⟨rfl, rfl⟩ | ⟨rfl, rfl⟩ | ⟨rfl, rfl⟩
    all_goals
      simp only [List.map_cons, List.map_nil, List.map_eq_cons_iff, List.map_eq_nil_iff] at hmap
    · obtain ⟨t, _, rfl, ht, rfl⟩ := hmap
      refine .accept_false (Token.inner_operator .lacon) (hother ht (by decide)) ?_
      refine .accept_true (Token.inner_operator .la) (Token.isOperator_iff.2 ht) ?_
      exact .accept_false (Token.inner_operator .con) hcon (.pure' ⟨rfl, rfl⟩)
    · obtain ⟨t, _, rfl, ht, t', _, rfl, ht', rfl⟩ := hmap
      refine .accept_false (Token.inner_operator .lacon) (hother ht (by decide)) ?_
      refine .accept_true (Token.inner_operator .la) (Token.isOperator_iff.2 ht) ?_
      refine .accept_true (Token.inner_operator .con) (Token.isOperator_iff.2 ht') ?_
      exact .pure' ⟨rfl, rfl⟩
    · obtain ⟨t, _, rfl, ht, rfl⟩ := hmap
      refine .accept_true (Token.inner_operator .lacon) (Token.isOperator_iff.2 ht) ?_
      exact .pure' ⟨rfl, rfl⟩
    · obtain ⟨t, _, rfl, ht, t', _, rfl, ht', rfl⟩ := hmap
      refine .accept_false (Token.inner_operator .lacon) (hother ht (by decide)) ?_
      refine .accept_false (Token.inner_operator .la) (hother ht (by decide)) ?_
      refine .accept_true (Token.inner_operator .looka) (Token.isOperator_iff.2 ht) ?_
      refine .expect (Token.isOperator_iff.2 ht') ?_
      exact .accept_false (Token.inner_operator .con) hcon (.pure' ⟨rfl, rfl⟩)
    · obtain ⟨t, _, rfl, ht, t', _, rfl, ht', t'', _, rfl, ht'', rfl⟩ := hmap
      refine .accept_false (Token.inner_operator .lacon) (hother ht (by decide)) ?_
      refine .accept_false (Token.inner_operator .la) (hother ht (by decide)) ?_
      refine .accept_true (Token.inner_operator .looka) (Token.isOperator_iff.2 ht) ?_
      refine .expect (Token.isOperator_iff.2 ht') ?_
      refine .accept_true (Token.inner_operator .con) (Token.isOperator_iff.2 ht'') ?_
      exact .pure' ⟨rfl, rfl⟩
  none := by
    intro rest hrest
    unfold orderOperator
    refine .accept_false (Token.inner_operator .lacon) (hrest.leads_word rfl (by decide)) ?_
    refine .accept_false (Token.inner_operator .la) (hrest.leads_word rfl (by decide)) ?_
    refine .accept_false (Token.inner_operator .looka) (hrest.leads_word rfl (by decide)) ?_
    exact .pure' ⟨rfl, rfl⟩

/-! ## The tower of levels -/

section Tower

variable {nested : Nat → Parse Expr} {room : Nat}

theorem product_reads (hn : ∀ r ≤ room, Reads (nested r) r Expression Closed) :
    ∀ r ≤ room,
      Reads (product nested r) r (Phrase (.chain .product)) (Precedence.chain .product).Ends :=
  fun r hr => chain_reads (binaryOperator_reads rfl (by decide))
    (fun s hs => signed_reads s (fun q hq => hn q (by omega)))

theorem sum_reads (hn : ∀ r ≤ room, Reads (nested r) r Expression Closed) :
    ∀ r ≤ room, Reads (sum nested r) r (Phrase (.chain .sum)) (Precedence.chain .sum).Ends :=
  fun r hr => chain_reads (binaryOperator_reads rfl (by decide))
    (fun s hs => product_reads hn s (by omega))

theorem order_reads (hn : ∀ r ≤ room, Reads (nested r) r Expression Closed) :
    ∀ r ≤ room, Reads (order nested r) r (Phrase (.chain .order)) (Precedence.chain .order).Ends :=
  fun r hr => chain_reads orderOperator_reads (fun s hs => sum_reads hn s (by omega))

theorem equality_reads (hn : ∀ r ≤ room, Reads (nested r) r Expression Closed) :
    ∀ r ≤ room,
      Reads (equality nested r) r (Phrase (.chain .equality)) (Precedence.chain .equality).Ends :=
  fun r hr => chain_reads (binaryOperator_reads rfl (by decide))
    (fun s hs => order_reads hn s (by omega))

theorem negation_reads (hn : ∀ r ≤ room, Reads (nested r) r Expression Closed) :
    ∀ r ≤ room, Reads (negation nested r) r (Phrase .negation) Precedence.negation.Ends
  | 0, hr => unaryOf_negationOf_reads (tooDeep_reads _ _) (equality_reads hn 0 hr)
  | r + 1, hr =>
    unaryOf_negationOf_reads (negation_reads hn r (by omega)).deeper (equality_reads hn (r + 1) hr)

theorem conjunction_reads (hn : ∀ r ≤ room, Reads (nested r) r Expression Closed) :
    ∀ r ≤ room,
      Reads (conjunction nested r) r (Phrase (.chain .and)) (Precedence.chain .and).Ends :=
  fun r hr => chain_reads (binaryOperator_reads rfl (by decide))
    (fun s hs => negation_reads hn s (by omega))

theorem disjunction_reads (hn : ∀ r ≤ room, Reads (nested r) r Expression Closed) :
    Reads (disjunction nested room) room (Phrase (.chain .or)) (Precedence.chain .or).Ends :=
  chain_reads (binaryOperator_reads rfl (by decide))
    (fun s hs => conjunction_reads hn s (by omega))

end Tower

theorem expression_iff {ts : List Token} {e : Expr} {k : Nat} :
    Expression ts e k ↔ Deeper (Phrase (.chain .or)) ts e k := by
  constructor
  · rintro ⟨h⟩
    exact ⟨_, rfl, h⟩
  · rintro ⟨k', rfl, h⟩
    exact .mk h

/-- With enough depth for the room, whole expressions are read. The depth goes down with
    every expression inside another, and so does the room. -/
theorem expressionWithin_reads : ∀ depth room, room ≤ depth →
    Reads (expressionWithin depth room) room Expression Closed
  | 0, 0, _ => (tooDeep_reads _ _).of_iff expression_iff
  | _ + 1, 0, _ => (tooDeep_reads _ _).of_iff expression_iff
  | depth + 1, room + 1, h =>
    (disjunction_reads (fun r hr => expressionWithin_reads depth r (by omega))).deeper.of_iff
      expression_iff

theorem expression_reads (room : Nat) : Reads (expression room) room Expression Closed :=
  expressionWithin_reads room room (Nat.le_refl room)

/-! ## Expressions alone -/

theorem standaloneExpression_sound (ts : List Token) : Runs standaloneExpression ts
    (fun e _ => ∃ k, Expression ts (bare e) k ∧ k ≤ maxNesting) Anyhow := by
  unfold standaloneExpression
  refine (expression_reads maxNesting).sound_bind ?_
  rintro e used rest k rfl hk he
  cases rest with
  | nil =>
    refine .peek_nil (fun t ht => ?_)
    rw [if_pos (by simp [Token.isEnd, ht]), List.append_nil]
    exact .pure' ⟨k, he, hk⟩
  | cons t us =>
    refine .of_not_isEnd (fun hend => .peek ?_)
    rw [if_neg (by simp [hend])]
    exact .fail_sound _ _

theorem standaloneExpression_complete {ts : List Token} {e : Expr} {k : Nat}
    (h : Expression ts e k) : Runs standaloneExpression ts
      (fun e' _ => k ≤ maxNesting ∧ bare e' = e) (Late maxNesting k) := by
  unfold standaloneExpression
  rw [← List.append_nil ts]
  refine (expression_reads maxNesting).complete_bind h rfl (Nat.le_refl k) ?_
  intro e' hk he
  refine .peek_nil (fun t ht => ?_)
  rw [if_pos (by simp [Token.isEnd, ht])]
  exact .pure' ⟨hk, he⟩

end Bello.Parse
