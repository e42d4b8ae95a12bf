import Bello.Proofs.Grammar.Rules

/- How phrases begin, and what ends them.

   A reader decides by the next token, so two facts about the grammar carry it. A phrase
   begins with a token of its level (`Phrase.front`, `Statement.front`), which tells apart
   the alternatives of a rule. And tokens that continue a phrase have a rank, the level at
   which they do so: a phrase ends before every token of a rank above its own
   (`Precedence.Ends`), so operators of a chain end the operands between them. -/
namespace Bello

namespace Token

variable {t : Token}

theorem isKeyword_iff {word : Keyword} : t.isKeyword word = true ↔ t.kind = .keyword word := by
  simp [isKeyword]

theorem isOperator_iff {word : Operator} : t.isOperator word = true ↔ t.kind = .operator word := by
  simp [isOperator]

theorem isDelimiter_iff {text : String} :
    t.isDelimiter text = true ↔ t.kind = .delimiter ∧ t.lexeme = text := by
  simp [isDelimiter]

/-- The first token, if there is one, satisfies `p`. -/
def leads (p : Token → Bool) : List Token → Bool
  | [] => false
  | t :: _ => p t

theorem leads_false {p q : Token → Bool} (hpq : ∀ t, p t = true → q t = true) :
    ∀ {ts : List Token}, leads q ts = false → leads p ts = false
  | [], _ => rfl
  | t :: _, h => by
    simp only [leads] at h ⊢
    cases hp : p t with
    | false => rfl
    | true => rw [hpq t hp] at h; cases h

end Token

namespace Grammar

/-! ## Ranks -/

/-- The rank of the level that a word continues. -/
def wordRank : Operator → Option Nat
  | .beedo => some 1
  | .dibotada | .poopaye | .pado => some 2
  | .melomo | .flavuk => some 3
  | .la | .lacon | .looka => some 4
  | .con | .nocon => some 5
  | .tropa => some 6
  | .boCa => some 7
  | .lumai | .too | .makoroni => none

/-- The rank of a token that can continue a phrase. A parenthesis continues a name. -/
def rank? (t : Token) : Option Nat :=
  match t.kind with
  | .operator word => wordRank word
  | .delimiter => if t.lexeme = "(" then some 0 else none
  | _ => none

namespace Precedence

def rank : Precedence → Nat
  | primary => 0
  | power | signed => 1
  | chain .product => 2
  | chain .sum => 3
  | chain .order => 4
  | chain .equality | negation => 5
  | chain .and => 6
  | chain .or => 7

/-- The token continues a phrase of the level, or of one of its parts. -/
def continues (L : Precedence) (t : Token) : Bool :=
  match rank? t with
  | some r => r ≤ L.rank
  | none => false

/-- A phrase of the level is over before these tokens. -/
def Ends (L : Precedence) (rest : List Token) : Prop := Token.leads L.continues rest = false

theorem Ends.of_le {L L' : Precedence} (hle : L'.rank ≤ L.rank) {rest : List Token}
    (h : L.Ends rest) : L'.Ends rest := by
  refine Token.leads_false (fun t ht => ?_) h
  unfold continues at ht ⊢
  split at ht
  · next r hr => simp only [decide_eq_true_eq] at ht ⊢; omega
  · cases ht

theorem ends_of_rank {L : Precedence} {t : Token} (h : ∀ r, rank? t = some r → L.rank < r)
    (rest : List Token) : L.Ends (t :: rest) := by
  show L.continues t = false
  unfold continues
  split
  · next r hr => have := h r hr; simp; omega
  · rfl

theorem ends_of_none {L : Precedence} {t : Token} (h : rank? t = none) (rest : List Token) :
    L.Ends (t :: rest) := ends_of_rank (fun r hr => by rw [h] at hr; cases hr) rest

theorem Ends.rank_lt {L : Precedence} {t : Token} {rest : List Token}
    (h : L.Ends (t :: rest)) {r : Nat} (hr : rank? t = some r) : L.rank < r := by
  have hc : L.continues t = false := h
  simpa [continues, hr] using hc

end Precedence

/-- Before these tokens a whole expression is over. -/
abbrev Closed (rest : List Token) : Prop := (Precedence.chain .or).Ends rest

theorem rank?_keyword {t : Token} {word : Keyword} (h : t.isKeyword word = true) :
    rank? t = none := by
  simp [rank?, Token.isKeyword_iff.1 h]

theorem rank?_identifier {t : Token} (h : t.kind = .identifier) : rank? t = none := by
  simp [rank?, h]

theorem rank?_delimiter {t : Token} {text : String} (hne : text ≠ "(")
    (h : t.isDelimiter text = true) : rank? t = none := by
  obtain ⟨hk, hl⟩ := Token.isDelimiter_iff.1 h
  simp [rank?, hk, hl, hne]

theorem rank?_parenthesis {t : Token} (h : t.isDelimiter "(" = true) : rank? t = some 0 := by
  obtain ⟨hk, hl⟩ := Token.isDelimiter_iff.1 h
  simp [rank?, hk, hl]

theorem rank?_operator {t : Token} {word : Operator} (h : t.isOperator word = true) :
    rank? t = wordRank word := by
  simp [rank?, Token.isOperator_iff.1 h]

/-- A word of a rank that is not above the level's would continue it. -/
theorem Precedence.Ends.leads_word {L : Precedence} {rest : List Token} (h : L.Ends rest)
    {word : Operator} {r : Nat} (hr : wordRank word = some r) (hle : r ≤ L.rank) :
    Token.leads (·.isOperator word) rest = false := by
  cases rest with
  | nil => rfl
  | cons t rest =>
    cases ht : t.isOperator word with
    | false => exact ht
    | true =>
      have hlt := h.rank_lt ((rank?_operator ht).trans hr)
      omega

/-! ## Operators of a chain -/

theorem Tier.operators_rank (tier : Tier) : ∀ p ∈ tier.operators,
    p.1.head?.bind wordRank = some (Precedence.chain tier).rank := by
  cases tier <;> decide

theorem Tier.rank_operand (tier : Tier) : tier.operand.rank < (Precedence.chain tier).rank := by
  cases tier <;> decide

/-- An operator begins with a token of the rank of its chain. -/
theorem Tier.Operator.front {tier : Tier} {os : List Token} {op : BinaryOp}
    (h : tier.Operator os op) :
    ∃ o rest, os = o :: rest ∧ rank? o = some (Precedence.chain tier).rank := by
  obtain ⟨words, hmem, hmap⟩ := h
  have hr := tier.operators_rank _ hmem
  cases words with
  | nil => cases hr
  | cons word words =>
    cases os with
    | nil => cases hmap
    | cons o rest =>
      simp only [List.map_cons, List.cons.injEq] at hmap
      refine ⟨o, rest, rfl, ?_⟩
      simpa [rank?, hmap.1] using hr

theorem Tier.Operator.ends {tier : Tier} {os : List Token} {op : BinaryOp}
    (h : tier.Operator os op) (rest : List Token) : tier.operand.Ends (os ++ rest) := by
  obtain ⟨o, os', rfl, hr⟩ := h.front
  refine Precedence.ends_of_rank (fun r hr' => ?_) _
  rw [hr] at hr'
  cases hr'
  exact tier.rank_operand

/-! ## Beginnings of expressions -/

/-- The token begins an operand. -/
def isOperand (t : Token) : Bool :=
  match t.kind with
  | .number | .text | .identifier | .keyword .da | .keyword .no => true
  | .delimiter => t.lexeme == "("
  | _ => false

namespace Precedence

/-- The words that can stand before the first operand of a phrase. -/
def leaders : Precedence → List Operator
  | primary | power => []
  | signed | chain .product | chain .sum | chain .order | chain .equality => [.melomo, .flavuk]
  | negation | chain .and | chain .or => [.melomo, .flavuk, .makoroni]

/-- The token begins a phrase of the level. -/
def opens (L : Precedence) (t : Token) : Bool := isOperand t || L.leaders.any t.isOperator

theorem opens_mono {L L' : Precedence} (h : ∀ w ∈ L.leaders, w ∈ L'.leaders) {t : Token}
    (ht : L.opens t = true) : L'.opens t = true := by
  simp only [opens, Bool.or_eq_true, List.any_eq_true] at ht ⊢
  rcases ht with ht | ⟨w, hw, ht⟩
  · exact .inl ht
  · exact .inr ⟨w, h w hw, ht⟩

theorem opens_operator {L : Precedence} {w : Operator} (hw : w ∈ L.leaders) {t : Token}
    (ht : t.isOperator w = true) : L.opens t = true := by
  simp only [opens, Bool.or_eq_true, List.any_eq_true]
  exact .inr ⟨w, hw, ht⟩

theorem opens_operand {L : Precedence} {t : Token} (ht : isOperand t = true) :
    L.opens t = true := by
  simp only [opens, ht, Bool.true_or]

theorem opens_cases {L : Precedence} {t : Token} (h : L.opens t = true) :
    t.kind = .number ∨ t.kind = .text ∨ t.kind = .identifier ∨ t.kind = .keyword .da ∨
      t.kind = .keyword .no ∨ (t.kind = .delimiter ∧ t.lexeme = "(") ∨
      ∃ w ∈ L.leaders, t.kind = .operator w := by
  simp only [opens, Bool.or_eq_true, List.any_eq_true] at h
  rcases h with h | ⟨w, hw, h⟩
  · unfold isOperand at h
    split at h <;> simp_all
  · have hk := Token.isOperator_iff.1 h
    simp only [hk, reduceCtorEq, false_and, false_or]
    exact ⟨w, hw, rfl⟩

/-- No phrase begins with any delimiter but the one parenthesis. -/
theorem opens_delimiter {L : Precedence} {t : Token} (h : L.opens t = true) {text : String}
    (hne : text ≠ "(") : t.isDelimiter text = false := by
  rcases opens_cases h with h | h | h | h | h | h | ⟨w, -, h⟩
  all_goals simp [Token.isDelimiter, h, Ne.symm hne]

theorem opens_keyword {L : Precedence} {t : Token} (h : L.opens t = true) {word : Keyword}
    (hda : word ≠ .da) (hno : word ≠ .no) : t.isKeyword word = false := by
  rcases opens_cases h with h | h | h | h | h | h | ⟨w, -, h⟩
  all_goals simp [Token.isKeyword, h, Ne.symm hda, Ne.symm hno]

theorem opens_word {L : Precedence} {t : Token} (h : L.opens t = true) (word : Operator)
    (hw : word ∉ L.leaders) : t.isOperator word = false := by
  cases ht : t.isOperator word with
  | false => rfl
  | true =>
    have hk := Token.isOperator_iff.1 ht
    have hmem : word ∈ L.leaders := by simpa [opens, isOperand, Token.isOperator, hk] using h
    exact absurd hmem hw

end Precedence

theorem isOperand_keyword {t : Token} {w : Keyword} (hw : w = .da ∨ w = .no)
    (h : t.isKeyword w = true) : isOperand t = true := by
  have hk := Token.isKeyword_iff.1 h
  rcases hw with rfl | rfl <;> simp [isOperand, hk]

theorem isOperand_parenthesis {t : Token} (h : t.isDelimiter "(" = true) :
    isOperand t = true := by
  obtain ⟨hk, hl⟩ := Token.isDelimiter_iff.1 h
  simp [isOperand, hk, hl]

/-- The tokens begin as a phrase of the level does; and if they begin with a name, the next
    of them continues it. -/
def Front (L : Precedence) (ts : List Token) : Prop :=
  ∃ t rest, ts = t :: rest ∧ L.opens t = true ∧
    (t.kind = .identifier → ∀ o ∈ rest.head?, (rank? o).isSome)

theorem Front.mono {L L' : Precedence} (h : ∀ w ∈ L.leaders, w ∈ L'.leaders) {ts : List Token}
    (hts : Front L ts) : Front L' ts := by
  obtain ⟨t, rest, rfl, ht, hn⟩ := hts
  exact ⟨t, rest, rfl, Precedence.opens_mono h ht, hn⟩

/-- More tokens may follow if the first of them has a rank. -/
theorem Front.append {L : Precedence} {ts : List Token} (hts : Front L ts) {o : Token}
    (ho : (rank? o).isSome) (us : List Token) : Front L (ts ++ o :: us) := by
  obtain ⟨t, rest, rfl, ht, hn⟩ := hts
  refine ⟨t, rest ++ o :: us, rfl, ht, fun hk o' ho' => ?_⟩
  cases rest with
  | nil => cases ho'; exact ho
  | cons o'' rest => exact hn hk o' ho'

theorem Front.single {L : Precedence} {t : Token} (ht : isOperand t = true) : Front L [t] :=
  ⟨t, [], rfl, Precedence.opens_operand ht, fun _ _ h => by cases h⟩

/-- A word is not a name. -/
theorem Front.word {L : Precedence} {w : Operator} (hw : w ∈ L.leaders) {t : Token}
    (ht : t.isOperator w = true) (ts : List Token) : Front L (t :: ts) := by
  refine ⟨t, ts, rfl, Precedence.opens_operator hw ht, fun hk => ?_⟩
  simp [Token.isOperator, hk] at ht

theorem Arguments.front {ts : List Token} {args : List Expr} {k : Nat} (h : Arguments ts args k) :
    ∃ l rest, ts = l :: rest ∧ l.isDelimiter "(" = true := by
  cases h with
  | none hl _ => exact ⟨_, _, rfl, hl⟩
  | some hl _ _ _ => exact ⟨_, _, rfl, hl⟩

mutual

-- The recursion follows the first part of each rule, so parentheses need no look inside.
theorem Phrase.front {L : Precedence} {ts : List Token} {e : Expr} {k : Nat} :
    Phrase L ts e k → Front L ts
  | .chain h => h.front
  | .not ht _ => .word (by decide) ht _
  | .positive h => h.front.mono (by decide)
  | .sign hw ht _ => .word (List.mem_map_of_mem (f := Prod.fst) hw) ht _
  | .unsigned h => h.front.mono (by decide)
  | .raise h ht _ => (h.front.mono (by decide)).append (by rw [rank?_operator ht]; rfl) _
  | .base h => h.front.mono (by decide)
  | .number hk _ => .single (by simp [isOperand, hk])
  | .yes ht => .single (isOperand_keyword (.inl rfl) ht)
  | .no ht => .single (isOperand_keyword (.inr rfl) ht)
  | .text hk => .single (by simp [isOperand, hk])
  | .constant hk _ => .single (by simp [isOperand, hk])
  | .var hk _ => .single (by simp [isOperand, hk])
  | .call (t := t) hk _ hargs => by
    obtain ⟨l, rest, rfl, hl⟩ := hargs.front
    have ht : Front .primary [t] := .single (by simp [isOperand, hk])
    exact ht.append (by rw [rank?_parenthesis hl]; rfl) rest
  | .parens hl _ _ => by
    refine ⟨_, _, rfl, Precedence.opens_operand (isOperand_parenthesis hl), fun hk => ?_⟩
    simp [Token.isDelimiter, hk] at hl

theorem Chain.front {tier : Tier} {n : Nat} {ts : List Token} {e : Expr} {k : Nat} :
    Chain tier n ts e k → Front (.chain tier) ts
  | .first h => h.front.mono (by cases tier <;> decide)
  | .next h hop _ => by
    obtain ⟨o, os', rfl, hr⟩ := hop.front
    exact h.front.append (by rw [hr]; rfl) _

end

theorem Expression.front {ts : List Token} {e : Expr} {k : Nat} :
    Expression ts e k → Front (.chain .or) ts
  | .mk h => h.front

/-! ## Beginnings of statements -/

/-- The words that statements begin with. -/
def statementWords : List Keyword :=
  [.poop, .guoleila, .tulalilloo, .biDo, .kemari, .again, .tank, .oca]

def opensStatement (t : Token) : Bool :=
  (Precedence.chain .or).opens t || statementWords.any t.isKeyword

theorem opensStatement_word {t : Token} {word : Keyword} (hw : word ∈ statementWords)
    (ht : t.isKeyword word = true) : opensStatement t = true := by
  simp only [opensStatement, Bool.or_eq_true, List.any_eq_true]
  exact .inr ⟨word, hw, ht⟩

theorem opensStatement_keyword {t : Token} (h : opensStatement t = true) (word : Keyword)
    (hw : word ∉ .da :: .no :: statementWords) : t.isKeyword word = false := by
  simp only [List.mem_cons, not_or] at hw
  simp only [opensStatement, Bool.or_eq_true, List.any_eq_true] at h
  rcases h with h | ⟨w, hmem, ht⟩
  · exact Precedence.opens_keyword h hw.1 hw.2.1
  · have hne : w ≠ word := fun he => hw.2.2 (he ▸ hmem)
    simp [Token.isKeyword, Token.isKeyword_iff.1 ht, hne]

theorem Body.front {ts : List Token} {b : Block} {k : Nat} (h : Body ts b k) :
    ∃ o us, ts = o :: us ∧ o.isKeyword .oca = true := by
  cases h with
  | mk ho _ _ => exact ⟨_, _, rfl, ho⟩

theorem Statement.front {ts : List Token} {s : Stmt} {k : Nat} (h : Statement ts s k) :
    ∃ t us, ts = t :: us ∧ opensStatement t = true := by
  cases h with
  | declare hd _ _ _ => exact ⟨_, _, rfl, opensStatement_word (by decide) hd⟩
  | assign hn _ _ _ =>
    refine ⟨_, _, rfl, ?_⟩
    rw [opensStatement, Precedence.opens_operand (by simp [isOperand, hn]), Bool.true_or]
  | input hg _ _ _ _ => exact ⟨_, _, rfl, opensStatement_word (by decide) hg⟩
  | output hw _ _ _ _ => exact ⟨_, _, rfl, opensStatement_word (by decide) hw⟩
  | choose hi _ _ => exact ⟨_, _, rfl, opensStatement_word (by decide) hi⟩
  | chooseElse hi _ _ _ _ => exact ⟨_, _, rfl, opensStatement_word (by decide) hi⟩
  | repeatWhile hw _ _ => exact ⟨_, _, rfl, opensStatement_word (by decide) hw⟩
  | count ha _ _ _ _ _ _ _ _ => exact ⟨_, _, rfl, opensStatement_word (by decide) ha⟩
  | giveBack ht _ _ _ => exact ⟨_, _, rfl, opensStatement_word (by decide) ht⟩
  | block hb =>
    obtain ⟨o, us, rfl, ho⟩ := hb.front
    exact ⟨o, us, rfl, opensStatement_word (by decide) ho⟩
  | evaluate he _ =>
    obtain ⟨t, us, rfl, ht, -⟩ := he.front
    exact ⟨t, _, rfl, by rw [opensStatement, ht, Bool.true_or]⟩

theorem TopLevel.front {ts : List Token} {i : Item} {k : Nat} (h : TopLevel ts i k) :
    ∃ t us, ts = t :: us ∧ t.isKeyword .uhOh = false := by
  cases h with
  | constant h =>
    cases h with
    | mk hd _ _ _ _ => exact ⟨_, _, rfl, by simp [Token.isKeyword, Token.isKeyword_iff.1 hd]⟩
  | function h =>
    cases h with
    | mk hd _ _ _ _ _ _ => exact ⟨_, _, rfl, by simp [Token.isKeyword, Token.isKeyword_iff.1 hd]⟩
  | statement h =>
    obtain ⟨t, us, rfl, ht⟩ := h.front
    exact ⟨t, us, rfl, opensStatement_keyword ht .uhOh (by decide)⟩

end Grammar

end Bello
