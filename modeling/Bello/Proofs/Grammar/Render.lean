import Bello.Proofs.Layout.Parse
import Bello.Proofs.Token.Spelling

/- Programs written back as source.

   `tokens` writes a tree as tokens: every operator stands in parentheses with its operands,
   and so does every text; numbers are plain digits. `render` is the text of these tokens.
   A tree that the grammar derives from the tokens of some source is derived from its own
   tokens too, and they can be written (`Rewrites`). The proof follows the derivation, which
   is where names are known not to be words of the language, and texts to be closed. Each
   expression comes back as an operand, whatever precedence it was derived at. -/
namespace Bello

open Parse (wordToken typeTag)

/-! ## Tokens of trees -/

namespace Token

def ofOperator (o : Operator) : Token := ⟨.operator o, o.spelling, .blank⟩

def ofName (name : String) : Token := ⟨.identifier, name, .blank⟩

def ofNumber (d : Decimal) : Token := ⟨.number, d.plain, .blank⟩

def ofText (lexeme : String) : Token := ⟨.text, lexeme, .blank⟩

def ofDelimiter (lexeme : String) : Token := ⟨.delimiter, lexeme, .blank⟩

def parens (ts : List Token) : List Token := ofDelimiter "(" :: (ts ++ [ofDelimiter ")"])

end Token

def NamedConstant.spelling : NamedConstant → String
  | pi => "belloPi"
  | e => "belloE"

def UnaryOp.word : UnaryOp → Operator
  | plus => .melomo
  | minus => .flavuk
  | not => .makoroni

def BinaryOp.words : BinaryOp → List Operator
  | add => [.melomo]
  | sub => [.flavuk]
  | mul => [.dibotada]
  | div => [.poopaye]
  | rem => [.pado]
  | pow => [.beedo]
  | eq => [.con]
  | ne => [.nocon]
  | lt => [.la]
  | le => [.lacon]
  | gt => [.looka, .too]
  | ge => [.looka, .too, .con]
  | and => [.tropa]
  | or => [.boCa]

open Token (ofOperator ofName ofNumber ofText ofDelimiter parens)

mutual

def Expr.tokens : Expr → List Token
  | .number v _ => [ofNumber v]
  | .constant c _ => [ofName c.spelling]
  | .var name => [ofName name.name]
  | .unary op operand _ => parens (ofOperator op.word :: operand.tokens)
  | .binary op left right _ => parens (left.tokens ++ (op.words.map ofOperator ++ right.tokens))
  | .call name [] _ => ofName name.name :: parens []
  | .call name (e :: es) _ => ofName name.name :: parens (e.tokens ++ Expr.moreTokens es)
  | .text lexeme _ => parens [ofText lexeme]

/-- Arguments after the first one. -/
def Expr.moreTokens : List Expr → List Token
  | [] => []
  | e :: es => (ofDelimiter "," :: e.tokens) ++ Expr.moreTokens es

end

mutual

def Stmt.tokens : Stmt → List Token
  | .declare name _ => [wordToken .poop, ofName name.name, ofName typeTag, wordToken .naidu]
  | .assign target value _ =>
    ofName target.name :: ofOperator .lumai :: (value.tokens ++ [wordToken .naidu])
  | .input target _ => [wordToken .guoleila, ofDelimiter "(", ofName target.name, ofDelimiter ")",
      wordToken .naidu]
  | .output value _ => wordToken .tulalilloo :: wordToken .ti :: wordToken .amo ::
      (parens value.tokens ++ [wordToken .naidu])
  | .choose condition yes none _ =>
    wordToken .biDo :: (parens condition.tokens ++ yes.tokens)
  | .choose condition yes (some no) _ =>
    wordToken .biDo :: (parens condition.tokens ++ (yes.tokens ++ wordToken .uhOh :: no.tokens))
  | .repeatWhile condition body _ =>
    wordToken .kemari :: (parens condition.tokens ++ body.tokens)
  | .count counter first last body _ =>
    wordToken .again :: ofDelimiter "(" :: ofName counter.name :: ofDelimiter "=" ::
      (first.tokens ++ ofName "to" :: (last.tokens ++ ofDelimiter ")" :: body.tokens))
  | .giveBack value _ =>
    wordToken .tank :: wordToken .yu :: (value.tokens ++ [wordToken .naidu])
  | .block b => b.tokens
  | .evaluate e _ => e.tokens ++ [wordToken .naidu]

def Block.tokens : Block → List Token
  | .mk statements _ => wordToken .oca :: (Stmt.allTokens statements ++ [wordToken .stopa])

def Stmt.allTokens : List Stmt → List Token
  | [] => []
  | s :: ss => s.tokens ++ Stmt.allTokens ss

end

def ConstantValue.token : ConstantValue → Token
  | .number v => ofNumber v
  | .named c => ofName c.spelling

def ConstantDecl.tokens (d : ConstantDecl) : List Token :=
  [wordToken .trusela, ofName d.name.name, ofName typeTag, d.value.token, wordToken .naidu]

/-- Parameters after the first one. -/
def Function.moreParamTokens : List Ident → List Token
  | [] => []
  | p :: ps => [ofDelimiter ",", ofName p.name] ++ moreParamTokens ps

def Function.paramTokens : List Ident → List Token
  | [] => []
  | p :: ps => ofName p.name :: moreParamTokens ps

def Function.tokens (f : Function) : List Token :=
  wordToken .boss :: ofName f.name.name :: ofName typeTag :: ofDelimiter "(" ::
    (Function.paramTokens f.params ++ ofDelimiter ")" :: f.body.tokens)

def Item.tokens : Item → List Token
  | .constant decl => decl.tokens
  | .function f => f.tokens
  | .statement s => s.tokens

def Program.tokens (p : Program) : List Token :=
  wordToken .bello :: p.items.flatMap Item.tokens

/-- A program as source. -/
def Program.render (p : Program) : String := String.ofList (Token.spell p.tokens)

/-! ## Spans are not written -/

mutual

theorem Expr.tokens_bare : ∀ e : Expr, (Spanned.bare e).tokens = e.tokens
  | .number _ _ | .constant _ _ | .var _ | .text _ _ | .call _ [] _ => rfl
  | .unary op e _ => congrArg (fun ts => parens (ofOperator op.word :: ts)) (Expr.tokens_bare e)
  | .binary op l r _ => by
    show parens ((Spanned.bare l).tokens ++
      (op.words.map ofOperator ++ (Spanned.bare r).tokens)) = _
    rw [Expr.tokens_bare l, Expr.tokens_bare r]
    rfl
  | .call name (e :: es) _ => by
    show ofName name.name ::
      parens ((Spanned.bare e).tokens ++ Expr.moreTokens (Expr.bareAll es)) = _
    rw [Expr.tokens_bare e, Expr.moreTokens_bare es]
    rfl

theorem Expr.moreTokens_bare : ∀ es : List Expr,
    Expr.moreTokens (Expr.bareAll es) = Expr.moreTokens es
  | [] => rfl
  | e :: es => by
    show (ofDelimiter "," :: (Spanned.bare e).tokens) ++ Expr.moreTokens (Expr.bareAll es) = _
    rw [Expr.tokens_bare e, Expr.moreTokens_bare es]
    rfl

end

mutual

theorem Stmt.tokens_bare : ∀ s : Stmt, (Spanned.bare s).tokens = s.tokens
  | .declare _ _ | .input _ _ => rfl
  | .assign target e _ =>
    congrArg (fun ts => ofName target.name :: ofOperator .lumai :: (ts ++ [wordToken .naidu]))
      e.tokens_bare
  | .output e _ =>
    congrArg (fun ts => wordToken .tulalilloo :: wordToken .ti :: wordToken .amo ::
      (parens ts ++ [wordToken .naidu])) e.tokens_bare
  | .choose e yes none _ => by
    show wordToken .biDo :: (parens (Spanned.bare e).tokens ++ (Spanned.bare yes).tokens) = _
    rw [e.tokens_bare, Block.tokens_bare yes]
    rfl
  | .choose e yes (some no) _ => by
    show wordToken .biDo :: (parens (Spanned.bare e).tokens ++
      ((Spanned.bare yes).tokens ++ wordToken .uhOh :: (Spanned.bare no).tokens)) = _
    rw [e.tokens_bare, Block.tokens_bare yes, Block.tokens_bare no]
    rfl
  | .repeatWhile e body _ => by
    show wordToken .kemari :: (parens (Spanned.bare e).tokens ++ (Spanned.bare body).tokens) = _
    rw [e.tokens_bare, Block.tokens_bare body]
    rfl
  | .count counter first last body _ => by
    show wordToken .again :: ofDelimiter "(" :: ofName counter.name :: ofDelimiter "=" ::
      ((Spanned.bare first).tokens ++ ofName "to" ::
        ((Spanned.bare last).tokens ++ ofDelimiter ")" :: (Spanned.bare body).tokens)) = _
    rw [first.tokens_bare, last.tokens_bare, Block.tokens_bare body]
    rfl
  | .giveBack e _ =>
    congrArg (fun ts => wordToken .tank :: wordToken .yu :: (ts ++ [wordToken .naidu]))
      e.tokens_bare
  | .block b => Block.tokens_bare b
  | .evaluate e _ => congrArg (· ++ [wordToken .naidu]) e.tokens_bare

theorem Block.tokens_bare : ∀ b : Block, (Spanned.bare b).tokens = b.tokens
  | .mk ss _ =>
    congrArg (fun ts => wordToken .oca :: (ts ++ [wordToken .stopa])) (Stmt.allTokens_bare ss)

theorem Stmt.allTokens_bare : ∀ ss : List Stmt, Stmt.allTokens (Stmt.bareAll ss) = Stmt.allTokens ss
  | [] => rfl
  | s :: ss => by
    show (Spanned.bare s).tokens ++ Stmt.allTokens (Stmt.bareAll ss) = _
    rw [Stmt.tokens_bare s, Stmt.allTokens_bare ss]
    rfl

end

theorem Function.moreParamTokens_bare : ∀ ps : List Ident,
    moreParamTokens (Spanned.bare ps) = moreParamTokens ps
  | [] => rfl
  | p :: ps => congrArg ([ofDelimiter ",", ofName p.name] ++ ·) (moreParamTokens_bare ps)

theorem Function.tokens_bare (f : Function) : (Spanned.bare f).tokens = f.tokens := by
  have hparams : paramTokens (Spanned.bare f.params) = paramTokens f.params := by
    cases f.params with
    | nil => rfl
    | cons p ps => exact congrArg (ofName p.name :: ·) (moreParamTokens_bare ps)
  show wordToken .boss :: ofName f.name.name :: ofName typeTag :: ofDelimiter "(" ::
    (paramTokens (Spanned.bare f.params) ++ ofDelimiter ")" :: (Spanned.bare f.body).tokens) = _
  rw [hparams, f.body.tokens_bare]
  rfl

theorem Item.tokens_bare : ∀ i : Item, (Spanned.bare i).tokens = i.tokens
  | .constant _ => rfl
  | .function f => f.tokens_bare
  | .statement s => s.tokens_bare

theorem Program.tokens_bare (p : Program) : (Spanned.bare p).tokens = p.tokens := by
  have hitems : ((p.items.map Spanned.bare).flatMap Item.tokens) = p.items.flatMap Item.tokens := by
    rw [List.flatMap_map]
    exact congrArg (p.items.flatMap ·) (funext Item.tokens_bare)
  exact congrArg (wordToken .bello :: ·) hitems

/-! ## Tokens that can be written -/

namespace Token

theorem writable_keyword (k : Keyword) : Writable (wordToken k) where
  stands := stands_keyword k .blank
  kind := nofun
  significant := rfl
  span := rfl
  no_return := by cases k <;> decide

theorem writable_operator (o : Operator) : Writable (ofOperator o) where
  stands := stands_operator o .blank
  kind := nofun
  significant := rfl
  span := rfl
  no_return := by cases o <;> decide

theorem writable_number (d : Decimal) : Writable (ofNumber d) where
  stands := stands_number d .blank
  kind := nofun
  significant := rfl
  span := rfl
  no_return := by
    intro hreturn
    rcases Decimal.mem_plain hreturn with h | h | h <;> cases h

theorem writable_name {name : String} (h : isWord .identifier name.toList = true)
    (hreturn : '\r' ∉ name.toList) : Writable (ofName name) where
  stands := stands_word h .blank
  kind := nofun
  significant := rfl
  span := rfl
  no_return := hreturn

theorem writable_parenthesis {lexeme : String} (h : lexeme = "(" ∨ lexeme = ")") :
    Writable (ofDelimiter lexeme) where
  stands := fun rest _ => scans_parenthesis rest rfl h
  kind := nofun
  significant := rfl
  span := rfl
  no_return := by rcases h with rfl | rfl <;> decide

theorem legible_parens {ts : List Token} (h : Legible ts) : Legible (parens ts) :=
  .cons (writable_parenthesis (.inl rfl)) (h.concat (writable_parenthesis (.inr rfl)))

theorem writable_symbol {lexeme : String} (h : lexeme = "," ∨ lexeme = "=") :
    Writable (ofDelimiter lexeme) where
  stands := stands_symbol rfl h
  kind := nofun
  significant := rfl
  span := rfl
  no_return := by rcases h with rfl | rfl <;> decide

end Token

/-! ## Derivations of what is written -/

namespace Grammar

open Token (Legible Writable Reusable writable_keyword writable_operator writable_number
  writable_name writable_parenthesis writable_symbol legible_parens)

/-- The tokens can be written, and they stand for the tree. -/
def Rewrites {α : Type} (L : Rule α) (ts : List Token) (a : α) : Prop :=
  Legible ts ∧ ∃ k, L ts a k

/-- The next looser level; disjunctions are the loosest. -/
def Precedence.looser : Precedence → Precedence
  | .primary => .power
  | .power => .signed
  | .signed => .chain .product
  | .chain .product => .chain .sum
  | .chain .sum => .chain .order
  | .chain .order => .chain .equality
  | .chain .equality => .negation
  | .negation => .chain .and
  | .chain .and => .chain .or
  | .chain .or => .chain .or

theorem Phrase.loosen {p : Precedence} {ts : List Token} {e : Expr} {k : Nat}
    (h : Phrase p ts e k) : Phrase p.looser ts e k := by
  cases p with
  | primary => exact .base h
  | power => exact .unsigned h
  | negation | signed => exact .chain (.first h)
  | chain tier =>
    cases tier with
    | or => exact h
    | equality => exact .positive h
    | and | order | sum | product => exact .chain (.first h)

/-- An operand can stand at every level. -/
theorem Phrase.of_primary {ts : List Token} {e : Expr} {k : Nat} (h : Phrase .primary ts e k)
    (p : Precedence) : Phrase p ts e k := by
  have hproduct : Phrase (.chain .product) ts e k := h.loosen.loosen.loosen
  have hnegation : Phrase .negation ts e k := hproduct.loosen.loosen.loosen.loosen
  cases p with
  | primary => exact h
  | power => exact h.loosen
  | signed => exact h.loosen.loosen
  | negation => exact hnegation
  | chain tier =>
    cases tier with
    | product => exact hproduct
    | sum => exact hproduct.loosen
    | order => exact hproduct.loosen.loosen
    | equality => exact hproduct.loosen.loosen.loosen
    | and => exact hnegation.loosen
    | or => exact hnegation.loosen.loosen

/-- A phrase of any level is a disjunction. -/
theorem Phrase.to_or {p : Precedence} {ts : List Token} {e : Expr} {k : Nat}
    (h : Phrase p ts e k) : Phrase (.chain .or) ts e k := by
  have hnegation : ∀ {ts e k}, Phrase .negation ts e k → Phrase (.chain .or) ts e k :=
    fun h => h.loosen.loosen
  have hproduct : ∀ {ts e k}, Phrase (.chain .product) ts e k → Phrase (.chain .or) ts e k :=
    fun h => hnegation h.loosen.loosen.loosen.loosen
  cases p with
  | primary => exact hproduct h.loosen.loosen.loosen
  | power => exact hproduct h.loosen.loosen
  | signed => exact hproduct h.loosen
  | negation => exact hnegation h
  | chain tier =>
    cases tier with
    | product => exact hproduct h
    | sum => exact hnegation h.loosen.loosen.loosen
    | order => exact hnegation h.loosen.loosen
    | equality => exact hnegation h.loosen
    | and => exact h.loosen
    | or => exact h

namespace Rewrites

theorem parens {p : Precedence} {ts : List Token} {e : Expr} (h : Rewrites (Phrase p) ts e) :
    Rewrites (Phrase .primary) (Token.parens ts) e := by
  obtain ⟨hlegible, k, hphrase⟩ := h
  exact ⟨legible_parens hlegible, _, .parens (by decide) (.mk hphrase.to_or) (by decide)⟩

theorem expression {ts : List Token} {e : Expr} (h : Rewrites (Phrase .primary) ts e) :
    Rewrites Expression ts e := by
  obtain ⟨hlegible, k, hphrase⟩ := h
  exact ⟨hlegible, _, .mk hphrase.to_or⟩

theorem operators (words : List Operator) : Legible (words.map ofOperator) := by
  induction words with
  | nil => exact .nil
  | cons o words ih => exact .cons (writable_operator o) ih

theorem unary {p : Precedence} {op : UnaryOp} {ts : List Token} {e : Expr}
    (h : Rewrites (Phrase .primary) ts e)
    (hp : ∀ k, Phrase p ts e k → Phrase p (ofOperator op.word :: ts) (.unary op e .blank) (k + 1)) :
    Rewrites (Phrase .primary) (Token.parens (ofOperator op.word :: ts)) (.unary op e .blank) := by
  obtain ⟨hlegible, k, hphrase⟩ := h
  have hunary : Rewrites (Phrase p) (ofOperator op.word :: ts) (.unary op e .blank) :=
    ⟨.cons (writable_operator _) hlegible, _, hp k (hphrase.of_primary p)⟩
  exact hunary.parens

theorem binary {p : Precedence} {op : BinaryOp} {ts us : List Token} {l r : Expr}
    (hl : Rewrites (Phrase .primary) ts l) (hr : Rewrites (Phrase .primary) us r)
    (hp : ∀ k k', Phrase .primary ts l k → Phrase .primary us r k' → ∃ k'',
      Phrase p (ts ++ (op.words.map ofOperator ++ us)) (.binary op l r .blank) k'') :
    Rewrites (Phrase .primary) (Token.parens (ts ++ (op.words.map ofOperator ++ us)))
      (.binary op l r .blank) := by
  obtain ⟨hlegible, k, hphrase⟩ := hl
  obtain ⟨hlegible', k', hphrase'⟩ := hr
  have hbinary : Rewrites (Phrase p) (ts ++ (op.words.map ofOperator ++ us))
      (.binary op l r .blank) :=
    ⟨hlegible.append ((operators op.words).append hlegible'), hp k k' hphrase hphrase'⟩
  exact hbinary.parens

end Rewrites

theorem Tier.operator_words {tier : Tier} {op : BinaryOp} (h : (op.words, op) ∈ tier.operators) :
    tier.Operator (op.words.map ofOperator) op :=
  ⟨op.words, h, by simp [ofOperator, Function.comp_def]⟩

/-- The words that are written for an operator of a chain are among its words. -/
theorem Tier.words_mem {tier : Tier} {os : List Token} {op : BinaryOp} (h : tier.Operator os op) :
    tier.Operator (op.words.map ofOperator) op := by
  obtain ⟨words, hmem, -⟩ := h
  have hwords : ∀ x ∈ tier.operators, (x.2.words, x.2) ∈ tier.operators := by
    cases tier <;> decide
  exact operator_words (hwords _ hmem)

theorem writable_nameOf {t : Token} (h : Reusable t) (hkind : t.kind = .identifier) :
    Writable (ofName (nameOf t).name) := writable_name (h.name hkind) h.no_return

theorem writable_constant (c : NamedConstant) : Writable (ofName c.spelling) := by
  cases c with
  | pi => exact writable_name (by decide) (by decide)
  | e => exact writable_name (by decide) (by decide)

theorem NamedConstant.ofName?_spelling (c : NamedConstant) :
    NamedConstant.ofName? c.spelling = some c := by
  cases c <;> decide

mutual

theorem Phrase.rewrites {p : Precedence} {ts : List Token} {e : Expr} {k : Nat} :
    Phrase p ts e k → (∀ t ∈ ts, Reusable t) → Rewrites (Phrase .primary) e.tokens e
  | .chain h, hg => h.rewrites hg
  | .not _ h, hg =>
    .unary (p := .negation) (h.rewrites (List.forall_mem_cons.1 hg).2) (fun _ => .not (by decide))
  | .positive h, hg => h.rewrites hg
  | .sign hop _ h, hg => by
    refine .unary (p := .signed) (h.rewrites (List.forall_mem_cons.1 hg).2) (fun _ => .sign hop ?_)
    have hword : ∀ x ∈ signs, (ofOperator x.2.word).isOperator x.1 = true := by decide
    exact hword _ hop
  | .unsigned h, hg => h.rewrites hg
  | .raise h _ h', hg => by
    obtain ⟨hleft, hright⟩ := List.forall_mem_append.1 hg
    refine .binary (p := .power) (h.rewrites hleft)
      (h'.rewrites (List.forall_mem_cons.1 hright).2) (fun _ _ hl hr => ⟨_, .raise hl ?_ hr.loosen⟩)
    decide
  | .base h, hg => h.rewrites hg
  | .number _ _, _ =>
    ⟨.singleton (writable_number _), 0, .number rfl (Decimal.ofPlain?_plain _)⟩
  | .yes _, _ => ⟨.singleton (writable_number _), 0, .number rfl (Decimal.ofPlain?_plain _)⟩
  | .no _, _ => ⟨.singleton (writable_number _), 0, .number rfl (Decimal.ofPlain?_plain _)⟩
  | .text (t := t) hkind, hg => by
    have ht := hg t (List.mem_singleton.2 rfl)
    have hscans : ∀ rest, Token.Scans (ofText t.lexeme) (')' :: rest) := by
      intro rest
      obtain ⟨c, w, hlexeme, hscan⟩ := ht.text hkind rest
      rw [hkind] at hscan
      exact ⟨c, w, hlexeme, hscan⟩
    refine ⟨.cons (writable_parenthesis (.inl rfl)) ?_, _,
      .parens (by decide) (.mk (Phrase.text rfl).to_or) (by decide)⟩
    exact .text rfl hscans ht.no_return rfl rfl (.singleton (writable_parenthesis (.inr rfl)))
  | .constant _ _, _ =>
    ⟨.singleton (writable_constant _), 0, .constant rfl (NamedConstant.ofName?_spelling _)⟩
  | .var (t := t) hkind hnone, hg => by
    have ht := hg t (List.mem_singleton.2 rfl)
    exact ⟨.singleton (writable_nameOf ht hkind), 0, .var (t := ofName t.lexeme) rfl hnone⟩
  | .call (t := t) hkind hnone h, hg => by
    obtain ⟨ht, hrest⟩ := List.forall_mem_cons.1 hg
    exact h.rewrites hrest (writable_nameOf ht hkind) hnone
  | .parens _ h _, hg => by
    obtain ⟨-, hinner⟩ := List.forall_mem_cons.1 hg
    exact h.rewrites (List.forall_mem_append.1 hinner).1

theorem Chain.rewrites {tier : Tier} {n : Nat} {ts : List Token} {e : Expr} {k : Nat} :
    Chain tier n ts e k → (∀ t ∈ ts, Reusable t) → Rewrites (Phrase .primary) e.tokens e
  | .first h, hg => h.rewrites hg
  | .next h hop h', hg => by
    obtain ⟨hleft, hrest⟩ := List.forall_mem_append.1 hg
    have hright := (List.forall_mem_append.1 hrest).2
    exact .binary (p := .chain tier) (h.rewrites hleft) (h'.rewrites hright) (fun _ _ hl hr =>
      ⟨_, .chain (.next (.first (hl.of_primary _)) (Tier.words_mem hop) (hr.of_primary _))⟩)

theorem Expression.rewrites {ts : List Token} {e : Expr} {k : Nat} :
    Expression ts e k → (∀ t ∈ ts, Reusable t) → Rewrites (Phrase .primary) e.tokens e
  | .mk h, hg => h.rewrites hg

/-- The call of a name with these arguments. -/
theorem Arguments.rewrites {ts : List Token} {args : List Expr} {k : Nat} :
    Arguments ts args k → (∀ t ∈ ts, Reusable t) → ∀ {name : String}, Writable (ofName name) →
      NamedConstant.ofName? name = none →
      Rewrites (Phrase .primary) (Expr.call ⟨name, .blank⟩ args .blank).tokens
        (.call ⟨name, .blank⟩ args .blank)
  | .none _ _, _, name, hname, hnone =>
    ⟨.cons hname (legible_parens .nil), 0,
      .call (t := ofName name) rfl hnone (.none (by decide) (by decide))⟩
  | .some _ h h' _, hg, name, hname, hnone => by
    obtain ⟨-, hinner⟩ := List.forall_mem_cons.1 hg
    obtain ⟨hfirst, hrest⟩ := List.forall_mem_append.1 hinner
    obtain ⟨hlegible, k, hexpr⟩ := (h.rewrites hfirst).expression
    obtain ⟨hlegible', k', hmore⟩ := nextArguments_rewrite h' (List.forall_mem_append.1 hrest).1
    have hargs := Arguments.some (l := ofDelimiter "(") (r := ofDelimiter ")")
      (by decide) hexpr hmore (by decide)
    have hcall := Phrase.call (t := ofName name) rfl hnone hargs
    rw [← List.append_assoc] at hcall
    exact ⟨.cons hname (.cons (writable_parenthesis (.inl rfl))
      ((hlegible.append hlegible').concat (writable_parenthesis (.inr rfl)))), _, hcall⟩

theorem nextArguments_rewrite {ts : List Token} {es : List Expr} {k : Nat} :
    Sequence NextArgument ts es k → (∀ t ∈ ts, Reusable t) →
      Rewrites (Sequence NextArgument) (Expr.moreTokens es) es
  | .nil, _ => ⟨.nil, 0, .nil⟩
  | .cons h h', hg => by
    obtain ⟨hfirst, hrest⟩ := List.forall_mem_append.1 hg
    obtain ⟨hlegible, k, hnext⟩ := h.rewrites hfirst
    obtain ⟨hlegible', k', hmore⟩ := nextArguments_rewrite h' hrest
    exact ⟨hlegible.append hlegible', _, .cons hnext hmore⟩

theorem NextArgument.rewrites {ts : List Token} {e : Expr} {k : Nat} :
    NextArgument ts e k → (∀ t ∈ ts, Reusable t) →
      Rewrites NextArgument (ofDelimiter "," :: e.tokens) e
  | .mk _ h, hg => by
    obtain ⟨hlegible, k, hexpr⟩ := (h.rewrites (List.forall_mem_cons.1 hg).2).expression
    exact ⟨.cons (writable_symbol (.inl rfl)) hlegible, k, .mk (by decide) hexpr⟩

end

/-! ## Statements -/

theorem Rewrites.condition {ts : List Token} {e : Expr} (h : Rewrites (Phrase .primary) ts e) :
    Rewrites Condition (Token.parens ts) e := by
  obtain ⟨hlegible, k, hexpr⟩ := h.expression
  exact ⟨legible_parens hlegible, k, .mk (by decide) hexpr (by decide)⟩

theorem Condition.rewrites {ts : List Token} {e : Expr} {k : Nat} (h : Condition ts e k)
    (hg : ∀ t ∈ ts, Reusable t) : Rewrites Condition (Token.parens e.tokens) e := by
  cases h with
  | mk _ h _ =>
    obtain ⟨-, hinner⟩ := List.forall_mem_cons.1 hg
    exact (h.rewrites (List.forall_mem_append.1 hinner).1).condition

theorem writable_typeTag : Writable (ofName typeTag) := writable_name (by decide) (by decide)

mutual

theorem Statement.rewrites {ts : List Token} {s : Stmt} {k : Nat} :
    Statement ts s k → (∀ t ∈ ts, Reusable t) → Rewrites Statement s.tokens s
  | .declare (n := n) _ hn _ _, hg => by
    have hname := writable_nameOf (hg n (by simp)) hn
    refine ⟨.cons (writable_keyword _) (.cons hname (.cons writable_typeTag
      (.singleton (writable_keyword _)))), _, .declare (n := ofName n.lexeme) ?_ rfl ?_ ?_⟩
    · decide
    · decide
    · decide
  | .assign (n := n) hn _ h _, hg => by
    have hname := writable_nameOf (hg n (by simp)) hn
    obtain ⟨hlegible, k, hexpr⟩ :=
      (h.rewrites (fun t ht => hg t (by simp [ht]))).expression
    refine ⟨.cons hname (.cons (writable_operator _) (hlegible.concat (writable_keyword _))), _,
      .assign (n := ofName n.lexeme) rfl ?_ hexpr ?_⟩
    · decide
    · decide
  | .input (n := n) _ _ hn _ _, hg => by
    have hname := writable_nameOf (hg n (by simp)) hn
    refine ⟨.cons (writable_keyword _) (.cons (writable_parenthesis (.inl rfl)) (.cons hname
      (.cons (writable_parenthesis (.inr rfl)) (.singleton (writable_keyword _))))), _,
      .input (n := ofName n.lexeme) ?_ ?_ rfl ?_ ?_⟩
    · decide
    · decide
    · decide
    · decide
  | .output _ _ _ h _, hg => by
    obtain ⟨hlegible, k, hcond⟩ := h.rewrites (fun t ht => hg t (by simp [ht]))
    refine ⟨.cons (writable_keyword _) (.cons (writable_keyword _) (.cons (writable_keyword _)
      (hlegible.concat (writable_keyword _)))), _, .output ?_ ?_ ?_ hcond ?_⟩
    · decide
    · decide
    · decide
    · decide
  | .choose _ h h', hg => by
    obtain ⟨hlegible, k, hcond⟩ := h.rewrites (fun t ht => hg t (by simp [ht]))
    obtain ⟨hlegible', k', hyes⟩ := h'.rewrites (fun t ht => hg t (by simp [ht]))
    refine ⟨.cons (writable_keyword _) (hlegible.append hlegible'), _, .choose ?_ hcond hyes⟩
    decide
  | .chooseElse _ h h' _ h'', hg => by
    obtain ⟨hlegible, k, hcond⟩ := h.rewrites (fun t ht => hg t (by simp [ht]))
    obtain ⟨hlegible', k', hyes⟩ := h'.rewrites (fun t ht => hg t (by simp [ht]))
    obtain ⟨hlegible'', k'', hno⟩ := h''.rewrites (fun t ht => hg t (by simp [ht]))
    refine ⟨.cons (writable_keyword _) (hlegible.append (hlegible'.append
      (.cons (writable_keyword _) hlegible''))), _, .chooseElse ?_ hcond hyes ?_ hno⟩
    · decide
    · decide
  | .repeatWhile _ h h', hg => by
    obtain ⟨hlegible, k, hcond⟩ := h.rewrites (fun t ht => hg t (by simp [ht]))
    obtain ⟨hlegible', k', hbody⟩ := h'.rewrites (fun t ht => hg t (by simp [ht]))
    refine ⟨.cons (writable_keyword _) (hlegible.append hlegible'), _, .repeatWhile ?_ hcond hbody⟩
    decide
  | .count (n := n) _ _ hn _ h _ h' _ h'', hg => by
    have hname := writable_nameOf (hg n (by simp)) hn
    obtain ⟨hlegible, k, hfirst⟩ := (h.rewrites (fun t ht => hg t (by simp [ht]))).expression
    obtain ⟨hlegible', k', hlast⟩ := (h'.rewrites (fun t ht => hg t (by simp [ht]))).expression
    obtain ⟨hlegible'', k'', hbody⟩ := h''.rewrites (fun t ht => hg t (by simp [ht]))
    refine ⟨.cons (writable_keyword _) (.cons (writable_parenthesis (.inl rfl)) (.cons hname
      (.cons (writable_symbol (.inr rfl)) (hlegible.append (.cons
        (writable_name (by decide) (by decide)) (hlegible'.append
          (.cons (writable_parenthesis (.inr rfl)) hlegible''))))))), _,
      .count (n := ofName n.lexeme) ?_ ?_ rfl ?_ hfirst ?_ hlast ?_ hbody⟩
    · decide
    · decide
    · decide
    · decide
    · decide
  | .giveBack _ _ h _, hg => by
    obtain ⟨hlegible, k, hexpr⟩ :=
      (h.rewrites (fun t ht => hg t (by simp [ht]))).expression
    refine ⟨.cons (writable_keyword _) (.cons (writable_keyword _)
      (hlegible.concat (writable_keyword _))), _, .giveBack ?_ ?_ hexpr ?_⟩
    · decide
    · decide
    · decide
  | .block h, hg => by
    obtain ⟨hlegible, k, hbody⟩ := h.rewrites hg
    exact ⟨hlegible, k, .block hbody⟩
  | .evaluate h _, hg => by
    obtain ⟨hlegible, k, hexpr⟩ :=
      (h.rewrites (fun t ht => hg t (by simp [ht]))).expression
    exact ⟨hlegible.concat (writable_keyword _), _, .evaluate hexpr (by decide)⟩

theorem Body.rewrites {ts : List Token} {b : Block} {k : Nat} :
    Body ts b k → (∀ t ∈ ts, Reusable t) → Rewrites Body b.tokens b
  | .mk _ h _, hg => by
    obtain ⟨hlegible, k, hss⟩ := statements_rewrite h (fun t ht => hg t (by simp [ht]))
    refine ⟨.cons (writable_keyword _) (hlegible.concat (writable_keyword _)), _, .mk ?_ hss ?_⟩
    · decide
    · decide

theorem statements_rewrite {ts : List Token} {ss : List Stmt} {k : Nat} :
    Sequence Statement ts ss k → (∀ t ∈ ts, Reusable t) →
      Rewrites (Sequence Statement) (Stmt.allTokens ss) ss
  | .nil, _ => ⟨.nil, 0, .nil⟩
  | .cons h h', hg => by
    obtain ⟨hfirst, hrest⟩ := List.forall_mem_append.1 hg
    obtain ⟨hlegible, k, hs⟩ := h.rewrites hfirst
    obtain ⟨hlegible', k', hss⟩ := statements_rewrite h' hrest
    exact ⟨hlegible.append hlegible', _, .cons hs hss⟩

end

/-! ## Programs -/

theorem Value.rewrites {t : Token} {v : ConstantValue} (h : Value t v) :
    Writable v.token ∧ Value v.token v := by
  cases h with
  | number _ _ => exact ⟨writable_number _, .number rfl (Decimal.ofPlain?_plain _)⟩
  | named _ _ => exact ⟨writable_constant _, .named rfl (NamedConstant.ofName?_spelling _)⟩

theorem Constant.rewrites {ts : List Token} {d : ConstantDecl} {k : Nat} (h : Constant ts d k)
    (hg : ∀ t ∈ ts, Reusable t) : Rewrites Constant d.tokens d := by
  cases h with
  | @mk _ n _ _ _ v _ hn _ hvalue _ =>
    have hname := writable_nameOf (hg n (by simp)) hn
    obtain ⟨hwritable, hv⟩ := hvalue.rewrites
    refine ⟨.cons (writable_keyword _) (.cons hname (.cons writable_typeTag (.cons hwritable
      (.singleton (writable_keyword _))))), _, .mk (n := ofName n.lexeme) ?_ rfl ?_ hv ?_⟩
    · decide
    · decide
    · decide

theorem nextParameters_rewrite {ts : List Token} {names : List Ident} {k : Nat}
    (h : Sequence NextParameter ts names k) : (∀ t ∈ ts, Reusable t) →
      Rewrites (Sequence NextParameter) (Function.moreParamTokens names) names := by
  induction h with
  | nil => exact fun _ => ⟨.nil, 0, .nil⟩
  | cons h _ ih =>
    intro hg
    obtain ⟨hfirst, hrest⟩ := List.forall_mem_append.1 hg
    obtain ⟨hlegible, k', hmore⟩ := ih hrest
    cases h with
    | @mk _ n _ hn =>
      have hname := writable_nameOf (hfirst n (by simp)) hn
      exact ⟨.cons (writable_symbol (.inl rfl)) (.cons hname hlegible), _,
        .cons (.mk (n := ofName n.lexeme) (by decide) rfl) hmore⟩

theorem Parameters.rewrites {ts : List Token} {names : List Ident} {k : Nat}
    (h : Parameters ts names k) (hg : ∀ t ∈ ts, Reusable t) :
    Rewrites Parameters (Function.paramTokens names) names := by
  cases h with
  | none => exact ⟨.nil, 0, .none⟩
  | @some n _ _ _ hn hmore =>
    obtain ⟨hfirst, hrest⟩ := List.forall_mem_cons.1 hg
    obtain ⟨hlegible, k, hmore⟩ := nextParameters_rewrite hmore hrest
    exact ⟨.cons (writable_nameOf hfirst hn) hlegible, k, .some (n := ofName n.lexeme) rfl hmore⟩

theorem Definition.rewrites {ts : List Token} {f : Function} {k : Nat} (h : Definition ts f k)
    (hg : ∀ t ∈ ts, Reusable t) : Rewrites Definition f.tokens f := by
  cases h with
  | @mk _ n _ _ _ _ _ _ _ _ _ _ hn _ _ hparams _ hbody =>
    have hname := writable_nameOf (hg n (by simp)) hn
    obtain ⟨hlegible, k, hps⟩ := hparams.rewrites (fun t ht => hg t (by simp [ht]))
    obtain ⟨hlegible', k', hb⟩ := hbody.rewrites (fun t ht => hg t (by simp [ht]))
    refine ⟨.cons (writable_keyword _) (.cons hname (.cons writable_typeTag
      (.cons (writable_parenthesis (.inl rfl)) (hlegible.append
        (.cons (writable_parenthesis (.inr rfl)) hlegible'))))), _,
      .mk (n := ofName n.lexeme) ?_ rfl ?_ ?_ hps ?_ hb⟩
    · decide
    · decide
    · decide
    · decide

theorem TopLevel.rewrites {ts : List Token} {i : Item} {k : Nat} (h : TopLevel ts i k)
    (hg : ∀ t ∈ ts, Reusable t) : Rewrites TopLevel i.tokens i := by
  cases h with
  | constant h =>
    obtain ⟨hlegible, k, h⟩ := h.rewrites hg
    exact ⟨hlegible, k, .constant h⟩
  | function h =>
    obtain ⟨hlegible, k, h⟩ := h.rewrites hg
    exact ⟨hlegible, k, .function h⟩
  | statement h =>
    obtain ⟨hlegible, k, h⟩ := h.rewrites hg
    exact ⟨hlegible, k, .statement h⟩

theorem items_rewrite {ts : List Token} {items : List Item} {k : Nat}
    (h : Sequence TopLevel ts items k) : (∀ t ∈ ts, Reusable t) →
      Rewrites (Sequence TopLevel) (items.flatMap Item.tokens) items := by
  induction h with
  | nil => exact fun _ => ⟨.nil, 0, .nil⟩
  | cons h _ ih =>
    intro hg
    obtain ⟨hfirst, hrest⟩ := List.forall_mem_append.1 hg
    obtain ⟨hlegible, k, hitem⟩ := h.rewrites hfirst
    obtain ⟨hlegible', k', hitems⟩ := ih hrest
    exact ⟨hlegible.append hlegible', _, .cons hitem hitems⟩

theorem Derives.rewrites {ts : List Token} {p : Program} {k : Nat} (h : Derives ts p k)
    (hg : ∀ t ∈ ts, Reusable t) : Rewrites Derives p.tokens p := by
  cases h with
  | mk _ h =>
    obtain ⟨hlegible, k, hitems⟩ := items_rewrite h (List.forall_mem_cons.1 hg).2
    exact ⟨.cons (writable_keyword _) hlegible, k, .mk (by decide) hitems⟩

/-! ## The last token

A program ends in a keyword, so that its last token is no text. -/

/-- The last of the tokens is a keyword. -/
def EndsInWord (ts : List Token) : Prop :=
  ∃ before t, ts = before ++ [t] ∧ ∃ k, t.isKeyword k = true

namespace EndsInWord

theorem singleton {t : Token} {k : Keyword} (h : t.isKeyword k = true) : EndsInWord [t] :=
  ⟨[], t, rfl, k, h⟩

theorem append {ts : List Token} (us : List Token) (h : EndsInWord ts) : EndsInWord (us ++ ts) := by
  obtain ⟨before, t, rfl, hk⟩ := h
  exact ⟨us ++ before, t, (List.append_assoc _ _ _).symm, hk⟩

theorem cons {ts : List Token} (t : Token) (h : EndsInWord ts) : EndsInWord (t :: ts) :=
  h.append [t]

theorem body {ts : List Token} {b : Block} {k : Nat} (h : Body ts b k) : EndsInWord ts := by
  cases h with
  | mk _ _ hs => exact .cons _ (.append _ (.singleton hs))

theorem statement {ts : List Token} {s : Stmt} {k : Nat} (h : Statement ts s k) :
    EndsInWord ts := by
  cases h with
  | declare _ _ _ hz => exact .append [_, _, _] (.singleton hz)
  | assign _ _ _ hz => exact .append [_, _] (.append _ (.singleton hz))
  | input _ _ _ _ hz => exact .append [_, _, _, _] (.singleton hz)
  | output _ _ _ _ hz => exact .append [_, _, _] (.append _ (.singleton hz))
  | choose _ _ hyes => exact .cons _ (.append _ (body hyes))
  | chooseElse _ _ _ _ hno => exact .cons _ (.append _ (.append _ (.cons _ (body hno))))
  | repeatWhile _ _ hbody => exact .cons _ (.append _ (body hbody))
  | count _ _ _ _ _ _ _ _ hbody =>
    exact .append [_, _, _, _] (.append _ (.cons _ (.append _ (.cons _ (body hbody)))))
  | giveBack _ _ _ hz => exact .append [_, _] (.append _ (.singleton hz))
  | block hb => exact body hb
  | evaluate _ hz => exact .append _ (.singleton hz)

theorem topLevel {ts : List Token} {i : Item} {k : Nat} (h : TopLevel ts i k) : EndsInWord ts := by
  cases h with
  | constant h =>
    cases h with
    | mk _ _ _ _ hz => exact .append [_, _, _, _] (.singleton hz)
  | function h =>
    cases h with
    | mk _ _ _ _ _ _ hbody => exact .append [_, _, _, _] (.append _ (.cons _ (body hbody)))
  | statement h => exact statement h

theorem derives {ts : List Token} {p : Program} {k : Nat} (h : Derives ts p k) :
    EndsInWord ts := by
  cases h with
  | @mk g _ _ _ hg hitems =>
    -- The greeting is the last token if there are no items.
    suffices hall : ∀ {ts items k}, Sequence TopLevel ts items k → ts = [] ∨ EndsInWord ts by
      rcases hall hitems with rfl | h
      · exact .singleton hg
      · exact .cons g h
    intro ts items k hitems
    induction hitems with
    | nil => exact .inl rfl
    | @cons ts us _ _ _ _ hitem _ ih =>
      rcases ih with rfl | h
      · rw [List.append_nil]
        exact .inr (topLevel hitem)
      · exact .inr (.append ts h)

end EndsInWord

end Grammar

/-! ## Reading what was written -/

open Grammar Parse in
/-- Rendering undoes reading. The rendering of a program that was read from some source
    stands for that program, with all its numbers and texts, in the grammar; if it nests no
    deeper than the limit it is read as the program again, places apart, and otherwise it is
    refused for its nesting. -/
theorem Program.ofSource_render {source : String} {p : Program}
    (h : Program.ofSource source = .ok p) :
    ∃ k, Derives (Token.placeless p.render) (Spanned.bare p) k ∧
      (k ≤ maxNesting → ∃ p', Program.ofSource p.render = .ok p' ∧
        Spanned.bare p' = Spanned.bare p) ∧
      (maxNesting < k → ∃ e, Program.ofSource p.render = .error e ∧
        e.cause = .nestingTooDeep maxNesting) := by
  obtain ⟨_, hderives, -⟩ := Program.derives_of_ofSource h
  have hlast : ∀ t, (Token.significant (Token.tokenize source)).getLast? = some t →
      t.kind ≠ .text := by
    obtain ⟨before, z, hz, k, hk⟩ := EndsInWord.derives hderives
    intro t ht hkind
    have hbare : (Token.placeless source).getLast? = some (Spanned.bare t) := by
      show ((Token.significant (Token.tokenize source)).map Spanned.bare).getLast? = _
      rw [List.getLast?_map, ht]
      rfl
    rw [hz, List.getLast?_concat] at hbare
    cases hbare
    have hkeyword : t.kind = .keyword k := Token.isKeyword_iff.1 hk
    rw [hkind] at hkeyword
    cases hkeyword
  have hreusable : ∀ t ∈ Token.placeless source, Token.Reusable t := by
    intro t ht
    obtain ⟨u, hu, rfl⟩ := List.mem_map.1 ht
    exact (Token.tokenize_reusable hlast u hu).bare
  obtain ⟨hlegible, k, hagain⟩ := hderives.rewrites hreusable
  rw [p.tokens_bare] at hlegible hagain
  have htokens : Token.placeless p.render = p.tokens := Token.tokenize_spell hlegible
  rw [← htokens] at hagain
  exact ⟨k, hagain, Program.ofSource_of_derives hagain⟩

/-- A text that is a bang alone, a number with a last zero, and an operator of two words. -/
theorem Program.ofSource_render_lone_bang :
    let source := "bello! tulalilloo ti amo (f(-1.50, (!)) la con 2) naidu!"
    let rendering := "bello! tulalilloo ti amo ( ( f ( -1.50 , ( !) ) lacon 2 ) ) naidu!"
    ∃ p p', Program.ofSource source = .ok p ∧ p.render = rendering ∧
      Program.ofSource rendering = .ok p' ∧ Spanned.bare p' = Spanned.bare p := by
  intro source rendering
  have hrender : (Program.ofSource source).toOption.map render = some rendering := by decide +kernel
  cases hp : Program.ofSource source with
  | error e =>
    rw [hp] at hrender
    cases hrender
  | ok p =>
    rw [hp] at hrender
    have htext : p.render = rendering := Option.some.inj hrender
    obtain ⟨k, -, hok, hdeep⟩ := Program.ofSource_render hp
    rw [htext] at hok hdeep
    rcases Nat.lt_or_ge Parse.maxNesting k with hk | hk
    · obtain ⟨e, he, -⟩ := hdeep hk
      have hread : (Program.ofSource rendering).isOk = true := by decide +kernel
      rw [he] at hread
      cases hread
    · obtain ⟨p', hp', hsame⟩ := hok hk
      exact ⟨p, p', rfl, htext, hp', hsame⟩

end Bello
