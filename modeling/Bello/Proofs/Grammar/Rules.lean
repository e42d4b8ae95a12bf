import Bello.Decimal.Text
import Bello.Parse.Basic
import Bello.Proofs.Grammar.Bare

/- The grammar of the language.

   A rule relates tokens to the tree that they stand for, with all spans blank, and to a
   number that says how deep they nest. `Phrase` gives the expressions, one level of
   precedence at a time: six levels are chains that associate to the left, and between them
   stand the operators before an operand, the powers and the operands. `Statement` and
   `Body` give statements and blocks, and `Derives` whole programs.

   Each rule also counts. A counter is at zero where a statement of the program begins. It
   is one higher inside an expression, a block, the operand of an operator before it and the
   exponent of a power, and `i` higher in the operand after the `i`-th operator of a chain.
   The number in a rule is the highest value that the counter takes inside the tokens, from
   zero before them. -/
namespace Bello.Grammar

open Bello.Parse (typeTag)

/-- Tokens, what they stand for, and how deep they nest. -/
abbrev Rule (α : Type) := List Token → α → Nat → Prop

/-- Any number of phrases, one after another. -/
inductive Sequence {α : Type} (L : Rule α) : Rule (List α) where
  | nil : Sequence L [] [] 0
  | cons {ts us : List Token} {a : α} {as : List α} {k k' : Nat} :
      L ts a k → Sequence L us as k' → Sequence L (ts ++ us) (a :: as) (max k k')

/-- The name that a token is. -/
def nameOf (t : Token) : Ident := ⟨t.lexeme, .blank⟩

/-! ## Levels of precedence -/

/-- The levels that are chains of operands, the loosest first. -/
inductive Tier where
  | or | and | equality | order | sum | product
deriving DecidableEq

/-- All levels. Negations stand between conjunctions and equalities, signs below products. -/
inductive Precedence where
  | chain (tier : Tier)
  | negation
  | signed
  | power
  | primary
deriving DecidableEq

namespace Tier

/-- What a chain is made of. -/
def operand : Tier → Precedence
  | or => .chain .and
  | and => .negation
  | equality => .chain .order
  | order => .chain .sum
  | sum => .chain .product
  | product => .signed

/-- The words of each operator of a chain. -/
def operators : Tier → List (List Operator × BinaryOp)
  | or => [([.boCa], .or)]
  | and => [([.tropa], .and)]
  | equality => [([.con], .eq), ([.nocon], .ne)]
  | order => [([.la], .lt), ([.la, .con], .le), ([.lacon], .le), ([.looka, .too], .gt),
      ([.looka, .too, .con], .ge)]
  | sum => [([.melomo], .add), ([.flavuk], .sub)]
  | product => [([.dibotada], .mul), ([.poopaye], .div), ([.pado], .rem)]

/-- The tokens are an operator of the chain. -/
def Operator (tier : Tier) (ts : List Token) (op : BinaryOp) : Prop :=
  ∃ words, (words, op) ∈ tier.operators ∧ ts.map (·.kind) = words.map .operator

end Tier

/-- The words that stand before an operand. -/
def signs : List (Bello.Operator × UnaryOp) := [(.melomo, .plus), (.flavuk, .minus)]

/-! ## Expressions -/

mutual

inductive Phrase : Precedence → Rule Expr where
  | chain {tier : Tier} {n : Nat} {ts : List Token} {e : Expr} {k : Nat} :
      Chain tier n ts e k → Phrase (.chain tier) ts e k
  | not {t : Token} {ts : List Token} {e : Expr} {k : Nat} :
      t.isOperator .makoroni → Phrase .negation ts e k →
      Phrase .negation (t :: ts) (.unary .not e .blank) (k + 1)
  | positive {ts : List Token} {e : Expr} {k : Nat} :
      Phrase (.chain .equality) ts e k → Phrase .negation ts e k
  | sign {word : Operator} {op : UnaryOp} {t : Token} {ts : List Token} {e : Expr} {k : Nat} :
      (word, op) ∈ signs → t.isOperator word → Phrase .signed ts e k →
      Phrase .signed (t :: ts) (.unary op e .blank) (k + 1)
  | unsigned {ts : List Token} {e : Expr} {k : Nat} :
      Phrase .power ts e k → Phrase .signed ts e k
  | raise {t : Token} {ts us : List Token} {b e : Expr} {k k' : Nat} :
      Phrase .primary ts b k → t.isOperator .beedo → Phrase .power us e k' →
      Phrase .power (ts ++ t :: us) (.binary .pow b e .blank) (max k (k' + 1))
  | base {ts : List Token} {e : Expr} {k : Nat} : Phrase .primary ts e k → Phrase .power ts e k
  | number {t : Token} {v : Decimal} :
      t.kind = .number → Decimal.ofPlain? t.lexeme = some v →
      Phrase .primary [t] (.number v .blank) 0
  | yes {t : Token} : t.isKeyword .da → Phrase .primary [t] (.number .one .blank) 0
  | no {t : Token} : t.isKeyword .no → Phrase .primary [t] (.number .zero .blank) 0
  | text {t : Token} : t.kind = .text → Phrase .primary [t] (.text t.lexeme .blank) 0
  | constant {t : Token} {c : NamedConstant} :
      t.kind = .identifier → NamedConstant.ofName? t.lexeme = some c →
      Phrase .primary [t] (.constant c .blank) 0
  | var {t : Token} :
      t.kind = .identifier → NamedConstant.ofName? t.lexeme = none →
      Phrase .primary [t] (.var (nameOf t)) 0
  | call {t : Token} {ts : List Token} {args : List Expr} {k : Nat} :
      t.kind = .identifier → NamedConstant.ofName? t.lexeme = none → Arguments ts args k →
      Phrase .primary (t :: ts) (.call (nameOf t) args .blank) k
  | parens {l r : Token} {ts : List Token} {e : Expr} {k : Nat} :
      l.isDelimiter "(" → Expression ts e k → r.isDelimiter ")" →
      Phrase .primary (l :: (ts ++ [r])) e k

/-- Chains of operands with the given number of operators between them. -/
inductive Chain : Tier → Nat → Rule Expr where
  | first {tier : Tier} {ts : List Token} {e : Expr} {k : Nat} :
      Phrase tier.operand ts e k → Chain tier 0 ts e k
  | next {tier : Tier} {n : Nat} {ts os us : List Token} {op : BinaryOp} {left right : Expr}
      {k k' : Nat} :
      Chain tier n ts left k → tier.Operator os op → Phrase tier.operand us right k' →
      Chain tier (n + 1) (ts ++ (os ++ us)) (.binary op left right .blank) (max k (n + 1 + k'))

/-- A whole expression is a disjunction, one level down. -/
inductive Expression : Rule Expr where
  | mk {ts : List Token} {e : Expr} {k : Nat} :
      Phrase (.chain .or) ts e k → Expression ts e (k + 1)

/-- The arguments of a call with their parentheses. -/
inductive Arguments : Rule (List Expr) where
  | none {l r : Token} : l.isDelimiter "(" → r.isDelimiter ")" → Arguments [l, r] [] 0
  | some {l r : Token} {ts us : List Token} {e : Expr} {es : List Expr} {k k' : Nat} :
      l.isDelimiter "(" → Expression ts e k → Sequence NextArgument us es k' →
      r.isDelimiter ")" → Arguments (l :: (ts ++ (us ++ [r]))) (e :: es) (max k k')

inductive NextArgument : Rule Expr where
  | mk {t : Token} {ts : List Token} {e : Expr} {k : Nat} :
      t.isDelimiter "," → Expression ts e k → NextArgument (t :: ts) e k

end

/-! ## Statements -/

/-- An expression in parentheses. -/
inductive Condition : Rule Expr where
  | mk {l r : Token} {ts : List Token} {e : Expr} {k : Nat} :
      l.isDelimiter "(" → Expression ts e k → r.isDelimiter ")" →
      Condition (l :: (ts ++ [r])) e k

mutual

inductive Statement : Rule Stmt where
  | declare {d n p z : Token} :
      d.isKeyword .poop → n.kind = .identifier → p.isIdentifier typeTag → z.isKeyword .naidu →
      Statement [d, n, p, z] (.declare (nameOf n) .blank) 0
  | assign {n a z : Token} {ts : List Token} {e : Expr} {k : Nat} :
      n.kind = .identifier → a.isOperator .lumai → Expression ts e k → z.isKeyword .naidu →
      Statement (n :: a :: (ts ++ [z])) (.assign (nameOf n) e .blank) k
  | input {g l n r z : Token} :
      g.isKeyword .guoleila → l.isDelimiter "(" → n.kind = .identifier → r.isDelimiter ")" →
      z.isKeyword .naidu → Statement [g, l, n, r, z] (.input (nameOf n) .blank) 0
  | output {w t a z : Token} {ts : List Token} {e : Expr} {k : Nat} :
      w.isKeyword .tulalilloo → t.isKeyword .ti → a.isKeyword .amo → Condition ts e k →
      z.isKeyword .naidu → Statement (w :: t :: a :: (ts ++ [z])) (.output e .blank) k
  | choose {i : Token} {ts us : List Token} {e : Expr} {yes : Block} {k k' : Nat} :
      i.isKeyword .biDo → Condition ts e k → Body us yes k' →
      Statement (i :: (ts ++ us)) (.choose e yes none .blank) (max k k')
  | chooseElse {i o : Token} {ts us vs : List Token} {e : Expr} {yes no : Block}
      {k k' k'' : Nat} :
      i.isKeyword .biDo → Condition ts e k → Body us yes k' → o.isKeyword .uhOh →
      Body vs no k'' →
      Statement (i :: (ts ++ (us ++ o :: vs))) (.choose e yes (some no) .blank)
        (max (max k k') k'')
  | repeatWhile {w : Token} {ts us : List Token} {e : Expr} {body : Block} {k k' : Nat} :
      w.isKeyword .kemari → Condition ts e k → Body us body k' →
      Statement (w :: (ts ++ us)) (.repeatWhile e body .blank) (max k k')
  | count {a l n q t r : Token} {ts us vs : List Token} {first last : Expr} {body : Block}
      {k k' k'' : Nat} :
      a.isKeyword .again → l.isDelimiter "(" → n.kind = .identifier → q.isDelimiter "=" →
      Expression ts first k → t.isIdentifier "to" → Expression us last k' →
      r.isDelimiter ")" → Body vs body k'' →
      Statement (a :: l :: n :: q :: (ts ++ t :: (us ++ r :: vs)))
        (.count (nameOf n) first last body .blank) (max (max k k') k'')
  | giveBack {t y z : Token} {ts : List Token} {e : Expr} {k : Nat} :
      t.isKeyword .tank → y.isKeyword .yu → Expression ts e k → z.isKeyword .naidu →
      Statement (t :: y :: (ts ++ [z])) (.giveBack e .blank) k
  | block {ts : List Token} {b : Block} {k : Nat} : Body ts b k → Statement ts (.block b) k
  | evaluate {z : Token} {ts : List Token} {e : Expr} {k : Nat} :
      Expression ts e k → z.isKeyword .naidu → Statement (ts ++ [z]) (.evaluate e .blank) k

/-- Statements between the words that begin and end a block, one level down. -/
inductive Body : Rule Block where
  | mk {o s : Token} {ts : List Token} {ss : List Stmt} {k : Nat} :
      o.isKeyword .oca → Sequence Statement ts ss k → s.isKeyword .stopa →
      Body (o :: (ts ++ [s])) (.mk ss .blank) (k + 1)

end

/-! ## Programs -/

/-- What a constant can be declared to be. -/
inductive Value : Token → ConstantValue → Prop where
  | number {t : Token} {v : Decimal} :
      t.kind = .number → Decimal.ofPlain? t.lexeme = some v → Value t (.number v)
  | named {t : Token} {c : NamedConstant} :
      t.kind = .identifier → NamedConstant.ofName? t.lexeme = some c → Value t (.named c)

inductive Constant : Rule ConstantDecl where
  | mk {d n p t z : Token} {v : ConstantValue} :
      d.isKeyword .trusela → n.kind = .identifier → p.isIdentifier typeTag → Value t v →
      z.isKeyword .naidu → Constant [d, n, p, t, z] ⟨nameOf n, v, .blank⟩ 0

inductive NextParameter : Rule Ident where
  | mk {t n : Token} :
      t.isDelimiter "," → n.kind = .identifier → NextParameter [t, n] (nameOf n) 0

inductive Parameters : Rule (List Ident) where
  | none : Parameters [] [] 0
  | some {n : Token} {ts : List Token} {names : List Ident} {k : Nat} :
      n.kind = .identifier → Sequence NextParameter ts names k →
      Parameters (n :: ts) (nameOf n :: names) k

inductive Definition : Rule Function where
  | mk {d n p l r : Token} {ts us : List Token} {params : List Ident} {body : Block}
      {k k' : Nat} :
      d.isKeyword .boss → n.kind = .identifier → p.isIdentifier typeTag → l.isDelimiter "(" →
      Parameters ts params k → r.isDelimiter ")" → Body us body k' →
      Definition (d :: n :: p :: l :: (ts ++ r :: us)) ⟨nameOf n, params, body, .blank⟩
        (max k k')

inductive TopLevel : Rule Item where
  | constant {ts : List Token} {decl : ConstantDecl} {k : Nat} :
      Constant ts decl k → TopLevel ts (.constant decl) k
  | function {ts : List Token} {f : Function} {k : Nat} :
      Definition ts f k → TopLevel ts (.function f) k
  | statement {ts : List Token} {s : Stmt} {k : Nat} :
      Statement ts s k → TopLevel ts (.statement s) k

/-- The tokens of a program are a greeting and any number of items. -/
inductive Derives : Rule Program where
  | mk {g : Token} {ts : List Token} {items : List Item} {k : Nat} :
      g.isKeyword .bello → Sequence TopLevel ts items k → Derives (g :: ts) ⟨items⟩ k

end Bello.Grammar
