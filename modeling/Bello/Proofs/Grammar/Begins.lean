import Bello.Proofs.Grammar.Render

/- How phrases can begin, and what their tokens are.

   `Begins L ts` says that some tokens make `ts` a phrase of the rule when they follow them.
   What a reader has taken before it fails begins a phrase in this sense, and the tokens that
   complete it are as short as can be: a name, a word or an empty block where one is due.

   All tokens of a program carry a meaning (`Derives.meant`), so what is completed is a
   sequence that a cursor can stand on. -/
namespace Bello.Grammar

open Parse (wordToken typeTag)
open Token (ofName ofDelimiter ofOperator)

variable {α β : Type} {L : Rule α} {K : Rule β} {used ts us : List Token}

/-- The tokens can be continued to a phrase of the rule. -/
def Begins (L : Rule α) (ts : List Token) : Prop := ∃ more a k, L (ts ++ more) a k

theorem Begins.whole {a : α} {k : Nat} (h : L ts a k) : Begins L ts :=
  ⟨[], a, k, by rwa [List.append_nil]⟩

/-- Some tokens are followed by those that make them a phrase. -/
theorem Begins.followed (more : List Token) {a : α} {k : Nat} (h : L us a k)
    (e : us = ts ++ more) : Begins L ts := ⟨more, a, k, e ▸ h⟩

theorem Begins.shorter (more : List Token) (h : Begins L us) (e : us = ts ++ more) :
    Begins L ts := by
  obtain ⟨rest, a, k, h⟩ := h
  exact .followed (more ++ rest) h (by rw [e, List.append_assoc])

theorem Begins.start {a : α} {k : Nat} (h : L ts a k) : Begins L [] := ⟨ts, a, k, h⟩

/-- Where a whole part begins the phrase, so does the beginning of a part. -/
theorem Begins.part (h : Begins K us)
    (hL : ∀ {us b k}, K us b k → Begins L (used ++ us)) : Begins L (used ++ us) := by
  obtain ⟨more, b, k, hK⟩ := h
  obtain ⟨rest, a, k', hL⟩ := hL hK
  refine ⟨more ++ rest, a, k', ?_⟩
  simpa only [List.append_assoc] using hL

theorem Sequence.snoc {as : List α} {a : α} {k k' : Nat} (h : Sequence L ts as k)
    (ha : L us a k') : Sequence L (ts ++ us) (as ++ [a]) (max k k') := by
  induction h with
  | nil =>
    have hone : Sequence L (us ++ []) [a] (max k' 0) := .cons ha .nil
    rwa [List.append_nil, Nat.max_comm] at hone
  | cons hfirst _ ih =>
    rw [List.append_assoc, Nat.max_assoc]
    exact .cons hfirst ih

/-! ## Short phrases -/

/-- Anything may be called so. -/
def aName : Token := ofName "x"

def theTag : Token := ofName typeTag

theorem kind_aName : aName.kind = .identifier := rfl

theorem isIdentifier_theTag : theTag.isIdentifier typeTag = true := rfl

theorem isKeyword_wordToken (word : Keyword) : (wordToken word).isKeyword word = true :=
  Token.isKeyword_iff.2 rfl

theorem isOperator_ofOperator (word : Operator) : (ofOperator word).isOperator word = true :=
  Token.isOperator_iff.2 rfl

theorem isDelimiter_ofDelimiter (text : String) : (ofDelimiter text).isDelimiter text = true :=
  Token.isDelimiter_iff.2 ⟨rfl, rfl⟩

theorem phrase_da (p : Precedence) : Phrase p [wordToken .da] (.number .one .blank) 0 :=
  .of_primary (.yes (isKeyword_wordToken .da)) p

theorem expression_da : Expression [wordToken .da] (.number .one .blank) 1 := .mk (phrase_da _)

def shortCondition : List Token := [ofDelimiter "(", wordToken .da, ofDelimiter ")"]

theorem condition_short : Condition shortCondition (.number .one .blank) 1 :=
  .mk (isDelimiter_ofDelimiter "(") expression_da (isDelimiter_ofDelimiter ")")

def emptyBody : List Token := [wordToken .oca, wordToken .stopa]

theorem body_empty : Body emptyBody (.mk [] .blank) 1 :=
  .mk (isKeyword_wordToken .oca) .nil (isKeyword_wordToken .stopa)

/-! ## Tokens of a phrase -/

/-- All of the tokens carry a meaning: no blanks, no comments and no end. -/
def Meant (ts : List Token) : Prop := ∀ t ∈ ts, t.isTrivia = false ∧ t.isEnd = false

namespace Meant

variable {t : Token}

theorem nil : Meant [] := List.forall_mem_nil _

theorem append (h : Meant ts) (h' : Meant us) : Meant (ts ++ us) :=
  List.forall_mem_append.2 ⟨h, h'⟩

theorem kind {k : Token.Kind} (h : t.kind = k) (hk : k.isTrivia = false)
    (hend : k ≠ .endOfInput) : Meant [t] := by
  refine List.forall_mem_singleton.2 ⟨?_, ?_⟩
  · rw [Token.isTrivia, h, hk]
  · simpa [Token.isEnd, h] using hend

theorem keyword {word : Keyword} (h : t.isKeyword word = true) : Meant [t] :=
  .kind (Token.isKeyword_iff.1 h) rfl nofun

theorem operator {word : Operator} (h : t.isOperator word = true) : Meant [t] :=
  .kind (Token.isOperator_iff.1 h) rfl nofun

theorem delimiter {text : String} (h : t.isDelimiter text = true) : Meant [t] :=
  .kind (Token.isDelimiter_iff.1 h).1 rfl nofun

theorem identifier (h : t.kind = .identifier) : Meant [t] := .kind h rfl nofun

theorem name {text : String} (h : t.isIdentifier text = true) : Meant [t] := by
  simp only [Token.isIdentifier, Bool.and_eq_true, beq_iff_eq] at h
  exact .identifier h.1

/-- A token in front of others. -/
theorem cons (h : Meant [t]) (hts : Meant ts) : Meant (t :: ts) := h.append hts

theorem sequence (h : ∀ {ts a k}, L ts a k → Meant ts) {as : List α} {k : Nat}
    (hs : Sequence L ts as k) : Meant ts := by
  induction hs with
  | nil => exact nil
  | cons ha _ ih => exact (h ha).append ih

end Meant

theorem Tier.Operator.meant {tier : Tier} {os : List Token} {op : BinaryOp}
    (h : tier.Operator os op) : Meant os := by
  obtain ⟨words, -, hmap⟩ := h
  intro o ho
  obtain ⟨word, -, hword⟩ := List.mem_map.1 (hmap ▸ List.mem_map_of_mem (f := Token.kind) ho)
  exact Meant.kind hword.symm rfl nofun o (List.mem_singleton.2 rfl)

mutual

theorem Phrase.meant {p : Precedence} {ts : List Token} {e : Expr} {k : Nat} :
    Phrase p ts e k → Meant ts
  | .chain h => h.meant
  | .not ht h => .cons (.operator ht) h.meant
  | .positive h => h.meant
  | .sign _ ht h => .cons (.operator ht) h.meant
  | .unsigned h => h.meant
  | .raise h ht h' => h.meant.append (.cons (.operator ht) h'.meant)
  | .base h => h.meant
  | .number hk _ => .kind hk rfl nofun
  | .yes ht => .keyword ht
  | .no ht => .keyword ht
  | .text hk => .kind hk rfl nofun
  | .constant hk _ => .identifier hk
  | .var hk _ => .identifier hk
  | .call hk _ h => .cons (.identifier hk) h.meant
  | .parens hl h hr => .cons (.delimiter hl) (h.meant.append (.delimiter hr))

theorem Chain.meant {tier : Tier} {n : Nat} {ts : List Token} {e : Expr} {k : Nat} :
    Chain tier n ts e k → Meant ts
  | .first h => h.meant
  | .next h hop h' => h.meant.append (hop.meant.append h'.meant)

theorem Expression.meant {ts : List Token} {e : Expr} {k : Nat} : Expression ts e k → Meant ts
  | .mk h => h.meant

theorem Arguments.meant {ts : List Token} {args : List Expr} {k : Nat} :
    Arguments ts args k → Meant ts
  | .none hl hr => .cons (.delimiter hl) (.delimiter hr)
  | .some hl h hs hr =>
    .cons (.delimiter hl) (h.meant.append ((nextArguments_meant hs).append (.delimiter hr)))

-- The recursion goes through the sequence, so the general lemma for sequences does not help.
theorem nextArguments_meant {ts : List Token} {es : List Expr} {k : Nat} :
    Sequence NextArgument ts es k → Meant ts
  | .nil => .nil
  | .cons h hs => h.meant.append (nextArguments_meant hs)

theorem NextArgument.meant {ts : List Token} {e : Expr} {k : Nat} : NextArgument ts e k → Meant ts
  | .mk ht h => .cons (.delimiter ht) h.meant

end

theorem Condition.meant {ts : List Token} {e : Expr} {k : Nat} : Condition ts e k → Meant ts
  | .mk hl h hr => .cons (.delimiter hl) (h.meant.append (.delimiter hr))

mutual

theorem Statement.meant {ts : List Token} {s : Stmt} {k : Nat} : Statement ts s k → Meant ts
  | .declare hd hn hp hz =>
    .cons (.keyword hd) (.cons (.identifier hn) (.cons (.name hp) (.keyword hz)))
  | .assign hn ha h hz =>
    .cons (.identifier hn) (.cons (.operator ha) (h.meant.append (.keyword hz)))
  | .input hg hl hn hr hz =>
    .cons (.keyword hg)
      (.cons (.delimiter hl) (.cons (.identifier hn) (.cons (.delimiter hr) (.keyword hz))))
  | .output hw ht ha h hz =>
    .cons (.keyword hw)
      (.cons (.keyword ht) (.cons (.keyword ha) (h.meant.append (.keyword hz))))
  | .choose hi h hb => .cons (.keyword hi) (h.meant.append hb.meant)
  | .chooseElse hi h hb ho hb' =>
    .cons (.keyword hi) (h.meant.append (hb.meant.append (.cons (.keyword ho) hb'.meant)))
  | .repeatWhile hw h hb => .cons (.keyword hw) (h.meant.append hb.meant)
  | .count ha hl hn hq h ht h' hr hb =>
    .cons (.keyword ha) (.cons (.delimiter hl) (.cons (.identifier hn) (.cons (.delimiter hq)
      (h.meant.append (.cons (.name ht) (h'.meant.append (.cons (.delimiter hr) hb.meant)))))))
  | .giveBack ht hy h hz =>
    .cons (.keyword ht) (.cons (.keyword hy) (h.meant.append (.keyword hz)))
  | .block hb => hb.meant
  | .evaluate h hz => h.meant.append (.keyword hz)

theorem Body.meant {ts : List Token} {b : Block} {k : Nat} : Body ts b k → Meant ts
  | .mk ho hs hz => .cons (.keyword ho) ((statements_meant hs).append (.keyword hz))

theorem statements_meant {ts : List Token} {ss : List Stmt} {k : Nat} :
    Sequence Statement ts ss k → Meant ts
  | .nil => .nil
  | .cons h hs => h.meant.append (statements_meant hs)

end

theorem Value.meant {t : Token} {v : ConstantValue} : Value t v → Meant [t]
  | .number hk _ => .kind hk rfl nofun
  | .named hk _ => .identifier hk

theorem Constant.meant {ts : List Token} {d : ConstantDecl} {k : Nat} : Constant ts d k → Meant ts
  | .mk hd hn hp hv hz =>
    .cons (.keyword hd) (.cons (.identifier hn) (.cons (.name hp) (hv.meant.cons (.keyword hz))))

theorem NextParameter.meant {ts : List Token} {n : Ident} {k : Nat} :
    NextParameter ts n k → Meant ts
  | .mk ht hn => .cons (.delimiter ht) (.identifier hn)

theorem Parameters.meant {ts : List Token} {names : List Ident} {k : Nat} :
    Parameters ts names k → Meant ts
  | .none => .nil
  | .some hn hs => .cons (.identifier hn) (.sequence NextParameter.meant hs)

theorem Definition.meant {ts : List Token} {f : Function} {k : Nat} : Definition ts f k → Meant ts
  | .mk hd hn hp hl hps hr hb =>
    .cons (.keyword hd) (.cons (.identifier hn) (.cons (.name hp) (.cons (.delimiter hl)
      (hps.meant.append (.cons (.delimiter hr) hb.meant)))))

theorem TopLevel.meant {ts : List Token} {i : Item} {k : Nat} : TopLevel ts i k → Meant ts
  | .constant h => h.meant
  | .function h => h.meant
  | .statement h => h.meant

theorem Derives.meant {ts : List Token} {p : Program} {k : Nat} : Derives ts p k → Meant ts
  | .mk hg hs => .cons (.keyword hg) (.sequence TopLevel.meant hs)

end Bello.Grammar
