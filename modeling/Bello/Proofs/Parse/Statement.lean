import Bello.Parse.Program
import Bello.Proofs.Parse.Expression

/- Statements and blocks are read as the grammar says.

   Most statements begin with a word that says which form they have. The others are
   assignments and expressions, which are told apart by the token after a name. Each form
   is followed twice: what its reader takes is a statement, and a statement of the form is
   taken by its reader. -/
namespace Bello.Parse

open Grammar

variable {room : Nat} {blockR : Parse Block} {expr : Parse Expr} {us rest : List Token}

/-- Anything may follow. -/
abbrev Anything (_ : List Token) : Prop := True

/-! ## Forms without a condition -/

theorem declaration_sound {d : Token} (hd : d.isKeyword .poop = true) :
    Runs declaration (d :: us) (Took room Statement (d :: us)) Anyhow := by
  unfold declaration
  refine .advance (.expectIdent_sound ?_)
  rintro n us rfl hn
  refine .expectTypeTag_sound ?_
  rintro p us rfl hp
  refine .expectStatementEnd_sound ?_
  rintro z us rfl hz
  refine .spanFrom (fun s => .pure' ?_)
  exact ⟨[d, n, p, z], 0, rfl, Nat.zero_le _, .declare hd hn hp hz⟩

theorem declaration_complete {d n p z : Token} (hn : n.kind = .identifier)
    (hp : p.isIdentifier typeTag = true) (hz : z.isKeyword .naidu = true) :
    Runs declaration (d :: n :: p :: z :: rest)
      (Got room 0 (.declare (nameOf n) .blank) rest) (Late room 0) := by
  unfold declaration
  refine .advance (.expectIdent hn (.expectTypeTag hp (.expectStatementEnd hz ?_)))
  exact .spanFrom (fun s => .pure' ⟨Nat.zero_le _, rfl, rfl⟩)

theorem inputStatement_sound {g : Token} (hg : g.isKeyword .guoleila = true) :
    Runs inputStatement (g :: us) (Took room Statement (g :: us)) Anyhow := by
  unfold inputStatement
  refine .advance (.expect_sound (Token.inner_delimiter "(") ?_)
  rintro l us rfl hl
  refine .expectIdent_sound ?_
  rintro n us rfl hn
  refine .expect_sound (Token.inner_delimiter ")") ?_
  rintro r us rfl hr
  refine .expectStatementEnd_sound ?_
  rintro z us rfl hz
  refine .spanFrom (fun s => .pure' ?_)
  exact ⟨[g, l, n, r, z], 0, rfl, Nat.zero_le _, .input hg hl hn hr hz⟩

theorem inputStatement_complete {g l n r z : Token} (hl : l.isDelimiter "(" = true)
    (hn : n.kind = .identifier) (hr : r.isDelimiter ")" = true) (hz : z.isKeyword .naidu = true) :
    Runs inputStatement (g :: l :: n :: r :: z :: rest)
      (Got room 0 (.input (nameOf n) .blank) rest) (Late room 0) := by
  unfold inputStatement
  refine .advance (.expect hl (.expectIdent hn (.expect hr (.expectStatementEnd hz ?_))))
  exact .spanFrom (fun s => .pure' ⟨Nat.zero_le _, rfl, rfl⟩)

theorem closed_keyword {z : Token} {word : Keyword} (hz : z.isKeyword word = true) :
    Closed (z :: rest) := Precedence.ends_of_none (rank?_keyword hz) _

theorem returnStatement_sound (he : Reads expr room Expression Closed) {t : Token}
    (ht : t.isKeyword .tank = true) :
    Runs (returnStatement expr) (t :: us) (Took room Statement (t :: us)) Anyhow := by
  unfold returnStatement
  refine .advance (.expect_sound (Token.inner_keyword .yu) ?_)
  rintro y us rfl hy
  refine he.sound_bind ?_
  rintro e used _ k rfl hk he'
  refine .expectStatementEnd_sound ?_
  rintro z us rfl hz
  refine .spanFrom (fun s => .pure' ?_)
  exact ⟨t :: y :: (used ++ [z]), k, by simp, hk, .giveBack ht hy he' hz⟩

theorem returnStatement_complete (he : Reads expr room Expression Closed) {t y z : Token}
    {ts : List Token} {e : Expr} {k : Nat} (hy : y.isKeyword .yu = true) (he' : Expression ts e k)
    (hz : z.isKeyword .naidu = true) :
    Runs (returnStatement expr) (t :: y :: (ts ++ z :: rest))
      (Got room k (.giveBack e .blank) rest) (Late room k) := by
  unfold returnStatement
  refine .advance (.expect hy ?_)
  refine he.complete_bind he' (closed_keyword hz) (Nat.le_refl k) (fun v hk hv => ?_)
  refine .expectStatementEnd hz (.spanFrom (fun s => .pure' ⟨hk, rfl, ?_⟩))
  rw [← hv]
  rfl

/-! ## Forms with a condition -/

theorem closed_delimiter {r : Token} {text : String} (hne : text ≠ "(")
    (hr : r.isDelimiter text = true) : Closed (r :: rest) :=
  Precedence.ends_of_none (rank?_delimiter hne hr) _

theorem condition_reads (he : Reads expr room Expression Closed) :
    Reads (condition expr) room Condition Anything where
  sound ts := by
    unfold condition
    refine .expect_sound (Token.inner_delimiter "(") ?_
    rintro l us rfl hl
    refine he.sound_bind ?_
    rintro e used _ k rfl hk he'
    refine .expect_sound (Token.inner_delimiter ")") ?_
    rintro r us rfl hr
    exact .pure' ⟨l :: (used ++ [r]), k, by simp, hk, .mk hl he' hr⟩
  complete := by
    rintro _ e k rest ⟨hl, he', hr⟩ -
    unfold condition
    simp only [List.cons_append, List.append_assoc]
    refine .expect hl (he.complete_bind he' (closed_delimiter (by decide) hr) (Nat.le_refl k) ?_)
    intro v hk hv
    exact .expect hr (.pure' ⟨hk, rfl, hv⟩)

theorem outputStatement_eq (expr : Parse Expr) :
    outputStatement expr = (do
      let start := (← advance).span
      let _ ← expectKeyword .ti
      let _ ← expectKeyword .amo
      let value ← condition expr
      expectStatementEnd
      pure (.output value (← spanFrom start))) := by
  simp only [outputStatement, condition, bind_assoc, pure_bind]

theorem outputStatement_sound (he : Reads expr room Expression Closed) {w : Token}
    (hw : w.isKeyword .tulalilloo = true) :
    Runs (outputStatement expr) (w :: us) (Took room Statement (w :: us)) Anyhow := by
  rw [outputStatement_eq]
  refine .advance (.expect_sound (Token.inner_keyword .ti) ?_)
  rintro t us rfl ht
  refine .expect_sound (Token.inner_keyword .amo) ?_
  rintro a us rfl ha
  refine (condition_reads he).sound_bind ?_
  rintro e used _ k rfl hk he'
  refine .expectStatementEnd_sound ?_
  rintro z us rfl hz
  refine .spanFrom (fun s => .pure' ?_)
  exact ⟨w :: t :: a :: (used ++ [z]), k, by simp, hk, .output hw ht ha he' hz⟩

theorem outputStatement_complete (he : Reads expr room Expression Closed) {w t a z : Token}
    {ts : List Token} {e : Expr} {k : Nat} (ht : t.isKeyword .ti = true)
    (ha : a.isKeyword .amo = true) (he' : Condition ts e k) (hz : z.isKeyword .naidu = true) :
    Runs (outputStatement expr) (w :: t :: a :: (ts ++ z :: rest))
      (Got room k (.output e .blank) rest) (Late room k) := by
  rw [outputStatement_eq]
  refine .advance (.expect ht (.expect ha ?_))
  refine (condition_reads he).complete_bind he' trivial (Nat.le_refl k) (fun v hk hv => ?_)
  refine .expectStatementEnd hz (.spanFrom (fun s => .pure' ⟨hk, rfl, ?_⟩))
  rw [← hv]
  rfl

theorem whileLoop_sound (hb : Reads blockR room Body Anything)
    (he : Reads expr room Expression Closed) {w : Token} (hw : w.isKeyword .kemari = true) :
    Runs (whileLoop blockR expr) (w :: us) (Took room Statement (w :: us)) Anyhow := by
  unfold whileLoop
  refine .advance ((condition_reads he).sound_bind ?_)
  rintro e used _ k rfl hk he'
  refine hb.sound_bind ?_
  rintro body used' rest k' rfl hk' hbody
  refine .spanFrom (fun s => .pure' ?_)
  exact ⟨w :: (used ++ used'), max k k', by simp, by omega, .repeatWhile hw he' hbody⟩

theorem whileLoop_complete (hb : Reads blockR room Body Anything)
    (he : Reads expr room Expression Closed) {w : Token} {ts us : List Token} {e : Expr}
    {body : Block} {k k' : Nat} (he' : Condition ts e k) (hbody : Body us body k') :
    Runs (whileLoop blockR expr) (w :: (ts ++ (us ++ rest)))
      (Got room (max k k') (.repeatWhile e body .blank) rest) (Late room (max k k')) := by
  unfold whileLoop
  refine .advance ?_
  refine (condition_reads he).complete_bind he' trivial (by omega) (fun v hk hv => ?_)
  refine hb.complete_bind hbody trivial (by omega) (fun b hk' hb' => ?_)
  refine .spanFrom (fun s => .pure' ⟨by omega, rfl, ?_⟩)
  rw [← hv, ← hb']
  rfl

theorem choice_sound (hb : Reads blockR room Body Anything)
    (he : Reads expr room Expression Closed) {i : Token} (hi : i.isKeyword .biDo = true) :
    Runs (choice blockR expr) (i :: us) (Took room Statement (i :: us)) Anyhow := by
  unfold choice
  refine .advance ((condition_reads he).sound_bind ?_)
  rintro e used _ k rfl hk he'
  refine hb.sound_bind ?_
  rintro yes used' rest k' rfl hk' hyes
  refine .ifPeek (Token.inner_keyword .uhOh) ?_ (fun _ => ?_)
  · rintro o us rfl ho
    simp only [pure_bind]
    refine .advance (hb.sound_bind ?_)
    rintro no used'' rest k'' rfl hk'' hno
    refine .spanFrom (fun s => .pure' ?_)
    exact ⟨i :: (used ++ (used' ++ o :: used'')), max (max k k') k'', by simp, by omega,
      .chooseElse hi he' hyes ho hno⟩
  · simp only [pure_bind]
    refine .spanFrom (fun s => .pure' ?_)
    exact ⟨i :: (used ++ used'), max k k', by simp, by omega, .choose hi he' hyes⟩

theorem choice_complete (hb : Reads blockR room Body Anything)
    (he : Reads expr room Expression Closed) {i : Token} {ts us : List Token} {e : Expr}
    {yes : Block} {k k' : Nat} (he' : Condition ts e k) (hyes : Body us yes k')
    (hrest : Token.leads (·.isKeyword .uhOh) rest = false) :
    Runs (choice blockR expr) (i :: (ts ++ (us ++ rest)))
      (Got room (max k k') (.choose e yes none .blank) rest) (Late room (max k k')) := by
  unfold choice
  refine .advance ?_
  refine (condition_reads he).complete_bind he' trivial (by omega) (fun v hk hv => ?_)
  refine hb.complete_bind hyes trivial (by omega) (fun y hk' hy => ?_)
  refine .ifPeek (Token.inner_keyword .uhOh) ?_ (fun _ => ?_)
  · rintro o us rfl ho
    rw [Token.leads, ho] at hrest
    cases hrest
  · simp only [pure_bind]
    refine .spanFrom (fun s => .pure' ⟨by omega, rfl, ?_⟩)
    rw [← hv, ← hy]
    rfl

theorem choice_complete_else (hb : Reads blockR room Body Anything)
    (he : Reads expr room Expression Closed) {i o : Token} {ts us vs : List Token} {e : Expr}
    {yes no : Block} {k k' k'' : Nat} (he' : Condition ts e k) (hyes : Body us yes k')
    (ho : o.isKeyword .uhOh = true) (hno : Body vs no k'') :
    Runs (choice blockR expr) (i :: (ts ++ (us ++ o :: (vs ++ rest))))
      (Got room (max (max k k') k'') (.choose e yes (some no) .blank) rest)
      (Late room (max (max k k') k'')) := by
  unfold choice
  refine .advance ?_
  refine (condition_reads he).complete_bind he' trivial (by omega) (fun v hk hv => ?_)
  refine hb.complete_bind hyes trivial (by omega) (fun y hk' hy => ?_)
  refine .peek ?_
  simp only [ho, if_true, pure_bind]
  refine .advance (hb.complete_bind hno trivial (by omega) (fun n hk'' hn => ?_))
  refine .spanFrom (fun s => .pure' ⟨by omega, rfl, ?_⟩)
  rw [← hv, ← hy, ← hn]
  rfl

theorem countLoop_sound (hb : Reads blockR room Body Anything)
    (he : Reads expr room Expression Closed) {a : Token} (ha : a.isKeyword .again = true) :
    Runs (countLoop blockR expr) (a :: us) (Took room Statement (a :: us)) Anyhow := by
  unfold countLoop
  refine .advance (.expect_sound (Token.inner_delimiter "(") ?_)
  rintro l us rfl hl
  refine .expectIdent_sound ?_
  rintro n us rfl hn
  refine .expect_sound (Token.inner_delimiter "=") ?_
  rintro q us rfl hq
  refine he.sound_bind ?_
  rintro first used _ k rfl hk hfirst
  refine .expect_sound (Token.inner_name "to") ?_
  rintro t us rfl ht
  refine he.sound_bind ?_
  rintro last used' _ k' rfl hk' hlast
  refine .expect_sound (Token.inner_delimiter ")") ?_
  rintro r us rfl hr
  refine hb.sound_bind ?_
  rintro body used'' rest k'' rfl hk'' hbody
  refine .spanFrom (fun s => .pure' ?_)
  exact ⟨a :: l :: n :: q :: (used ++ t :: (used' ++ r :: used'')), max (max k k') k'', by simp,
    by omega, .count ha hl hn hq hfirst ht hlast hr hbody⟩

theorem countLoop_complete (hb : Reads blockR room Body Anything)
    (he : Reads expr room Expression Closed) {a l n q t r : Token} {ts us vs : List Token}
    {first last : Expr} {body : Block} {k k' k'' : Nat} (hl : l.isDelimiter "(" = true)
    (hn : n.kind = .identifier) (hq : q.isDelimiter "=" = true) (hfirst : Expression ts first k)
    (ht : t.isIdentifier "to" = true) (hlast : Expression us last k')
    (hr : r.isDelimiter ")" = true) (hbody : Body vs body k'') :
    Runs (countLoop blockR expr) (a :: l :: n :: q :: (ts ++ t :: (us ++ r :: (vs ++ rest))))
      (Got room (max (max k k') k'') (.count (nameOf n) first last body .blank) rest)
      (Late room (max (max k k') k'')) := by
  have hto : t.kind = .identifier := by
    simp only [Token.isIdentifier, Bool.and_eq_true, beq_iff_eq] at ht
    exact ht.1
  unfold countLoop
  refine .advance (.expect hl (.expectIdent hn (.expect hq ?_)))
  refine he.complete_bind hfirst (Precedence.ends_of_none (rank?_identifier hto) _) (by omega)
    (fun f hk hf => ?_)
  refine .expect ht ?_
  refine he.complete_bind hlast (closed_delimiter (by decide) hr) (by omega) (fun g hk' hg => ?_)
  refine .expect hr ?_
  refine hb.complete_bind hbody trivial (by omega) (fun b hk'' hb' => ?_)
  refine .spanFrom (fun s => .pure' ⟨by omega, rfl, ?_⟩)
  rw [← hf, ← hg, ← hb']
  rfl

/-! ## Assignments and expressions -/

theorem Runs.peekSecond {t : Token} {ts : List Token} {p : Token → Bool} (hp : Token.Inner p)
    {f : Token → Parse Stmt} {Q : Stmt → List Token → Prop} {E : Error → Prop}
    (h : ∀ t', p t' = Token.leads p ts → Runs (f t') (t :: ts) Q E) :
    Runs (Parse.peekSecond >>= f) (t :: ts) Q E := by
  intro c hc
  refine h c.peekSecond ?_ c hc
  rw [hc.peekSecond]
  have hc' := hc.advance.2
  cases ts with
  | nil => exact hp _ (Token.kind_of_isEnd hc'.peek_nil)
  | cons t' ts => rw [hc'.peek]; rfl

/-- What is read where there is no assignment. -/
def evaluation (expr : Parse Expr) (start : Span) : Parse Stmt := do
  let value ← expr
  expectStatementEnd
  pure (.evaluate value (← spanFrom start))

theorem evaluation_sound (he : Reads expr room Expression Closed) (start : Span) :
    Runs (evaluation expr start) us (Took room Statement us) Anyhow := by
  unfold evaluation
  refine he.sound_bind ?_
  rintro e used _ k rfl hk he'
  refine .expectStatementEnd_sound ?_
  rintro z us rfl hz
  refine .spanFrom (fun s => .pure' ?_)
  exact ⟨used ++ [z], k, by simp, hk, .evaluate he' hz⟩

theorem evaluation_complete (he : Reads expr room Expression Closed) (start : Span) {z : Token}
    {ts : List Token} {e : Expr} {k : Nat} (he' : Expression ts e k)
    (hz : z.isKeyword .naidu = true) :
    Runs (evaluation expr start) (ts ++ z :: rest)
      (Got room k (.evaluate e .blank) rest) (Late room k) := by
  unfold evaluation
  refine he.complete_bind he' (closed_keyword hz) (Nat.le_refl k) (fun v hk hv => ?_)
  refine .expectStatementEnd hz (.spanFrom (fun s => .pure' ⟨hk, rfl, ?_⟩))
  rw [← hv]
  rfl

theorem assignmentOrExpression_sound (he : Reads expr room Expression Closed) :
    Runs (assignmentOrExpression expr) us (Took room Statement us) Anyhow := by
  unfold assignmentOrExpression
  cases us with
  | nil =>
    refine .peek_nil (fun t ht => ?_)
    simp only [ht, reduceCtorEq, false_and, if_false]
    exact fun c hc => evaluation_sound he t.span c hc
  | cons n us =>
    refine .peek (.peekSecond (Token.inner_operator .lumai) (fun t' ht' => ?_))
    split
    · next h =>
      obtain ⟨hn, hl⟩ := h
      rw [hl] at ht'
      cases us with
      | nil => cases ht'
      | cons a us =>
        refine .expectIdent hn (.advance (he.sound_bind ?_))
        rintro e used _ k rfl hk he'
        refine .expectStatementEnd_sound ?_
        rintro z us rfl hz
        refine .spanFrom (fun s => .pure' ?_)
        exact ⟨n :: a :: (used ++ [z]), k, by simp, hk, .assign hn ht'.symm he' hz⟩
    · exact evaluation_sound he n.span

theorem assignment_complete (he : Reads expr room Expression Closed) {n a z : Token}
    {ts : List Token} {e : Expr} {k : Nat} (hn : n.kind = .identifier)
    (ha : a.isOperator .lumai = true) (he' : Expression ts e k) (hz : z.isKeyword .naidu = true) :
    Runs (assignmentOrExpression expr) (n :: a :: (ts ++ z :: rest))
      (Got room k (.assign (nameOf n) e .blank) rest) (Late room k) := by
  unfold assignmentOrExpression
  refine .peek (.peekSecond (Token.inner_operator .lumai) (fun t' ht' => ?_))
  rw [if_pos ⟨hn, ht'.trans ha⟩]
  refine .expectIdent hn (.advance ?_)
  refine he.complete_bind he' (closed_keyword hz) (Nat.le_refl k) (fun v hk hv => ?_)
  refine .expectStatementEnd hz (.spanFrom (fun s => .pure' ⟨hk, rfl, ?_⟩))
  rw [← hv]
  rfl

/-- An expression that begins with a name has no assignment operator after it. -/
theorem assignmentOrExpression_complete (he : Reads expr room Expression Closed) {z : Token}
    {ts : List Token} {e : Expr} {k : Nat} (he' : Expression ts e k)
    (hz : z.isKeyword .naidu = true) :
    Runs (assignmentOrExpression expr) (ts ++ z :: rest)
      (Got room k (.evaluate e .blank) rest) (Late room k) := by
  obtain ⟨t, us, rfl, -, hname⟩ := he'.front
  unfold assignmentOrExpression
  refine .peek (.peekSecond (Token.inner_operator .lumai) (fun t' ht' => ?_))
  -- A name is followed by a token of some rank or by the end of the statement.
  have hno : ¬ (t.kind = .identifier ∧ t'.isOperator .lumai = true) := by
    rintro ⟨hk, hl⟩
    rw [hl] at ht'
    cases us with
    | nil =>
      have hlz : z.isOperator .lumai = true := ht'.symm
      simp [Token.isOperator, Token.isKeyword_iff.1 hz] at hlz
    | cons o us =>
      have ho := hname hk o rfl
      rw [rank?_operator (show o.isOperator .lumai = true from ht'.symm)] at ho
      cases ho
  rw [if_neg hno]
  exact evaluation_complete he t.span he' hz

/-! ## All forms -/

/-- Before these tokens a statement is over: no second block of a choice follows. -/
abbrev Finished (rest : List Token) : Prop := Token.leads (·.isKeyword .uhOh) rest = false

theorem statement_sound (hb : Reads blockR room Body Anything)
    (he : Reads expr room Expression Closed) (ts : List Token) :
    Runs (statement blockR expr) ts (Took room Statement ts) Anyhow := by
  unfold statement
  cases ts with
  | nil =>
    refine .peek_nil (fun t ht => ?_)
    rw [ht]
    exact .unexpected_sound _
  | cons t us =>
    refine .peek ?_
    split
    · next hk => exact declaration_sound (Token.isKeyword_iff.2 hk)
    · next hk => exact inputStatement_sound (Token.isKeyword_iff.2 hk)
    · next hk => exact outputStatement_sound he (Token.isKeyword_iff.2 hk)
    · next hk => exact choice_sound hb he (Token.isKeyword_iff.2 hk)
    · next hk => exact whileLoop_sound hb he (Token.isKeyword_iff.2 hk)
    · next hk => exact countLoop_sound hb he (Token.isKeyword_iff.2 hk)
    · next hk => exact returnStatement_sound he (Token.isKeyword_iff.2 hk)
    · refine hb.sound_bind ?_
      rintro b used rest k hts hk hb'
      exact .pure' ⟨used, k, hts, hk, .block hb'⟩
    · exact .unexpected_sound _
    · exact assignmentOrExpression_sound he

theorem statement_complete (hb : Reads blockR room Body Anything)
    (he : Reads expr room Expression Closed) {used rest : List Token} {s : Stmt} {k : Nat}
    (h : Statement used s k) (hrest : Finished rest) :
    Runs (statement blockR expr) (used ++ rest) (Got room k s rest) (Late room k) := by
  unfold statement
  cases h with
  | declare hd hn hp hz =>
    refine .peek ?_
    simp only [Token.isKeyword_iff.1 hd]
    exact declaration_complete hn hp hz
  | assign hn ha he' hz =>
    simp only [List.cons_append, List.append_assoc]
    refine .peek ?_
    simp only [hn]
    exact assignment_complete he hn ha he' hz
  | input hg hl hn hr hz =>
    refine .peek ?_
    simp only [Token.isKeyword_iff.1 hg]
    exact inputStatement_complete hl hn hr hz
  | output hw ht ha he' hz =>
    simp only [List.cons_append, List.append_assoc]
    refine .peek ?_
    simp only [Token.isKeyword_iff.1 hw]
    exact outputStatement_complete he ht ha he' hz
  | choose hi he' hyes =>
    simp only [List.cons_append, List.append_assoc]
    refine .peek ?_
    simp only [Token.isKeyword_iff.1 hi]
    exact choice_complete hb he he' hyes hrest
  | chooseElse hi he' hyes ho hno =>
    simp only [List.cons_append, List.append_assoc]
    refine .peek ?_
    simp only [Token.isKeyword_iff.1 hi]
    exact choice_complete_else hb he he' hyes ho hno
  | repeatWhile hw he' hbody =>
    simp only [List.cons_append, List.append_assoc]
    refine .peek ?_
    simp only [Token.isKeyword_iff.1 hw]
    exact whileLoop_complete hb he he' hbody
  | count ha hl hn hq hfirst ht hlast hr hbody =>
    simp only [List.cons_append, List.append_assoc]
    refine .peek ?_
    simp only [Token.isKeyword_iff.1 ha]
    exact countLoop_complete hb he hl hn hq hfirst ht hlast hr hbody
  | giveBack ht hy he' hz =>
    simp only [List.cons_append, List.append_assoc]
    refine .peek ?_
    simp only [Token.isKeyword_iff.1 ht]
    exact returnStatement_complete he hy he' hz
  | block hb' =>
    obtain ⟨o, us, rfl, ho⟩ := hb'.front
    refine .peek ?_
    simp only [Token.isKeyword_iff.1 ho]
    refine hb.complete_bind hb' trivial (Nat.le_refl k) (fun b hk hb'' => .pure' ⟨hk, rfl, ?_⟩)
    rw [← hb'']
    rfl
  | evaluate he' hz =>
    obtain ⟨t, us, rfl, ht, -⟩ := he'.front
    simp only [List.cons_append, List.append_assoc]
    refine .peek ?_
    -- No expression begins with the word of another form.
    rcases Precedence.opens_cases ht with hk | hk | hk | hk | hk | ⟨hk, -⟩ | ⟨w, -, hk⟩
    all_goals
      simp only [hk]
      exact assignmentOrExpression_complete he he' hz

theorem statement_reads (hb : Reads blockR room Body Anything)
    (he : Reads expr room Expression Closed) :
    Reads (statement blockR expr) room Statement Finished :=
  ⟨statement_sound hb he, fun _ _ _ _ => statement_complete hb he⟩

/-! ## Blocks -/

theorem nextStatement_repeats {x : Parse Stmt} (hx : Reads x room Statement Finished) :
    Repeats (nextStatement x) room Statement Finished
      (fun mid rest => mid = rest ∧ Token.leads (·.isKeyword .stopa) mid = true) where
  nonempty h := by
    obtain ⟨t, us, rfl, -⟩ := h.front
    exact List.cons_ne_nil t us
  ends h rest := by
    obtain ⟨t, us, rfl, ht⟩ := h.front
    exact opensStatement_keyword ht .uhOh (by decide)
  sound ts := by
    unfold nextStatement
    cases ts with
    | nil =>
      refine .peek_nil (fun t ht => ?_)
      simp only [Token.isKeyword, Token.isEnd, ht]
      exact .unexpected_sound _
    | cons t us =>
      refine .peek ?_
      split
      · next ht => exact .pure' ⟨rfl, ht⟩
      · split
        · exact .unexpected_sound _
        · refine hx.sound_bind ?_
          rintro s used rest k hts hk hs
          exact .pure' ⟨used, k, hts, hk, hs⟩
  complete := by
    intro used s k rest h hrest
    obtain ⟨t, us, rfl, ht⟩ := h.front
    unfold nextStatement
    refine .of_not_isEnd (fun hend => .peek ?_)
    simp only [opensStatement_keyword ht .stopa (by decide), hend, Bool.false_eq_true, if_false]
    refine hx.complete_bind h hrest (Nat.le_refl k) (fun s' hk hs => ?_)
    exact .pure' ⟨hk, rfl, s', rfl, hs⟩
  stop := by
    rintro ts _ ⟨rfl, hs⟩
    cases ts with
    | nil => cases hs
    | cons t us =>
      have ht : t.isKeyword .stopa = true := hs
      refine ⟨?_, ?_⟩
      · show t.isKeyword .uhOh = false
        simp [Token.isKeyword, Token.isKeyword_iff.1 ht]
      · unfold nextStatement
        refine .peek ?_
        rw [if_pos ht]
        exact .pure' ⟨rfl, rfl⟩

/-- The room for what a block holds is one less than for the block. -/
theorem block_reads (room : Nat) : Reads (block room) room Body Anything := by
  induction room with
  | zero =>
    refine ⟨fun ts => .tooDeep_sound, ?_⟩
    rintro _ _ _ rest ⟨ho, hss, hs⟩ -
    exact .tooDeep (fun s => ⟨Nat.succ_pos _, rfl⟩)
  | succ room ih =>
    have hrep := nextStatement_repeats (statement_reads ih (expression_reads room))
    refine ⟨fun ts => ?_, ?_⟩
    · unfold block
      refine .expect_sound (Token.inner_keyword .oca) ?_
      rintro o us rfl ho
      refine hrep.sound_bind ?_
      rintro ss used mid rest k rfl hk hss ⟨rfl, hs⟩
      cases mid with
      | nil => cases hs
      | cons s rest =>
        refine .advance (.spanFrom (fun span => .pure' ?_))
        refine ⟨o :: (used ++ [s]), k + 1, by simp, by omega, ?_⟩
        show Body _ (.mk (Stmt.bareAll ss) .blank) _
        rw [Stmt.bareAll_eq]
        exact .mk ho hss hs
    · rintro _ _ _ rest h -
      cases h with
      | @mk o s ts ss k ho hss hs =>
        unfold block
        simp only [List.cons_append, List.append_assoc]
        -- What the block holds is late in its room exactly if the block is late in one more.
        refine .mono (E := Late room k) (.expect ho ?_) (fun _ _ h => h) ?_
        · refine hrep.complete_bind hss ⟨rfl, hs⟩ (Nat.le_refl k) (fun ss' hk hss' => ?_)
          refine .advance (.spanFrom (fun span => .pure' ⟨by omega, rfl, ?_⟩))
          show Block.mk (Stmt.bareAll ss') .blank = _
          rw [Stmt.bareAll_eq, hss']
        · exact fun e he => he.mono (by omega)

end Bello.Parse
