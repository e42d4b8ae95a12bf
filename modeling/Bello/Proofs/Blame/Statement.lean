import Bello.Proofs.Blame.Expression

/- The first wrong token of a statement.

   The forms that begin with a word of their own are followed token by token, and what has
   been taken is completed with the shortest parts that the form still needs. Assignments and
   expressions are told apart by the second token, one further than any other reader looks;
   that second token does not matter to an error that points at the first one, unless there
   is no room (`assignmentOrExpression_blames`). -/
namespace Bello.Parse

open Grammar

variable {room : Nat} {blockR : Parse Block} {expr : Parse Expr}

/-! ## Forms without a condition -/

theorem begins_statement : Begins Statement [] :=
  .start (.evaluate expression_da (isKeyword_wordToken .naidu))

theorem declaration_blames {d : Token} (hd : d.isKeyword .poop = true) (ts : List Token) :
    Blames Statement [] declaration (d :: ts) := by
  have hz := isKeyword_wordToken .naidu
  unfold declaration
  refine .advance (.expectIdent ?_ (fun n us _ hn => ?_))
  · exact .followed [aName, theTag, wordToken .naidu]
      (.declare hd kind_aName isIdentifier_theTag hz) (by simp)
  refine .expectTypeTag ?_ (fun p vs _ hp => ?_)
  · exact .followed [theTag, wordToken .naidu] (.declare hd hn isIdentifier_theTag hz) (by simp)
  refine .expectStatementEnd ?_ (fun z ws _ _ => .spanFrom (fun s => .pure' _))
  exact .followed [wordToken .naidu] (.declare hd hn hp hz) (by simp)

theorem inputStatement_blames {g : Token} (hg : g.isKeyword .guoleila = true) (ts : List Token) :
    Blames Statement [] inputStatement (g :: ts) := by
  have hz := isKeyword_wordToken .naidu
  have hclose := isDelimiter_ofDelimiter ")"
  unfold inputStatement
  refine .advance (.expect (Token.inner_delimiter "(") ?_ (fun l us _ hl => ?_))
  · exact .followed [.ofDelimiter "(", aName, .ofDelimiter ")", wordToken .naidu]
      (.input hg (isDelimiter_ofDelimiter "(") kind_aName hclose hz) (by simp)
  refine .expectIdent ?_ (fun n vs _ hn => ?_)
  · exact .followed [aName, .ofDelimiter ")", wordToken .naidu]
      (.input hg hl kind_aName hclose hz) (by simp)
  refine .expect (Token.inner_delimiter ")") ?_ (fun r ws _ hr => ?_)
  · exact .followed [.ofDelimiter ")", wordToken .naidu] (.input hg hl hn hclose hz) (by simp)
  refine .expectStatementEnd ?_ (fun z _ _ _ => .spanFrom (fun s => .pure' _))
  exact .followed [wordToken .naidu] (.input hg hl hn hr hz) (by simp)

theorem returnStatement_blames (he : Exact expr room Expression Closed) {t : Token}
    (ht : t.isKeyword .tank = true) (ts : List Token) :
    Blames Statement [] (returnStatement expr) (t :: ts) := by
  have hz := isKeyword_wordToken .naidu
  unfold returnStatement
  refine .advance (.expect (Token.inner_keyword .yu) ?_ (fun y us _ hy => ?_))
  · exact .followed [wordToken .yu, wordToken .da, wordToken .naidu]
      (.giveBack ht (isKeyword_wordToken .yu) expression_da hz) (by simp)
  have hend : ∀ {us e k}, Expression us e k → Begins Statement (t :: y :: us) :=
    fun he' => .followed [wordToken .naidu] (.giveBack ht hy he' hz) (by simp)
  refine he.part hend (fun e vs rest k _ he' => ?_)
  exact .expectStatementEnd (hend he') (fun z _ _ _ => .spanFrom (fun s => .pure' _))

/-! ## Forms with a condition -/

theorem condition_exact (he : Exact expr room Expression Closed) :
    Exact (condition expr) room Condition Anything := by
  refine ⟨condition_reads he.toReads, fun ts => ?_⟩
  unfold condition
  refine .expect (Token.inner_delimiter "(") (.start condition_short) (fun l us _ hl => ?_)
  have hclose : ∀ {us e k}, Expression us e k → Begins Condition (l :: us) :=
    fun he' => .followed [.ofDelimiter ")"] (.mk hl he' (isDelimiter_ofDelimiter ")")) (by simp)
  refine he.part hclose (fun e vs rest k _ he' => ?_)
  exact .expect (Token.inner_delimiter ")") (hclose he') (fun r _ _ _ => .pure' _)

theorem outputStatement_blames (he : Exact expr room Expression Closed) {w : Token}
    (hw : w.isKeyword .tulalilloo = true) (ts : List Token) :
    Blames Statement [] (outputStatement expr) (w :: ts) := by
  have hz := isKeyword_wordToken .naidu
  rw [outputStatement_eq]
  refine .advance (.expect (Token.inner_keyword .ti) ?_ (fun t us _ ht => ?_))
  · exact .followed (wordToken .ti :: wordToken .amo :: (shortCondition ++ [wordToken .naidu]))
      (.output hw (isKeyword_wordToken .ti) (isKeyword_wordToken .amo) condition_short hz) (by simp)
  refine .expect (Token.inner_keyword .amo) ?_ (fun a vs _ ha => ?_)
  · exact .followed (wordToken .amo :: (shortCondition ++ [wordToken .naidu]))
      (.output hw ht (isKeyword_wordToken .amo) condition_short hz) (by simp)
  have hend : ∀ {us e k}, Condition us e k → Begins Statement (w :: t :: a :: us) :=
    fun he' => .followed [wordToken .naidu] (.output hw ht ha he' hz) (by simp)
  refine (condition_exact he).part hend (fun e ws rest k _ he' => ?_)
  exact .expectStatementEnd (hend he') (fun z _ _ _ => .spanFrom (fun s => .pure' _))

theorem whileLoop_blames (hb : Exact blockR room Body Anything)
    (he : Exact expr room Expression Closed) {w : Token} (hw : w.isKeyword .kemari = true)
    (ts : List Token) : Blames Statement [] (whileLoop blockR expr) (w :: ts) := by
  unfold whileLoop
  refine .advance ((condition_exact he).part ?_ (fun e us rest k _ he' => ?_))
  · exact fun he' => .followed emptyBody (.repeatWhile hw he' body_empty) (by simp)
  refine hb.part (fun hbody => ?_) (fun _ _ _ _ _ _ => .spanFrom (fun s => .pure' _))
  exact .whole (.repeatWhile hw he' hbody)

theorem choice_blames (hb : Exact blockR room Body Anything)
    (he : Exact expr room Expression Closed) {i : Token} (hi : i.isKeyword .biDo = true)
    (ts : List Token) : Blames Statement [] (choice blockR expr) (i :: ts) := by
  unfold choice
  refine .advance ((condition_exact he).part ?_ (fun e us rest k _ he' => ?_))
  · exact fun he' => .followed emptyBody (.choose hi he' body_empty) (by simp)
  refine hb.part (fun hyes => .whole (.choose hi he' hyes)) (fun yes vs rest' k' _ hyes => ?_)
  refine .ifPeek (Token.inner_keyword .uhOh) (fun o ws _ ho => ?_) ?_
  · refine .advance (hb.part (fun hno => ?_) (fun _ _ _ _ _ _ => ?_))
    · exact .followed [] (.chooseElse hi he' hyes ho hno) (by simp)
    · simp only [pure_bind]
      exact .spanFrom (fun s => .pure' _)
  · simp only [pure_bind]
    exact .spanFrom (fun s => .pure' _)

theorem countLoop_blames (hb : Exact blockR room Body Anything)
    (he : Exact expr room Expression Closed) {a : Token} (ha : a.isKeyword .again = true)
    (ts : List Token) : Blames Statement [] (countLoop blockR expr) (a :: ts) := by
  have hopen := isDelimiter_ofDelimiter "("
  have hclose := isDelimiter_ofDelimiter ")"
  have hequal := isDelimiter_ofDelimiter "="
  have hto : (Token.ofName "to").isIdentifier "to" = true := rfl
  have hfirst : ∀ {l n q : Token} {us e k}, l.isDelimiter "(" = true → n.kind = .identifier →
      q.isDelimiter "=" = true → Expression us e k →
      Begins Statement (a :: l :: n :: q :: us) := by
    intro l n q us e k hl hn hq he'
    exact .followed (.ofName "to" :: wordToken .da :: .ofDelimiter ")" :: emptyBody)
      (.count ha hl hn hq he' hto expression_da hclose body_empty) (by simp)
  unfold countLoop
  refine .advance (.expect (Token.inner_delimiter "(") ?_ (fun l us _ hl => ?_))
  · exact .shorter [.ofDelimiter "(", aName, .ofDelimiter "=", wordToken .da]
      (hfirst hopen kind_aName hequal expression_da) (by simp)
  refine .expectIdent ?_ (fun n us _ hn => ?_)
  · exact .shorter [aName, .ofDelimiter "=", wordToken .da]
      (hfirst hl kind_aName hequal expression_da) (by simp)
  refine .expect (Token.inner_delimiter "=") ?_ (fun q us _ hq => ?_)
  · exact .shorter [.ofDelimiter "=", wordToken .da] (hfirst hl hn hequal expression_da) (by simp)
  refine he.part (hfirst hl hn hq) (fun e us rest k _ he' => ?_)
  refine .expect (Token.inner_name "to") (hfirst hl hn hq he') (fun t vs _ ht => ?_)
  have hlast : ∀ {vs e k}, Expression vs e k →
      Begins Statement (a :: l :: n :: q :: (us ++ t :: vs)) := by
    intro vs e k he''
    exact .followed (.ofDelimiter ")" :: emptyBody)
      (.count ha hl hn hq he' ht he'' hclose body_empty) (by simp)
  refine he.part (fun he'' => .shorter [] (hlast he'') (by simp)) (fun e' vs rest' k' _ he'' => ?_)
  refine .expect (Token.inner_delimiter ")") (.shorter [] (hlast he'') (by simp))
    (fun r ws _ hr => ?_)
  refine hb.part (fun hbody => ?_) (fun _ _ _ _ _ _ => .spanFrom (fun s => .pure' _))
  exact .followed [] (.count ha hl hn hq he' ht he'' hr hbody) (by simp)

/-! ## Assignments and expressions -/

/-- What is read where a name is followed by the assignment operator. -/
def assignment (expr : Parse Expr) (start : Span) : Parse Stmt := do
  let target ← expectIdent "variable name"
  let _ ← advance
  let value ← expr
  expectStatementEnd
  pure (.assign target value (← spanFrom start))

theorem assignmentOrExpression_eq {c : Cursor} (hc : c.Tidy) :
    assignmentOrExpression expr c =
      (if (c.ahead 0).kind = .identifier ∧ (c.ahead 1).isOperator .lumai then
        assignment expr (c.ahead 0).span
      else evaluation expr (c.ahead 0).span) c := by
  rw [← hc.peek, ← hc.peekSecond]
  rfl

theorem evaluation_blames (he : Exact expr room Expression Closed) (start : Span)
    (ts : List Token) : Blames Statement [] (evaluation expr start) ts := by
  have hend : ∀ {us e k}, Expression us e k → Begins Statement us :=
    fun he' => .followed [wordToken .naidu] (.evaluate he' (isKeyword_wordToken .naidu)) (by simp)
  unfold evaluation
  refine he.part hend (fun e us rest k _ he' => ?_)
  exact .expectStatementEnd (hend he') (fun z _ _ _ => .spanFrom (fun s => .pure' _))

theorem assignment_blames (he : Exact expr room Expression Closed) (start : Span) {n a : Token}
    (hn : n.kind = .identifier) (ha : a.isOperator .lumai = true) (ts : List Token) :
    Blames Statement [] (assignment expr start) (n :: a :: ts) := by
  have hend : ∀ {us e k}, Expression us e k → Begins Statement (n :: a :: us) :=
    fun he' => .followed [wordToken .naidu]
      (.assign hn ha he' (isKeyword_wordToken .naidu)) (by simp)
  unfold assignment
  refine .expectIdent begins_statement (fun n' us hts _ => ?_)
  cases hts
  refine .advance (he.part hend (fun e us rest k _ he' => ?_))
  exact .expectStatementEnd (hend he') (fun z _ _ _ => .spanFrom (fun s => .pure' _))

/-- A reader that looks at the second token does what another one does where that token is
    the same. An error of the other one that points at the first token would depend on that
    token alone, but there are tokens after it with which only the room can be missing. -/
theorem BlamesAt.of_second {γ : Type} {L : Rule γ} {used : List Token} {x y : Parse Stmt}
    {c d : Cursor} (h : BlamesAt L used y c) (hc : c.Tidy)
    (hxy : ∀ c', c.Shares 2 c' → x c' = y c') (hok : ∀ a, x c ≠ .ok a c)
    (hd : c.Shares 1 d) (hgood : ∀ e d', y d = .error e d' → e.isNesting = true) :
    BlamesAt L used x c := by
  have hsame := hxy c (.refl hc)
  unfold BlamesAt
  rcases h.cases with ⟨a, j, e, le, again⟩ | ⟨e', c', i, e, le, points, begins, again⟩
  · rw [← hsame] at e
    have hj : j ≠ 0 := by
      intro hj
      subst hj
      exact hok a e
    rw [e]
    exact .ok a le (fun c' hc' => (hxy c' (hc'.mono (by omega))).trans (again c' hc'))
  · have hi : 2 ≤ i + e'.reach := by
      cases hnest : e'.isNesting with
      | true =>
        have hreach := Error.reach_nesting hnest
        omega
      | false =>
        have hreach := Error.reach_other hnest
        have hi : i ≠ 0 := by
          intro hi
          subst hi
          rw [hreach] at again
          obtain ⟨d', hd'⟩ := again d hd
          rw [hgood e' d' hd'] at hnest
          cases hnest
        omega
    rw [hsame, e]
    refine .error e' c' le points begins (fun c' hc' => ?_)
    obtain ⟨d', hd'⟩ := again c' hc'
    exact ⟨d', (hxy c' (hc'.mono hi)).trans hd'⟩

/-- A name is an expression. -/
theorem expression_name {t : Token} (ht : t.kind = .identifier) :
    ∃ e, Expression [t] e 1 := by
  cases hc : NamedConstant.ofName? t.lexeme with
  | none => exact ⟨_, .mk (.of_primary (.var ht hc) _)⟩
  | some c => exact ⟨_, .mk (.of_primary (.constant ht hc) _)⟩

/-- Where the room is all that can be missing, it is what is missing. -/
theorem Runs.isNesting {α : Type} {x : Parse α} {ts : List Token} {k : Nat}
    {Q : α → List Token → Prop} (hr : Runs x ts Q (Late room k)) {c d : Cursor} (hc : c.At ts)
    {e : Error} (h : x c = .error e d) : e.isNesting = true := by
  rcases hr c hc with ⟨_, _, _, h', -⟩ | ⟨e', _, h', -, hcause⟩
  · cases h.symm.trans h'
  · cases h.symm.trans h'
    rw [Error.isNesting, hcause]

section Second

variable {c : Cursor}

theorem assignmentOrExpression_takes (he : Reads expr room Expression Closed) (hc : c.Tidy)
    (s : Stmt) : assignmentOrExpression expr c ≠ .ok s c := by
  intro e
  obtain ⟨used, k, hused, -, hs⟩ := (assignmentOrExpression_sound he).of_ok (j := 0) hc rfl e
  have hlen := congrArg List.length hused
  obtain ⟨t, us, rfl, -⟩ := hs.front
  simp only [List.drop_zero, List.length_append, List.length_cons] at hlen
  omega

/-- The first token could also be followed by the operator and a short expression. -/
theorem assigned_blames (he : Exact expr room Expression Closed) (hc : c.Tidy)
    (hn : (c.ahead 0).kind = .identifier) (ha : (c.ahead 1).isOperator .lumai = true) :
    BlamesAt Statement [] (assignmentOrExpression expr) c := by
  have hz := isKeyword_wordToken .naidu
  have hop := isOperator_ofOperator .lumai
  have hassigns : ∀ c' : Cursor, c'.Tidy → c'.ahead 0 = c.ahead 0 →
      (c'.ahead 1).isOperator .lumai = true →
      assignmentOrExpression expr c' = assignment expr (c.ahead 0).span c' := by
    intro c' hc' h0 h1
    rw [assignmentOrExpression_eq hc', h0, if_pos ⟨hn, h1⟩]
  obtain ⟨n, a, us, hts⟩ : ∃ n a us, c.remaining = n :: a :: us := by
    have hinner : (c.ahead 1).isEnd = false := by
      simp [Token.isEnd, Token.isOperator_iff.1 ha]
    have hlen := hc.lt_length hinner
    obtain ⟨n, rest, hn⟩ := List.exists_cons_of_length_pos (Nat.zero_lt_of_lt hlen)
    rw [hn] at hlen ⊢
    obtain ⟨a, us, rfl⟩ := List.exists_cons_of_length_pos (Nat.lt_of_succ_lt_succ hlen)
    exact ⟨n, a, us, rfl⟩
  have h0 : c.ahead 0 = n := Cursor.ahead_cons hts
  have h1 : c.ahead 1 = a := by rw [Cursor.ahead, hts]; rfl
  have hsample : Statement (n :: .ofOperator .lumai :: ([wordToken .da] ++ [wordToken .naidu]))
      (.assign (nameOf n) (.number .one .blank) .blank) 1 :=
    .assign (h0 ▸ hn) hop expression_da hz
  have hd := Cursor.shares_upon hc h0 hsample.meant
  have hassigned := assignment_blames he (c.ahead 0).span (h0 ▸ hn) (h1 ▸ ha) us c hc hts
  refine hassigned.of_second hc (fun c' hc' => ?_) (assignmentOrExpression_takes he.toReads hc) hd
    (fun e d' herr => ?_)
  · have h1' := hc'.ahead 1 (by decide)
    exact hassigns c' hc'.tidy' (hc'.ahead 0 (by decide)) (h1' ▸ ha)
  · rw [← hassigns _ hd.tidy' (hd.ahead 0 (by decide))
      (by rw [Cursor.ahead, Cursor.remaining_upon hsample.meant]; exact hop)] at herr
    exact (assignment_complete he.toReads (h0 ▸ hn) hop expression_da hz).isNesting
      (Cursor.at_upon hsample.meant) herr

/-- The first token could also be all of the statement. -/
theorem named_blames (he : Exact expr room Expression Closed) (hc : c.Tidy)
    (hn : (c.ahead 0).kind = .identifier) (ha : (c.ahead 1).isOperator .lumai = false) :
    BlamesAt Statement [] (assignmentOrExpression expr) c := by
  have hz := isKeyword_wordToken .naidu
  obtain ⟨e, he'⟩ := expression_name hn
  have hsample : Statement (c.ahead 0 :: [wordToken .naidu]) (.evaluate e .blank) 1 :=
    .evaluate he' hz
  refine (evaluation_blames he (c.ahead 0).span _ c hc rfl).of_second hc (fun c' hc' => ?_)
    (assignmentOrExpression_takes he.toReads hc) (Cursor.shares_upon hc rfl hsample.meant)
    (fun err d' => ?_)
  · rw [assignmentOrExpression_eq hc'.tidy', hc'.ahead 0 (by decide), hc'.ahead 1 (by decide),
      if_neg (by simp [ha])]
  · exact (evaluation_complete he.toReads _ he' hz).isNesting (Cursor.at_upon hsample.meant)

/-- Without a name the second token does not matter. -/
theorem nameless_blames (he : Exact expr room Expression Closed) (hc : c.Tidy)
    (hn : (c.ahead 0).kind ≠ .identifier) :
    BlamesAt Statement [] (assignmentOrExpression expr) c := by
  have hevaluates : ∀ c', c.Shares 1 c' →
      assignmentOrExpression expr c' = evaluation expr (c.ahead 0).span c' := by
    intro c' hc'
    rw [assignmentOrExpression_eq hc'.tidy', hc'.ahead 0 (by decide), if_neg (fun h => hn h.1)]
  unfold BlamesAt
  rw [hevaluates c (.refl hc)]
  refine (evaluation_blames he (c.ahead 0).span _ c hc rfl).mono hc (fun c' r hc' hr => ?_)
  exact (hevaluates c' hc').trans hr

end Second

theorem assignmentOrExpression_blames (he : Exact expr room Expression Closed)
    (ts : List Token) : Blames Statement [] (assignmentOrExpression expr) ts := by
  intro c hc _
  by_cases hn : (c.ahead 0).kind = .identifier
  · cases ha : (c.ahead 1).isOperator .lumai with
    | true => exact assigned_blames he hc hn ha
    | false => exact named_blames he hc hn ha
  · exact nameless_blames he hc hn

/-! ## All forms -/

theorem statement_exact (hb : Exact blockR room Body Anything)
    (he : Exact expr room Expression Closed) :
    Exact (statement blockR expr) room Statement Finished := by
  refine ⟨statement_reads hb.toReads he.toReads, fun ts => ?_⟩
  unfold statement
  cases ts with
  | nil =>
    refine .peek_nil (fun t ht => ?_)
    rw [ht]
    exact .unexpected _ begins_statement
  | cons t us =>
    refine .peek ?_
    split
    · next hk => exact declaration_blames (Token.isKeyword_iff.2 hk) us
    · next hk => exact inputStatement_blames (Token.isKeyword_iff.2 hk) us
    · next hk => exact outputStatement_blames he (Token.isKeyword_iff.2 hk) us
    · next hk => exact choice_blames hb he (Token.isKeyword_iff.2 hk) us
    · next hk => exact whileLoop_blames hb he (Token.isKeyword_iff.2 hk) us
    · next hk => exact countLoop_blames hb he (Token.isKeyword_iff.2 hk) us
    · next hk => exact returnStatement_blames he (Token.isKeyword_iff.2 hk) us
    · exact hb.part (fun h => .whole (.block h)) (fun _ _ _ _ _ _ => .pure' _)
    · exact .unexpected _ begins_statement
    · exact assignmentOrExpression_blames he (t :: us)

/-! ## Blocks -/

theorem nextStatement_blames {x : Parse Stmt} (hx : Exact x room Statement Finished)
    (ts : List Token) : Blames Statement [] (nextStatement x) ts := by
  unfold nextStatement
  cases ts with
  | nil =>
    refine .peek_nil (fun t ht => ?_)
    simp only [Token.isKeyword, Token.isEnd, ht]
    exact .unexpected _ begins_statement
  | cons t us =>
    refine .peek ?_
    split
    · exact .pure' _
    · split
      · exact .unexpected _ begins_statement
      · exact hx.part (fun h => .whole h) (fun _ _ _ _ _ _ => .pure' _)

theorem block_exact (room : Nat) : Exact (block room) room Body Anything := by
  induction room with
  | zero => exact ⟨block_reads 0, fun _ => .tooDeep⟩
  | succ room ih =>
    have hx := statement_exact ih (expression_exact room)
    have hz := isKeyword_wordToken .stopa
    refine ⟨block_reads (room + 1), fun ts => ?_⟩
    unfold block
    refine .expect (Token.inner_keyword .oca) (.start body_empty) (fun o us _ ho => ?_)
    refine (nextStatement_repeats hx.toReads).part (nextStatement_blames hx)
      (fun hss => .followed [wordToken .stopa] (.mk ho hss hz) (by simp))
      (fun ss vs mid rest k _ hss hstop => ?_)
    obtain ⟨rfl, hs⟩ := hstop
    refine ⟨[], rfl, ?_⟩
    cases mid with
    | nil => cases hs
    | cons s rest => exact .advance (.spanFrom (fun span => .pure' _))

end Bello.Parse
