import Bello.Proofs.Blame.Statement

/- A program is refused for its first wrong token.

   Two things come together here. Readers fail only after tokens that can be continued and
   look no further than they have to, which the rules for steps say of each of them. And
   programs that can be read are read. So the token at which the reader fails is wrong: with
   tokens after it that make a program, the reader would have failed all the same. -/
namespace Bello.Parse

open Grammar

variable {room : Nat}

/-! ## Constants and functions -/

/-- The shortest of the constants that have a name. -/
def aConstant : Token := .ofName "belloe"

theorem value_aConstant : Value aConstant (.named .e) := .named rfl (by decide)

theorem constantDecl_blames {d : Token} (hd : d.isKeyword .trusela = true) (ts : List Token) :
    Blames Constant [] constantDecl (d :: ts) := by
  have hz := isKeyword_wordToken .naidu
  unfold constantDecl
  refine .advance (.expectIdent ?_ (fun n us _ hn => ?_))
  · exact .followed [aName, theTag, aConstant, wordToken .naidu]
      (.mk hd kind_aName isIdentifier_theTag value_aConstant hz) (by simp)
  refine .expectTypeTag ?_ (fun p us _ hp => ?_)
  · exact .followed [theTag, aConstant, wordToken .naidu]
      (.mk hd hn isIdentifier_theTag value_aConstant hz) (by simp)
  have hvalue : Begins Constant [d, n, p] :=
    .followed [aConstant, wordToken .naidu] (.mk hd hn hp value_aConstant hz) (by simp)
  have hend : ∀ {t v} (us : List Token), Value t v → Blames Constant [d, n, p, t] (do
      expectStatementEnd
      pure ⟨⟨n.lexeme, n.span⟩, v, ← spanFrom d.span⟩ : Parse ConstantDecl) us := by
    intro t v us hv
    refine .expectStatementEnd ?_ (fun z _ _ _ => .spanFrom (fun s => .pure' _))
    exact .followed [wordToken .naidu] (.mk hd hn hp hv hz) (by simp)
  cases us with
  | nil =>
    refine .peek_nil (fun t ht => ?_)
    simp only [ht, reduceCtorEq, if_false]
    exact .unexpected_bind _ hvalue
  | cons t us =>
    refine .peek ?_
    simp only [pure_bind]
    split
    · next hk => exact .number hvalue hk (fun v hv => hend us (.number hk hv))
    · split
      · next hk hc => exact .advance (hend us (.named hk hc))
      · exact .unexpected_bind _ hvalue

theorem nextParameter_blames (ts : List Token) : Blames NextParameter [] nextParameter ts := by
  unfold nextParameter
  refine .accept (Token.inner_delimiter ",") (fun t us _ ht => ?_) (.pure' _)
  exact .expectIdent (.followed [aName] (.mk ht kind_aName) (by simp)) (fun n _ _ _ => .pure' _)

theorem parameters_exact (room : Nat) : Exact parameters room Parameters
    (fun rest => Token.leads (·.isDelimiter ")") rest = true) := by
  refine ⟨parameters_reads room, fun ts => ?_⟩
  unfold parameters
  refine .ifPeek (Token.inner_delimiter ")") (fun _ _ _ _ => .pure' _) ?_
  refine .expectIdent (.whole .none) (fun n us _ hn => ?_)
  refine (nextParameter_repeats room).part nextParameter_blames
    (fun hnames => .whole (.some hn hnames)) (fun names vs mid rest k _ _ hstop => ?_)
  obtain ⟨rfl, -⟩ := hstop
  exact ⟨[], rfl, .pure' _⟩

theorem function_blames {d : Token} (hd : d.isKeyword .boss = true) (ts : List Token) :
    Blames Definition [] (function room) (d :: ts) := by
  have hopen := isDelimiter_ofDelimiter "("
  have hclose := isDelimiter_ofDelimiter ")"
  have hparams : ∀ {n p l : Token} {us params k}, n.kind = .identifier →
      p.isIdentifier typeTag = true → l.isDelimiter "(" = true → Parameters us params k →
      Begins Definition (d :: n :: p :: l :: us) := by
    intro n p l us params k hn hp hl h
    exact .followed (.ofDelimiter ")" :: emptyBody) (.mk hd hn hp hl h hclose body_empty) (by simp)
  unfold function
  refine .advance (.expectIdent ?_ (fun n us _ hn => ?_))
  · exact .shorter [aName, theTag, .ofDelimiter "("]
      (hparams kind_aName isIdentifier_theTag hopen .none) (by simp)
  refine .expectTypeTag ?_ (fun p us _ hp => ?_)
  · exact .shorter [theTag, .ofDelimiter "("] (hparams hn isIdentifier_theTag hopen .none) (by simp)
  refine .expect (Token.inner_delimiter "(") ?_ (fun l us _ hl => ?_)
  · exact .shorter [.ofDelimiter "("] (hparams hn hp hopen .none) (by simp)
  refine (parameters_exact room).part (hparams hn hp hl) (fun params us rest k _ hps => ?_)
  refine .expect (Token.inner_delimiter ")") (hparams hn hp hl hps) (fun r vs _ hr => ?_)
  refine (block_exact room).part (fun hbody => ?_)
    (fun _ _ _ _ _ _ => .spanFrom (fun s => .pure' _))
  exact .followed [] (.mk hd hn hp hl hps hr hbody) (by simp)

/-! ## Items and programs -/

theorem item_blames (ts : List Token) : Blames TopLevel [] (item room) ts := by
  have hstatement : ∀ us, Blames TopLevel [] (do
      let s ← statement (block room) (expression room)
      pure (.statement s) : Parse Item) us := by
    intro us
    exact (statement_exact (block_exact room) (expression_exact room)).part
      (fun hs => .whole (.statement hs)) (fun _ _ _ _ _ _ => .pure' _)
  unfold item
  cases ts with
  | nil =>
    refine .peek_nil (fun t ht => ?_)
    simp only [Token.inner_keyword _ t ht]
    exact hstatement []
  | cons t us =>
    refine .peek ?_
    split
    · next ht =>
      refine .bind' ((constantDecl_blames ht us).lift (fun h => .whole (.constant h)))
        (constantDecl_sound room ht) (fun _ _ _ _ _ => .pure' _)
    · split
      · next ht =>
        refine .bind' ((function_blames ht us).lift (fun h => .whole (.function h)))
          (function_sound ht) (fun _ _ _ _ _ => .pure' _)
      · exact hstatement (t :: us)

theorem nextItem_blames (ts : List Token) : Blames TopLevel [] (nextItem room) ts := by
  have hitem : ∀ us, Blames TopLevel [] (do
      let i ← item room
      pure (some i) : Parse (Option Item)) us :=
    fun us => .bind' (item_blames us) (item_sound us) (fun _ _ _ _ _ => .pure' _)
  unfold nextItem
  cases ts with
  | nil =>
    refine .peek_nil (fun t ht => ?_)
    split
    · exact .pure' _
    · exact hitem []
  | cons t us =>
    refine .peek ?_
    split
    · exact .pure' _
    · exact hitem (t :: us)

theorem programWithin_blames (room : Nat) (ts : List Token) :
    Blames Derives [] (programWithin room) ts := by
  have hstart : Derives [wordToken .bello] ⟨[]⟩ 0 := .mk (isKeyword_wordToken .bello) .nil
  unfold programWithin
  refine .expect (Token.inner_keyword .bello) (.start hstart) (fun g us _ hg => ?_)
  refine (nextItem_repeats room).part nextItem_blames (fun hitems => .whole (.mk hg hitems))
    (fun items vs mid rest k _ _ hstop => ?_)
  obtain ⟨rfl, rfl⟩ := hstop
  exact ⟨[], rfl, .pure' _⟩

end Bello.Parse

namespace Bello

/-! ## Sequences of tokens -/

namespace Cursor

variable {c c' : Cursor} {j m : Nat}

theorem getElem?_ahead (h : j ≤ c.remaining.length) :
    (c.remaining ++ [c.final])[j]? = some (c.ahead j) := by
  rcases Nat.lt_or_eq_of_le h with hlt | rfl
  · simp [ahead, List.getElem?_append_left hlt, List.getElem?_eq_getElem hlt]
  · simp [ahead]

/-- Behind the closing token there is nothing to compare. -/
theorem Shares.of_take (hc : c.Tidy) (hc' : c'.Tidy) (hstop : c'.previousStop = c.previousStop)
    (h : (c'.remaining ++ [c'.final]).take m = (c.remaining ++ [c.final]).take m) :
    c.Shares m c' := by
  refine ⟨hc, hc', hstop, fun j hj => ?_⟩
  have hget : (c'.remaining ++ [c'.final])[j]? = (c.remaining ++ [c.final])[j]? := by
    rw [← List.getElem?_take_of_lt hj, h, List.getElem?_take_of_lt hj]
  have hlen := congrArg List.length h
  simp only [List.length_take, List.length_append, List.length_singleton] at hlen
  rcases Nat.lt_or_ge c.remaining.length j with hlt | hge
  · -- Then the sequences are shorter than what is compared, so they are the same.
    rw [List.take_of_length_le (by simp; omega), List.take_of_length_le (by simp; omega)] at h
    have hfinal := congrArg List.getLast? h
    simp only [List.getLast?_concat, Option.some.injEq] at hfinal
    rw [ahead_of_le (by omega), ahead_of_le (by omega), hfinal]
  · rw [getElem?_ahead hge, getElem?_ahead (by omega)] at hget
    exact Option.some.inj hget

end Cursor

namespace Token

/-- What a reader of programs is given: tokens of which none but the last is an end, and the
    place where the end is put if there is none. -/
structure Input where
  tokens : List Token
  stop : Nat
  inner : ∀ t ∈ tokens.dropLast, t.isEnd = false

namespace Input

def cursor (i : Input) : Cursor := .ofTokens i.tokens i.stop

/-- The tokens that carry a meaning and the end after them. -/
def significant (i : Input) : List Token :=
  i.cursor.pending.filter (!·.isTrivia) ++ [i.cursor.final]

theorem tidy (i : Input) : i.cursor.Tidy := by
  unfold cursor Cursor.ofTokens
  split
  · next last hlast =>
    obtain ⟨init, hinit⟩ := List.getLast?_eq_some_iff.1 hlast
    split
    · next hend => exact ⟨i.inner, hend⟩
    · next hend =>
      refine ⟨fun t ht => ?_, rfl⟩
      have hinner := i.inner
      rw [hinit, List.dropLast_concat] at hinner
      rw [hinit] at ht
      rcases List.mem_append.1 ht with ht | ht
      · exact hinner t ht
      · rw [List.mem_singleton.1 ht]
        simpa using hend
  · exact ⟨List.forall_mem_nil _, rfl⟩

theorem previousStop_cursor (i : Input) : i.cursor.previousStop = 0 := by
  unfold cursor Cursor.ofTokens
  split
  · split <;> rfl
  · rfl

theorem significant_eq (i : Input) : i.significant = i.cursor.remaining ++ [i.cursor.final] := by
  rw [significant, Cursor.remaining, Cursor.significant_of_inner i.tidy.inner]

/-- Where the first tokens are the same, the cursors have them in common. -/
theorem shares {i i' : Input} {m : Nat} (h : i'.significant.take m = i.significant.take m) :
    i.cursor.Shares m i'.cursor := by
  rw [significant_eq, significant_eq] at h
  exact .of_take i.tidy i'.tidy (by rw [previousStop_cursor, previousStop_cursor]) h

end Input

end Token

namespace Parse

open Grammar

/-- The token at place `k` is the first wrong one of the sequence: what stands before it
    begins a program, and does not if the token is added; or the token is the end, and what
    stands before it is no program yet. -/
structure FirstWrong (ts : List Token) (k : Nat) (t : Token) : Prop where
  here : ts[k]? = some t
  begun : Begins Derives (ts.take k)
  broken : t.isEnd = false → ¬ Begins Derives (ts.take (k + 1))
  unfinished : t.isEnd = true → ∀ p d, ¬ Derives (ts.take k) p d

/-- What makes a program is not refused for a token. -/
theorem program_not_error {c d : Cursor} {ts : List Token} (hc : c.At ts) {p : Program} {k : Nat}
    (h : Derives ts p k) {e : Error} (he : e.isNesting = false) : program c ≠ .error e d := by
  intro hfail
  have := (programWithin_complete maxNesting h).isNesting hc hfail
  rw [he] at this
  cases this

/-- With other tokens behind it the token would be blamed all the same. -/
theorem not_begins {c : Cursor} (hc : c.Tidy) {e : Error} {i : Nat} (hn : e.isNesting = false)
    (again : ∀ c', c.Shares (i + e.reach) c' → ∃ d', program c' = .error e d')
    (hi : i < c.remaining.length) : ¬ Begins Derives (c.remaining.take (i + 1)) := by
  intro hbegins
  obtain ⟨more, p, k, h⟩ := hbegins
  have hshares : c.Shares (i + 1) (.upon (c.remaining.take (i + 1) ++ more) c.previousStop) := by
    refine ⟨hc, Cursor.tidy_upon h.meant, rfl, fun j hj => ?_⟩
    have hj' : j < (c.remaining.take (i + 1)).length := by
      rw [List.length_take]
      omega
    rw [Cursor.ahead, Cursor.remaining_upon h.meant, Cursor.ahead]
    simp [List.getElem?_append_left hj', List.getElem?_take_of_lt hj,
      List.getElem?_eq_getElem (Nat.lt_of_lt_of_le hj hi)]
  rw [Error.reach_other hn] at again
  obtain ⟨d', hd'⟩ := again _ hshares
  exact program_not_error (Cursor.at_upon h.meant) h hn hd'

/-- An error of reading a program points at a token. Unless there was no room, that token is
    the first wrong one, and whether it is an end or malformed is told by the error. Any
    other tokens that are the same up to the one after it are refused with the same error. -/
theorem program_fails_at_first_wrong (i : Token.Input) {e : Error} {c : Cursor}
    (h : program i.cursor = .error e c) :
    ∃ k t, i.significant[k]? = some t ∧ e.span = some t.span ∧
      (e.cause ≠ .nestingTooDeep maxNesting →
        FirstWrong i.significant k t ∧
        ((∃ what, e.cause = .unexpectedEnd what) ↔ t.isEnd = true) ∧
        ((∃ lexeme, e.cause = .malformedNumber lexeme) ↔ t.kind = .malformed)) ∧
      ∀ i' : Token.Input, i'.significant.take (k + 2) = i.significant.take (k + 2) →
        ∃ c', program i'.cursor = .error e c' := by
  have hc := i.tidy
  have hblames := programWithin_blames maxNesting _ i.cursor hc rfl
  rcases hblames.cases with ⟨a, j, hok, -⟩ | ⟨e', d, k, herr, le, points, begins, again⟩
  · cases h.symm.trans hok
  cases h.symm.trans herr
  have hget : i.significant[k]? = some (i.cursor.ahead k) := by
    rw [i.significant_eq]
    exact Cursor.getElem?_ahead le
  have htake : i.significant.take k = i.cursor.remaining.take k := by
    rw [i.significant_eq, List.take_append_of_le_length le]
  refine ⟨k, i.cursor.ahead k, hget, points.span, fun hcause => ?_, fun i' hi' => ?_⟩
  · have hn := points.isNesting hcause
    refine ⟨⟨hget, ?_, fun hend => ?_, fun hend p d => ?_⟩, points.unexpectedEnd_iff hn,
      points.malformedNumber_iff hn⟩
    · rw [htake]
      exact begins hn
    · have hlt := hc.lt_length hend
      rw [i.significant_eq, List.take_append_of_le_length hlt]
      exact not_begins hc hn again hlt
    · -- Nothing is left at the end, so all tokens would be a program.
      intro hderives
      rw [htake, hc.take_of_isEnd hend] at hderives
      exact program_not_error hc.here hderives hn herr
  · have hreach := Nat.add_le_add_left e.reach_le_two k
    exact again i'.cursor ((Token.Input.shares hi').mono hreach)

/-- A greeting and the word that ends a statement. -/
def stray : Token.Input :=
  ⟨[wordToken .bello, wordToken .naidu], 0, List.forall_mem_singleton.2 rfl⟩

/-- The word can only end a statement, and none has begun. -/
theorem program_fails_at_first_wrong_stray :
    ∃ e c, program stray.cursor = .error e c ∧
      e.cause = .unexpectedToken "expression" (.keyword .naidu) "naidu!" ∧
      ∃ k t, FirstWrong stray.significant k t ∧ e.span = some t.span := by
  have hfails : ∃ e c, program stray.cursor = .error e c ∧
      e.cause = .unexpectedToken "expression" (.keyword .naidu) "naidu!" := ⟨_, _, rfl, rfl⟩
  obtain ⟨e, c, h, hcause⟩ := hfails
  obtain ⟨k, t, -, hspan, hwrong, -⟩ := program_fails_at_first_wrong stray h
  refine ⟨e, c, h, hcause, k, t, (hwrong ?_).1, hspan⟩
  rw [hcause]
  simp

end Parse

end Bello
