import Bello.Proofs.Parse.Statement

/- Programs are read as the grammar says, and the grammar says one thing.

   The reader of programs is complete in any room: a derivation is found, or it nests too
   deep. So two derivations from the same tokens give one tree, the one that is read when
   there is room for both. -/
namespace Bello.Parse

open Grammar

variable {room : Nat} {us rest : List Token}

/-! ## Constants -/

theorem constantDecl_sound (room : Nat) {d : Token} (hd : d.isKeyword .trusela = true) :
    Runs constantDecl (d :: us) (Took room Constant (d :: us)) Anyhow := by
  unfold constantDecl
  refine .advance (.expectIdent_sound ?_)
  rintro n us rfl hn
  refine .expectTypeTag_sound ?_
  rintro p us rfl hp
  cases us with
  | nil =>
    refine .peek_nil (fun t ht => ?_)
    simp only [ht, reduceCtorEq, if_false]
    exact .stop_bind (.unexpected_sound _)
  | cons t us =>
    refine .peek ?_
    simp only [pure_bind]
    have hend : ∀ v, Value t v → Runs (do
        expectStatementEnd
        pure ⟨⟨n.lexeme, n.span⟩, v, ← spanFrom d.span⟩ : Parse ConstantDecl)
        us (Took room Constant (d :: n :: p :: t :: us)) Anyhow := by
      intro v hv
      refine .expectStatementEnd_sound ?_
      rintro z us rfl hz
      refine .spanFrom (fun s => .pure' ?_)
      exact ⟨[d, n, p, t, z], 0, rfl, Nat.zero_le _, .mk hd hn hp hv hz⟩
    split
    · next hk => exact .advance (.numberValue_sound (fun v hv => hend _ (.number hk hv)))
    · split
      · next hk hc => exact .advance (hend _ (.named hk hc))
      · exact .stop_bind (.unexpected_sound _)

theorem constantDecl_complete {d n p t z : Token} {v : ConstantValue} (hn : n.kind = .identifier)
    (hp : p.isIdentifier typeTag = true) (hv : Value t v) (hz : z.isKeyword .naidu = true) :
    Runs constantDecl (d :: n :: p :: t :: z :: rest)
      (Got room 0 ⟨nameOf n, v, .blank⟩ rest) (Late room 0) := by
  unfold constantDecl
  refine .advance (.expectIdent hn (.expectTypeTag hp (.peek ?_)))
  simp only [pure_bind]
  cases hv with
  | number hk hd =>
    simp only [hk, if_true]
    refine .advance (.numberValue hd (.expectStatementEnd hz ?_))
    exact .spanFrom (fun s => .pure' ⟨Nat.zero_le _, rfl, rfl⟩)
  | named hk hc =>
    simp only [hk, hc, reduceCtorEq, if_false]
    refine .advance (.expectStatementEnd hz ?_)
    exact .spanFrom (fun s => .pure' ⟨Nat.zero_le _, rfl, rfl⟩)

/-! ## Functions -/

theorem nextParameter_repeats (room : Nat) : Repeats nextParameter room NextParameter Anything
    (fun mid rest => mid = rest ∧ Token.leads (·.isDelimiter ",") mid = false) where
  nonempty := by rintro _ _ _ ⟨⟩; simp
  ends _ _ := trivial
  sound ts := by
    unfold nextParameter
    refine .accept (Token.inner_delimiter ",") ?_ (fun hno => .pure' ⟨rfl, hno⟩)
    rintro t us rfl ht
    refine .expectIdent_sound ?_
    rintro n us rfl hn
    exact .pure' ⟨[t, n], 0, rfl, Nat.zero_le _, .mk ht hn⟩
  complete := by
    rintro _ _ _ rest ⟨ht, hn⟩ -
    unfold nextParameter
    refine .accept_true (Token.inner_delimiter ",") ht (.expectIdent hn ?_)
    exact .pure' ⟨Nat.zero_le _, rfl, _, rfl, rfl⟩
  stop := by
    rintro mid _ ⟨rfl, hno⟩
    refine ⟨trivial, ?_⟩
    unfold nextParameter
    exact .accept_false (Token.inner_delimiter ",") hno (.pure' ⟨rfl, rfl⟩)

theorem parameters_reads (room : Nat) : Reads parameters room Parameters
    (fun rest => Token.leads (·.isDelimiter ")") rest = true) where
  sound ts := by
    unfold parameters
    refine .ifPeek (Token.inner_delimiter ")") ?_ (fun _ => ?_)
    · rintro t us rfl ht
      exact .pure' ⟨[], 0, rfl, Nat.zero_le _, .none⟩
    · refine .expectIdent_sound ?_
      rintro n us rfl hn
      refine (nextParameter_repeats room).sound_bind ?_
      rintro names used mid rest k rfl hk hnames ⟨rfl, -⟩
      exact .pure' ⟨n :: used, k, rfl, hk, .some hn hnames⟩
  complete := by
    intro used names k rest h hrest
    unfold parameters
    cases h with
    | none =>
      refine .ifPeek (Token.inner_delimiter ")") (fun t us hts ht => ?_) (fun hno => ?_)
      · exact .pure' ⟨Nat.zero_le _, hts.symm, rfl⟩
      · rw [List.nil_append, hrest] at hno
        cases hno
    | @some n ts names k hn hnames =>
      have hcomma : Token.leads (·.isDelimiter ",") rest = false := by
        cases rest with
        | nil => rfl
        | cons r rest =>
          show r.isDelimiter "," = false
          simp [Token.isDelimiter, Token.isDelimiter_iff.1 hrest]
      refine .peek ?_
      simp only [Token.isDelimiter, hn]
      refine .expectIdent hn ?_
      refine (nextParameter_repeats room).complete_bind hnames ⟨rfl, hcomma⟩ (Nat.le_refl k) ?_
      intro names' hk hnames'
      refine .pure' ⟨hk, rfl, ?_⟩
      rw [← hnames']
      rfl

theorem function_sound {d : Token} (hd : d.isKeyword .boss = true) :
    Runs (function room) (d :: us) (Took room Definition (d :: us)) Anyhow := by
  unfold function
  refine .advance (.expectIdent_sound ?_)
  rintro n us rfl hn
  refine .expectTypeTag_sound ?_
  rintro p us rfl hp
  refine .expect_sound (Token.inner_delimiter "(") ?_
  rintro l us rfl hl
  refine (parameters_reads room).sound_bind ?_
  rintro params used _ k rfl hk hparams
  refine .expect_sound (Token.inner_delimiter ")") ?_
  rintro r us rfl hr
  refine (block_reads room).sound_bind ?_
  rintro body used' rest k' rfl hk' hbody
  refine .spanFrom (fun s => .pure' ?_)
  exact ⟨d :: n :: p :: l :: (used ++ r :: used'), max k k', by simp, by omega,
    .mk hd hn hp hl hparams hr hbody⟩

theorem function_complete {d n p l r : Token} {ts us : List Token} {params : List Ident}
    {body : Block} {k k' : Nat} (hn : n.kind = .identifier) (hp : p.isIdentifier typeTag = true)
    (hl : l.isDelimiter "(" = true) (hparams : Parameters ts params k)
    (hr : r.isDelimiter ")" = true) (hbody : Body us body k') :
    Runs (function room) (d :: n :: p :: l :: (ts ++ r :: (us ++ rest)))
      (Got room (max k k') ⟨nameOf n, params, body, .blank⟩ rest) (Late room (max k k')) := by
  unfold function
  refine .advance (.expectIdent hn (.expectTypeTag hp (.expect hl ?_)))
  refine (parameters_reads room).complete_bind hparams hr (by omega) (fun ps hk hps => ?_)
  refine .expect hr ?_
  refine (block_reads room).complete_bind hbody trivial (by omega) (fun b hk' hb => ?_)
  refine .spanFrom (fun s => .pure' ⟨by omega, rfl, ?_⟩)
  rw [← hps, ← hb]
  rfl

/-! ## Items -/

theorem item_sound (ts : List Token) : Runs (item room) ts (Took room TopLevel ts) Anyhow := by
  have hstatement : Runs (do
      let s ← statement (block room) (expression room)
      pure (.statement s) : Parse Item) ts (Took room TopLevel ts) Anyhow := by
    refine (statement_reads (block_reads room) (expression_reads room)).sound_bind ?_
    rintro s used rest k hts hk hs
    exact .pure' ⟨used, k, hts, hk, .statement hs⟩
  unfold item
  cases ts with
  | nil =>
    refine .peek_nil (fun t ht => ?_)
    simp only [Token.inner_keyword _ t ht]
    exact hstatement
  | cons t us =>
    refine .peek ?_
    split
    · next ht =>
      refine .bind' (constantDecl_sound room ht) ?_
      rintro decl rest ⟨used, k, hts, hk, hdecl⟩
      exact .pure' ⟨used, k, hts, hk, .constant hdecl⟩
    · split
      · next ht =>
        refine .bind' (function_sound ht) ?_
        rintro f rest ⟨used, k, hts, hk, hf⟩
        exact .pure' ⟨used, k, hts, hk, .function hf⟩
      · exact hstatement

theorem item_complete {used rest : List Token} {i : Item} {k : Nat} (h : TopLevel used i k)
    (hrest : Finished rest) :
    Runs (item room) (used ++ rest) (Got room k i rest) (Late room k) := by
  have hstatement := statement_reads (block_reads room) (expression_reads room)
  unfold item
  cases h with
  | constant h =>
    cases h with
    | mk hd hn hp hv hz =>
      refine .peek ?_
      simp only [hd, if_true]
      refine .bind' (constantDecl_complete hn hp hv hz) ?_
      rintro decl _ ⟨hk, rfl, hdecl⟩
      refine .pure' ⟨hk, rfl, ?_⟩
      rw [← hdecl]
      rfl
  | function h =>
    cases h with
    | @mk d n p l r ts us params body k k' hd hn hp hl hparams hr hbody =>
      have hno : d.isKeyword .trusela = false := by
        simp [Token.isKeyword, Token.isKeyword_iff.1 hd]
      simp only [List.cons_append, List.append_assoc]
      refine .peek ?_
      simp only [hno, hd, Bool.false_eq_true, if_false, if_true]
      refine .bind' (function_complete hn hp hl hparams hr hbody) ?_
      rintro f _ ⟨hk, rfl, hf⟩
      refine .pure' ⟨hk, rfl, ?_⟩
      rw [← hf]
      rfl
  | statement h =>
    obtain ⟨t, us, rfl, ht⟩ := h.front
    refine .peek ?_
    simp only [opensStatement_keyword ht .trusela (by decide),
      opensStatement_keyword ht .boss (by decide), Bool.false_eq_true, if_false]
    refine hstatement.complete_bind h hrest (Nat.le_refl k) (fun s hk hs => ?_)
    refine .pure' ⟨hk, rfl, ?_⟩
    rw [← hs]
    rfl

/-! ## Programs -/

theorem nextItem_repeats (room : Nat) :
    Repeats (nextItem room) room TopLevel Finished (fun mid rest => mid = [] ∧ rest = []) where
  nonempty h := by
    obtain ⟨t, us, rfl, -⟩ := h.front
    exact List.cons_ne_nil t us
  ends h rest := by
    obtain ⟨t, us, rfl, ht⟩ := h.front
    exact ht
  sound ts := by
    unfold nextItem
    cases ts with
    | nil =>
      refine .peek_nil (fun t ht => ?_)
      rw [if_pos (by simp [Token.isEnd, ht])]
      exact .pure' ⟨rfl, rfl⟩
    | cons t us =>
      refine .of_not_isEnd (fun hend => .peek ?_)
      simp only [hend, Bool.false_eq_true, if_false]
      refine .bind' (item_sound (t :: us)) ?_
      rintro i rest ⟨used, k, hts, hk, hi⟩
      exact .pure' ⟨used, k, hts, hk, hi⟩
  complete := by
    intro used i k rest h hrest
    obtain ⟨t, us, rfl, -⟩ := h.front
    unfold nextItem
    refine .of_not_isEnd (fun hend => .peek ?_)
    simp only [hend, Bool.false_eq_true, if_false]
    refine .bind' (item_complete h hrest) ?_
    rintro i' _ ⟨hk, rfl, hi⟩
    exact .pure' ⟨hk, rfl, i', rfl, hi⟩
  stop := by
    rintro _ _ ⟨rfl, rfl⟩
    refine ⟨rfl, ?_⟩
    unfold nextItem
    refine .peek_nil (fun t ht => ?_)
    rw [if_pos (by simp [Token.isEnd, ht])]
    exact .pure' ⟨rfl, rfl⟩

theorem programWithin_sound (room : Nat) (ts : List Token) :
    Runs (programWithin room) ts (fun p _ => ∃ k, Derives ts (bare p) k ∧ k ≤ room) Anyhow := by
  unfold programWithin
  refine .expect_sound (Token.inner_keyword .bello) ?_
  rintro g us rfl hg
  refine (nextItem_repeats room).sound_bind ?_
  rintro items used mid rest k rfl hk hitems ⟨rfl, rfl⟩
  rw [List.append_nil]
  exact .pure' ⟨k, .mk hg hitems, hk⟩

theorem programWithin_complete (room : Nat) {ts : List Token} {p : Program} {k : Nat}
    (h : Derives ts p k) :
    Runs (programWithin room) ts (fun p' _ => k ≤ room ∧ bare p' = p) (Late room k) := by
  unfold programWithin
  cases h with
  | @mk g ts items k hg hitems =>
    refine .expect hg ?_
    rw [← List.append_nil ts]
    refine (nextItem_repeats room).complete_bind hitems ⟨rfl, rfl⟩ (Nat.le_refl k) ?_
    intro items' hk hitems'
    refine .pure' ⟨hk, ?_⟩
    rw [← hitems']
    rfl

/-! ## The grammar and the reader -/

/-- In the room that one derivation needs, the reader finds its tree; so the other one needs
    no more, and its tree is the same. -/
theorem derives_agree {c : Cursor} {ts : List Token} (hc : c.At ts) {p q : Program} {k l : Nat}
    (hp : Derives ts p k) (hq : Derives ts q l) : l ≤ k ∧ p = q := by
  rcases programWithin_complete k hp c hc with ⟨p', c', _, e, -, -, hp'⟩ | ⟨_, _, -, hlt, -⟩
  · rcases programWithin_complete k hq c hc with ⟨q', _, _, e', -, hl, hq'⟩ | ⟨_, _, e', -⟩
    · rw [e] at e'
      cases e'
      exact ⟨hl, hp'.symm.trans hq'⟩
    · rw [e] at e'
      cases e'
  · exact absurd hlt (Nat.lt_irrefl k)

/-- The reader of programs accepts exactly what the grammar derives and nests no deeper than
    the limit, and builds the tree of the derivation; what nests deeper is refused for that
    reason. No tokens derive two trees, or one tree with two nestings. -/
theorem program_iff_derives (tokens : List Token) (stop : Nat) :
    let ts := Token.significant tokens
    let result := program (.ofTokens tokens stop)
    (∀ p, (∃ p' c, result = .ok p' c ∧ bare p' = p) ↔ ∃ k, Derives ts p k ∧ k ≤ maxNesting) ∧
    (∀ p k, Derives ts p k → maxNesting < k →
      ∃ e c, result = .error e c ∧ e.cause = .nestingTooDeep maxNesting) ∧
    (∀ p q k l, Derives ts p k → Derives ts q l → p = q ∧ k = l) := by
  intro ts result
  have hc := Cursor.ofTokens_at tokens stop
  refine ⟨fun p => ⟨?_, ?_⟩, ?_, ?_⟩
  · rintro ⟨p', c, e, rfl⟩
    rcases programWithin_sound maxNesting ts _ hc with ⟨_, _, _, e', -, h⟩ | ⟨_, _, e', -⟩
    · cases e.symm.trans e'
      exact h
    · cases e.symm.trans e'
  · rintro ⟨k, h, hk⟩
    rcases programWithin_complete maxNesting h _ hc with ⟨p', c, _, e, -, -, hp⟩ | ⟨_, _, -, hlt, -⟩
    · exact ⟨p', c, e, hp⟩
    · omega
  · intro p k h hlt
    rcases programWithin_complete maxNesting h _ hc with ⟨_, _, _, -, -, hk, -⟩ | ⟨e, c, e', -, he⟩
    · omega
    · exact ⟨e, c, e', he⟩
  · intro p q k l hp hq
    obtain ⟨hlk, hpq⟩ := derives_agree hc hp hq
    obtain ⟨hkl, -⟩ := derives_agree hc hq hp
    exact ⟨hpq, Nat.le_antisymm hkl hlk⟩

/-! ## Blocks in blocks -/

/-- A keyword as a token. -/
def wordToken (word : Keyword) : Token := ⟨.keyword word, word.spelling, .blank⟩

/-- Empty blocks, one inside the other. -/
def blockTokens : Nat → List Token
  | 0 => []
  | n + 1 => wordToken .oca :: (blockTokens n ++ [wordToken .stopa])

def blockTree : Nat → List Stmt
  | 0 => []
  | n + 1 => [.block (.mk (blockTree n) .blank)]

theorem blockTokens_derive (n : Nat) : Sequence Statement (blockTokens n) (blockTree n) n := by
  induction n with
  | zero => exact .nil
  | succ n ih =>
    have h : Statement (blockTokens (n + 1)) (.block (.mk (blockTree n) .blank)) (n + 1) :=
      .block (.mk (by decide) ih (by decide))
    simpa [blockTree] using Sequence.cons h .nil

theorem derives_blockTokens (n : Nat) :
    Derives (wordToken .bello :: blockTokens n) ⟨(blockTree n).map .statement⟩ n := by
  have hitems : ∀ {ts ss k}, Sequence Statement ts ss k →
      Sequence TopLevel ts (ss.map .statement) k := by
    intro ts ss k h
    induction h with
    | nil => exact .nil
    | cons hs _ ih => exact .cons (.statement hs) ih
  exact .mk (by decide) (hitems (blockTokens_derive n))

theorem mem_blockTokens : ∀ {n : Nat} {t : Token}, t ∈ blockTokens n → ∃ word, t = wordToken word
  | n + 1, t, h => by
    simp only [blockTokens, List.mem_cons, List.mem_append, List.not_mem_nil, or_false] at h
    rcases h with rfl | h | rfl
    · exact ⟨_, rfl⟩
    · exact mem_blockTokens h
    · exact ⟨_, rfl⟩

theorem significant_words : ∀ {ts : List Token}, (∀ t ∈ ts, ∃ word, t = wordToken word) →
    Token.significant ts = ts
  | [], _ => rfl
  | t :: ts, h => by
    obtain ⟨word, rfl⟩ := h t List.mem_cons_self
    show wordToken word :: Token.significant ts = wordToken word :: ts
    rw [significant_words (fun t ht => h t (List.mem_cons_of_mem _ ht))]

/-- Blocks nest up to the limit and no deeper. -/
theorem program_iff_derives_blocks :
    (∃ p c, program (.ofTokens (wordToken .bello :: blockTokens 100) 0) = .ok p c ∧
      bare p = ⟨(blockTree 100).map .statement⟩) ∧
    (∃ e c, program (.ofTokens (wordToken .bello :: blockTokens 101) 0) = .error e c ∧
      e.cause = .nestingTooDeep maxNesting) := by
  have hderives : ∀ n, Derives (Token.significant (wordToken .bello :: blockTokens n))
      ⟨(blockTree n).map .statement⟩ n := by
    intro n
    rw [significant_words]
    · exact derives_blockTokens n
    · rintro t (_ | ⟨_, ht⟩)
      · exact ⟨_, rfl⟩
      · exact mem_blockTokens ht
  refine ⟨?_, ?_⟩
  · exact ((program_iff_derives _ 0).1 _).2 ⟨100, hderives 100, by decide⟩
  · exact (program_iff_derives _ 0).2.1 _ 101 (hderives 101) (by decide)

end Bello.Parse
