import Bello.Proofs.Nesting.Agreement

/- A reader can be used again, whatever came of its last use.

   Two things could be left over from one query and spoil the next: the count of levels,
   and the place where the last token ended, from which spans are built. The count is back at
   zero because what is asked for from outside is clean (`Counts True`). The place is not
   looked at before a token has been taken: `Afresh x` says that the reader `x` starts by
   taking one or fails, so from cursors that have the same tokens left it does the same.
   Whatever comes after such a start is then the same too, which is why only the first step
   of an expression and of a program matters here. -/
namespace Bello

/-! ## Cursors with the same tokens left -/

namespace Cursor

/-- The tokens that are left, with the closing one. -/
def tokens (c : Cursor) : List Token := c.pending ++ [c.final]

/-- The same tokens are left. -/
structure Twin (c d : Cursor) : Prop where
  pending : c.pending = d.pending
  final : c.final = d.final

variable {c d : Cursor}

namespace Twin

theorem upcoming (h : c.Twin d) : c.upcoming = d.upcoming := by
  unfold Cursor.upcoming
  rw [h.pending]

theorem peek (h : c.Twin d) : c.peek = d.peek := by
  unfold Cursor.peek
  rw [h.upcoming, h.final]

theorem tokens (h : c.Twin d) : c.tokens = d.tokens := by
  unfold Cursor.tokens
  rw [h.pending, h.final]

/-- Once a token is taken, both are at one place. -/
theorem advance (h : c.Twin d) (hc : c.Closed) (hend : c.peek.isEnd = false) :
    c.advance = d.advance := by
  unfold Cursor.advance
  rw [← h.upcoming]
  cases hu : c.upcoming with
  | nil =>
    have hfinal : c.peek = c.final := by simp [Cursor.peek, hu]
    rw [hfinal, hc] at hend
    cases hend
  | cons t rest => simp [h.final]

end Twin

theorem ofTokens_closed (tokens : List Token) (stop : Nat) : (ofTokens tokens stop).Closed :=
  (ofTokens_at tokens stop).final

/-- A new cursor over the tokens that are left. -/
theorem ofTokens_twin (h : c.Closed) (stop : Nat) : c.Twin (ofTokens c.tokens stop) := by
  have hnew : ofTokens c.tokens stop = ⟨c.pending, c.final, 0⟩ := by
    unfold ofTokens tokens
    rw [List.getLast?_concat, List.dropLast_concat]
    exact if_pos h
  rw [hnew]
  exact ⟨rfl, rfl⟩

end Cursor

namespace Parse

open Cursor

variable {α β : Type}

/-- The same value at the same cursor, or the same error with the same tokens left. -/
inductive Met : EStateM.Result Error Cursor α → EStateM.Result Error Cursor α → Prop where
  | ok (a : α) (c : Cursor) : Met (.ok a c) (.ok a c)
  | error (e : Error) {c d : Cursor} : c.Twin d → Met (.error e c) (.error e d)

theorem Met.refl (r : EStateM.Result Error Cursor α) : Met r r := by
  cases r with
  | ok a c => exact .ok a c
  | error e c => exact .error e ⟨rfl, rfl⟩

/-- The reader ends alike from both cursors. -/
def MeetsFrom (c d : Cursor) (x : Parse α) : Prop := Met (x c) (x d)

/-- Where the last token ended makes no difference to the reader. -/
def Afresh (x : Parse α) : Prop := ∀ c d : Cursor, c.Closed → c.Twin d → MeetsFrom c d x

namespace Afresh

/-- Whatever follows starts at one cursor. -/
theorem bind' {x : Parse α} (hx : Afresh x) (f : α → Parse β) : Afresh (x >>= f) := by
  intro c d hc h
  have hmet : Met (x c) (x d) := hx c d hc h
  show Met (EStateM.bind x f c) (EStateM.bind x f d)
  unfold EStateM.bind
  generalize x c = r at hmet ⊢
  generalize x d = r' at hmet ⊢
  cases hmet with
  | ok a c' => exact .refl _
  | error e h' => exact .error e h'

/-- The next token is the same, and the reader goes on from there. -/
theorem peek' {f : Token → Parse β}
    (hf : ∀ c d : Cursor, c.Closed → c.Twin d → MeetsFrom c d (f c.peek)) :
    Afresh (peek >>= f) := by
  intro c d hc h
  show Met (f c.peek c) (f d.peek d)
  rw [← h.peek]
  exact hf c d hc h

end Afresh

/-- A token that is there is taken from both. -/
theorem advance_meets {c d : Cursor} (hc : c.Closed) (h : c.Twin d) (hend : c.peek.isEnd = false)
    (f : Token → Parse β) : MeetsFrom c d (advance >>= f) := by
  show Met (f c.advance.1 c.advance.2) (f d.advance.1 d.advance.2)
  rw [h.advance hc hend]
  exact .refl _

theorem not_isEnd_of_kind {t : Token} {k : Token.Kind} (h : t.kind = k) (hk : k ≠ .endOfInput) :
    t.isEnd = false := by
  simp [Token.isEnd, h, hk]

theorem unexpected_afresh (what : String) : Afresh (unexpected what : Parse α) := by
  refine .peek' (fun c d _ h => ?_)
  split
  · exact .error _ h
  · exact .error _ h
  · exact .error _ h

theorem tooDeep_afresh : Afresh (tooDeep : Parse α) := .peek' (fun _ _ _ h => .error _ h)

theorem expect_afresh {p : Token → Bool} (hp : Token.Inner p) (what : String) :
    Afresh (expect p what) := by
  refine .peek' (fun c d hc h => ?_)
  by_cases ht : p c.peek = true
  · rw [if_pos ht]
    have hend : c.peek.isEnd = false := by
      cases he : c.peek.isEnd with
      | false => rfl
      | true =>
        rw [hp _ (Token.kind_of_isEnd he)] at ht
        cases ht
    exact advance_meets hc h hend pure
  · rw [if_neg ht]
    exact unexpected_afresh what c d hc h

/-! ## The start of an expression -/

theorem primary_afresh (nested : Parse Expr) : Afresh (primary nested) := by
  refine .peek' (fun c d hc h => ?_)
  have htake : ∀ {k : Token.Kind}, c.peek.kind = k → k ≠ .endOfInput → ∀ f : Token → Parse Expr,
      MeetsFrom c d (advance >>= f) :=
    fun hkind hk f => advance_meets hc h (not_isEnd_of_kind hkind hk) f
  split
  · next hkind => exact htake hkind (by simp) _
  · next hkind => exact htake hkind (by simp) _
  · next hkind => exact htake hkind (by simp) _
  · next hkind => exact htake hkind (by simp) _
  · next hkind => exact htake hkind (by simp) _
  · by_cases hp : c.peek.isDelimiter "(" = true
    · rw [if_pos hp]
      have hkind : c.peek.kind = .delimiter := (Token.isDelimiter_iff.1 hp).1
      exact htake hkind (by simp) _
    · rw [if_neg hp]
      exact unexpected_afresh _ c d hc h

theorem unaryOf_afresh {opOf : Token → Option UnaryOp} {plain : Parse Expr} (operand : Parse Expr)
    (hop : ∀ t : Token, t.isEnd = true → opOf t = none) (hp : Afresh plain) :
    Afresh (unaryOf opOf operand plain) := by
  refine .peek' (fun c d hc h => ?_)
  cases ho : opOf c.peek with
  | none => exact hp c d hc h
  | some op =>
    have hend : c.peek.isEnd = false := by
      cases he : c.peek.isEnd with
      | false => rfl
      | true =>
        rw [hop _ he] at ho
        cases ho
    exact advance_meets hc h hend _

section Tower

variable (nested : Nat → Parse Expr)

theorem power_afresh (room : Nat) : Afresh (power nested room) := by
  cases room with
  | zero => exact .bind' (primary_afresh _) _
  | succ room => exact .bind' (primary_afresh _) _

theorem signed_afresh (room : Nat) : Afresh (signed nested room) := by
  have hsign : ∀ t : Token, t.isEnd = true → signOf t = none := by
    intro t ht
    simp [signOf, Token.isOperator, Token.kind_of_isEnd ht]
  cases room with
  | zero => exact unaryOf_afresh _ hsign (power_afresh nested 0)
  | succ room => exact unaryOf_afresh _ hsign (power_afresh nested (room + 1))

theorem negation_afresh (room : Nat) : Afresh (negation nested room) := by
  have hnegation : ∀ t : Token, t.isEnd = true → negationOf t = none := by
    intro t ht
    simp [negationOf, Token.isOperator, Token.kind_of_isEnd ht]
  -- A chain starts with its first operand, so four chains start with a signed operand.
  have hequality : ∀ r, Afresh (equality nested r) := fun r =>
    .bind' (.bind' (.bind' (.bind' (signed_afresh nested r) _) _) _) _
  cases room with
  | zero => exact unaryOf_afresh _ hnegation (hequality 0)
  | succ room => exact unaryOf_afresh _ hnegation (hequality (room + 1))

end Tower

theorem expressionWithin_afresh (depth room : Nat) : Afresh (expressionWithin depth room) := by
  cases depth with
  | zero => exact tooDeep_afresh
  | succ depth =>
    cases room with
    | zero => exact tooDeep_afresh
    | succ room => exact .bind' (.bind' (negation_afresh _ room) _) _

end Parse

/-! ## Queries -/

/-- The value of a piece, or its error. -/
def answerOf {σ α : Type} (x : EStateM Error σ α) (s : σ) : Except Error α :=
  match x s with
  | .ok a _ => .ok a
  | .error e _ => .error e

/-- The state that a piece leaves behind, however it ends. -/
def stateAfter {σ α : Type} (x : EStateM Error σ α) (s : σ) : σ :=
  match x s with
  | .ok _ s' => s'
  | .error _ s' => s'

/-- What a reader can be asked for from outside. -/
inductive Reader.Query where
  | expression
  | standaloneExpression
  | program

namespace Reader.Query

open Parse (maxNesting)

/-- What a query is answered with, if it succeeds. -/
def Answer : Query → Type
  | expression | standaloneExpression => Expr
  | program => Program

/-- The answer of the readers that are told the room. -/
def read : (q : Query) → Parse q.Answer
  | expression => Parse.expression maxNesting
  | standaloneExpression => Parse.standaloneExpression
  | program => Parse.program

/-- The answer of the readers that count. -/
def count (bound : Nat) : (q : Query) → Counted q.Answer
  | expression => Counted.expression bound
  | standaloneExpression => Counted.standaloneExpression bound
  | program => Counted.program bound

/-- Both answer alike, and the count is zero again afterwards. -/
theorem count_eq_read {bound : Nat} (h : maxNesting ≤ bound) (q : Query) {c : Cursor}
    (hc : c.Closed) :
    answerOf (q.count bound) ⟨c, 0⟩ = answerOf q.read c ∧
      stateAfter (q.count bound) ⟨c, 0⟩ = ⟨stateAfter q.read c, 0⟩ ∧
      (stateAfter q.read c).Closed := by
  have hcounts : Counted.Counts True maxNesting (q.count bound) q.read := by
    cases q with
    | expression => exact Counted.expression_counts h
    | standaloneExpression => exact Counted.standaloneExpression_counts h
    | program => exact Counted.program_counts h
  have hmatch := hcounts c 0 hc (Nat.zero_add _)
  unfold answerOf stateAfter
  generalize q.count bound ⟨c, 0⟩ = r at hmatch ⊢
  generalize q.read c = r' at hmatch ⊢
  cases hmatch with
  | ok a hc' hback =>
    rw [hback trivial]
    exact ⟨rfl, rfl, hc'⟩
  | error e hc' hback =>
    rw [hback trivial]
    exact ⟨rfl, rfl, hc'⟩

/-- A sum that fails after its operator leaves the count a level up, and the expression
    around it puts it back. -/
example :
    let r : Reader := ⟨.ofSource "1 melomo", 0⟩
    (stateAfter (Counted.sum (Counted.expression 2) 2) r).level = 1 ∧
      (stateAfter (Counted.expression 2) r).level = 0 := by
  decide +kernel

/-- The answer depends on the tokens that are left and on nothing before them. -/
theorem read_eq_of_twin (q : Query) {c d : Cursor} (hc : c.Closed) (h : c.Twin d) :
    answerOf q.read c = answerOf q.read d ∧
      (stateAfter q.read c).tokens = (stateAfter q.read d).tokens := by
  have hafresh : Parse.Afresh q.read := by
    cases q with
    | expression => exact Parse.expressionWithin_afresh _ _
    | standaloneExpression => exact .bind' (Parse.expressionWithin_afresh _ _) _
    | program => exact .bind' (Parse.expect_afresh (Token.inner_keyword .bello) _) _
  have hmet : Parse.Met (q.read c) (q.read d) := hafresh c d hc h
  unfold answerOf stateAfter
  generalize q.read c = r at hmet ⊢
  generalize q.read d = r' at hmet ⊢
  cases hmet with
  | ok a c' => exact ⟨rfl, rfl⟩
  | error e h' => exact ⟨rfl, h'.tokens⟩

end Reader.Query

namespace Reader

open Parse (maxNesting)

/-- A reader at the start of some tokens. -/
def new (tokens : List Token) (stop : Nat) : Reader := ⟨.ofTokens tokens stop, 0⟩

/-- The reader after queries, however each of them ended. -/
def after (bound : Nat) : Reader → List Query → Reader
  | r, [] => r
  | r, q :: history => after bound (stateAfter (q.count bound) r) history

/-- Only the cursor moves from query to query. -/
theorem after_eq {bound : Nat} (h : maxNesting ≤ bound) : ∀ (history : List Query) {c : Cursor},
    c.Closed → ∃ d, after bound ⟨c, 0⟩ history = ⟨d, 0⟩ ∧ d.Closed ∧
      d = history.foldl (fun c q => stateAfter q.read c) c
  | [], c, hc => ⟨c, rfl, hc, rfl⟩
  | q :: history, c, hc => by
    obtain ⟨-, hstate, hclosed⟩ := q.count_eq_read h hc
    rw [after, hstate]
    exact after_eq h history hclosed

/-- **A reader can be used again after any outcome.** After any queries, with any successes
    and failures among them, the count of levels is zero, also after the next query; and the
    next query is answered as a new reader over the tokens that are left would answer it,
    with the same tokens left afterwards. The readers that are told the room give these
    answers too, at the same cursor. -/
theorem answers_as_new (tokens : List Token) (stop : Nat) (history : List Query) (q : Query)
    (bound : Nat) :
    let r := (new tokens stop).after (maxNesting + bound) history
    let next := q.count (maxNesting + bound)
    r.level = 0 ∧ (stateAfter next r).level = 0 ∧
    (∀ stop' : Nat, answerOf next r = answerOf next (new r.cursor.tokens stop') ∧
      (stateAfter next r).cursor.tokens =
        (stateAfter next (new r.cursor.tokens stop')).cursor.tokens) ∧
    r.cursor = history.foldl (fun c q => stateAfter q.read c) (.ofTokens tokens stop) ∧
    answerOf next r = answerOf q.read r.cursor ∧
    (stateAfter next r).cursor = stateAfter q.read r.cursor := by
  intro r next
  have hbound : maxNesting ≤ maxNesting + bound := Nat.le_add_right ..
  obtain ⟨c, hr, hc, hfold⟩ := after_eq hbound history (Cursor.ofTokens_closed tokens stop)
  have hr' : r = ⟨c, 0⟩ := hr
  obtain ⟨hanswer, hstate, -⟩ := q.count_eq_read hbound hc
  rw [hr']
  refine ⟨rfl, by rw [hstate], fun stop' => ?_, hfold, hanswer, by rw [hstate]⟩
  -- A new reader has the same tokens left, so the readers that are told the room agree.
  have hnew := Cursor.ofTokens_closed c.tokens stop'
  obtain ⟨hanswer', hstate', -⟩ := q.count_eq_read hbound hnew
  obtain ⟨hsame, htokens⟩ := q.read_eq_of_twin hc (Cursor.ofTokens_twin hc stop')
  constructor
  · calc answerOf next ⟨c, 0⟩ = answerOf q.read c := hanswer
      _ = answerOf q.read (.ofTokens c.tokens stop') := hsame
      _ = answerOf next (new c.tokens stop') := hanswer'.symm
  · calc (stateAfter next ⟨c, 0⟩).cursor.tokens = (stateAfter q.read c).tokens := by rw [hstate]
      _ = (stateAfter q.read (.ofTokens c.tokens stop')).tokens := htokens
      _ = (stateAfter next (new c.tokens stop')).cursor.tokens := by rw [new, hstate']

end Reader

end Bello
