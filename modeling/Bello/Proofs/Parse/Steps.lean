import Bello.Parse.Basic
import Bello.Proofs.Grammar.Fronts

/- Steps of reading, seen from the tokens that are left.

   A cursor holds trivia and places. What matters to a reader is the list of significant
   tokens before the end of the input, and `c.At ts` says that it is `ts` at the cursor `c`.
   `Runs x ts Q E` is the one judgement about readers: wherever `ts` is left, `x` either
   takes some tokens and yields a value so that `Q` holds of the value and the tokens left
   then, or it fails with an error of which `E` holds. A reader is followed step by step
   with the rules below, one for each kind of step. -/
namespace Bello

/-! ## Significant tokens -/

/-- The tokens before the first end that carry a meaning. -/
def Token.significant (ts : List Token) : List Token :=
  (ts.filter (!·.isTrivia)).takeWhile (!·.isEnd)

namespace Cursor

/-- The significant tokens that are left. -/
def remaining (c : Cursor) : List Token := Token.significant c.pending

/-- The tokens that are left are `ts`, and the closing token closes them. -/
structure At (c : Cursor) (ts : List Token) : Prop where
  final : c.final.isEnd = true
  remaining : c.remaining = ts

theorem filter_dropWhile_trivia : ∀ ts : List Token,
    (ts.dropWhile Token.isTrivia).filter (!·.isTrivia) = ts.filter (!·.isTrivia)
  | [] => rfl
  | t :: ts => by
    cases ht : t.isTrivia with
    | true => simp [List.dropWhile, ht, filter_dropWhile_trivia ts]
    | false => simp [List.dropWhile, ht]

/-- Trivia before the next token make no difference. -/
theorem remaining_eq (c : Cursor) : c.remaining = Token.significant c.upcoming := by
  rw [remaining, upcoming, Token.significant, Token.significant, filter_dropWhile_trivia]

theorem not_isTrivia_of_upcoming {c : Cursor} {t : Token} {rest : List Token}
    (h : c.upcoming = t :: rest) : t.isTrivia = false := by
  have := List.head?_dropWhile_not Token.isTrivia c.pending
  rw [show c.pending.dropWhile Token.isTrivia = t :: rest from h] at this
  simpa using this

/-- Where a token is left, it is the next one. -/
theorem At.upcoming {c : Cursor} {t : Token} {ts : List Token} (h : c.At (t :: ts)) :
    ∃ rest, c.upcoming = t :: rest ∧ t.isEnd = false ∧ Token.significant rest = ts := by
  have hr := h.remaining
  rw [remaining_eq] at hr
  cases hu : c.upcoming with
  | nil => rw [hu] at hr; cases hr
  | cons t' rest =>
    have ht := not_isTrivia_of_upcoming hu
    rw [hu] at hr
    simp only [Token.significant, List.filter_cons, ht, Bool.not_false, if_true,
      List.takeWhile_cons] at hr
    cases he : t'.isEnd with
    | true => simp [he] at hr
    | false =>
      simp only [he, Bool.not_false, if_true, List.cons.injEq] at hr
      obtain ⟨rfl, hr⟩ := hr
      exact ⟨rest, rfl, he, hr⟩

theorem At.peek {c : Cursor} {t : Token} {ts : List Token} (h : c.At (t :: ts)) :
    c.peek = t := by
  obtain ⟨rest, hu, -, -⟩ := h.upcoming
  simp [Cursor.peek, hu]

theorem At.not_isEnd {c : Cursor} {t : Token} {ts : List Token} (h : c.At (t :: ts)) :
    t.isEnd = false := by
  obtain ⟨rest, -, he, -⟩ := h.upcoming
  exact he

/-- Where nothing is left, the next token is an end. -/
theorem At.peek_nil {c : Cursor} (h : c.At []) : c.peek.isEnd = true := by
  have hr := h.remaining
  rw [remaining_eq] at hr
  cases hu : c.upcoming with
  | nil => simp [Cursor.peek, hu, h.final]
  | cons t rest =>
    have ht := not_isTrivia_of_upcoming hu
    rw [hu] at hr
    cases he : t.isEnd with
    | true => simp [Cursor.peek, hu, he]
    | false => simp [Token.significant, ht, he] at hr

theorem At.advance {c : Cursor} {t : Token} {ts : List Token} (h : c.At (t :: ts)) :
    c.advance.1 = t ∧ c.advance.2.At ts := by
  obtain ⟨rest, hu, -, hr⟩ := h.upcoming
  simp only [Cursor.advance, hu, true_and]
  exact ⟨h.final, hr⟩

theorem At.peekSecond {c : Cursor} {t : Token} {ts : List Token} (h : c.At (t :: ts)) :
    c.peekSecond = c.advance.2.peek := by
  obtain ⟨rest, hu, -, -⟩ := h.upcoming
  simp only [Cursor.peekSecond, Cursor.advance, hu]
  rfl

theorem At.length_le {c : Cursor} {ts : List Token} (h : c.At ts) :
    ts.length ≤ c.pending.length := by
  rw [← h.remaining]
  exact Nat.le_trans (List.takeWhile_sublist _).length_le (List.length_filter_le _ _)

/-- A closing token that the sequence has of its own makes no difference. -/
theorem significant_concat_end (ts : List Token) {last : Token} (h : last.isEnd = true) :
    Token.significant (ts ++ [last]) = Token.significant ts := by
  simp only [Token.significant, List.filter_append, List.takeWhile_append]
  -- The last token is trivia or an end, so it adds nothing.
  have hlast : ([last].filter (!·.isTrivia)).takeWhile (!·.isEnd) = [] := by
    cases ht : last.isTrivia <;> simp [ht, h]
  rw [hlast, List.append_nil]
  split
  · next hlen => exact ((List.takeWhile_sublist _).eq_of_length hlen).symm
  · rfl

/-- Without an end among the tokens only trivia are left out. -/
theorem significant_of_inner {ts : List Token} (h : ∀ t ∈ ts, t.isEnd = false) :
    Token.significant ts = ts.filter (!·.isTrivia) := by
  have hinner : ∀ t ∈ ts.filter (!·.isTrivia), (!t.isEnd) = true := by
    intro t ht
    rw [h t (List.mem_filter.1 ht).1]
    rfl
  rw [Token.significant, ← List.append_nil (ts.filter _), List.takeWhile_append_of_pos hinner,
    List.takeWhile_nil]

theorem ofTokens_at (tokens : List Token) (stop : Nat) :
    (ofTokens tokens stop).At (Token.significant tokens) := by
  unfold ofTokens
  split
  · next last hlast =>
    obtain ⟨init, rfl⟩ := List.getLast?_eq_some_iff.1 hlast
    split
    · next hend =>
      refine ⟨hend, ?_⟩
      rw [significant_concat_end init hend, List.dropLast_concat]
      rfl
    · exact ⟨rfl, rfl⟩
  · next hnone =>
    rw [List.getLast?_eq_none_iff.1 hnone]
    exact ⟨rfl, rfl⟩

end Cursor

namespace Token

theorem kind_of_isEnd {t : Token} (h : t.isEnd = true) : t.kind = .endOfInput := by
  simpa [isEnd] using h

/-- No end of the input satisfies `p`. -/
def Inner (p : Token → Bool) : Prop := ∀ t : Token, t.kind = .endOfInput → p t = false

theorem inner_keyword (word : Keyword) : Inner (·.isKeyword word) := by
  intro t h; simp [isKeyword, h]

theorem inner_operator (word : Operator) : Inner (·.isOperator word) := by
  intro t h; simp [isOperator, h]

theorem inner_delimiter (text : String) : Inner (·.isDelimiter text) := by
  intro t h; simp [isDelimiter, h]

theorem inner_identifier : Inner (·.kind == .identifier) := by
  intro t h; simp [h]

theorem inner_name (name : String) : Inner (·.isIdentifier name) := by
  intro t h; simp [isIdentifier, h]

end Token

namespace Parse

open Grammar

variable {α β : Type}

/-- Wherever `ts` is left, the reader yields a value and leaves tokens that satisfy `Q`, or
    fails with an error that satisfies `E`. -/
def Runs (x : Parse α) (ts : List Token) (Q : α → List Token → Prop) (E : Error → Prop) :
    Prop :=
  ∀ c : Cursor, c.At ts →
    (∃ a c' rest, x c = .ok a c' ∧ c'.At rest ∧ Q a rest) ∨ (∃ e c', x c = .error e c' ∧ E e)

/-- What follows is chosen with the token still there. -/
theorem accept_bind (p : Token → Bool) (f : Bool → Parse β) :
    accept p >>= f = peek >>= fun t => if p t then advance >>= fun _ => f true else f false := by
  simp only [accept, bind_assoc]
  congr 1
  funext t
  cases p t with
  | true => simp only [if_true, bind_assoc, pure_bind]
  | false => simp only [Bool.false_eq_true, if_false, pure_bind]

namespace Runs

variable {x : Parse α} {f : α → Parse β} {ts : List Token} {t : Token}
  {P : α → List Token → Prop} {Q : β → List Token → Prop} {E : Error → Prop}

theorem pure' {b : β} (h : Q b ts) : Runs (pure b) ts Q E :=
  fun c hc => .inl ⟨b, c, ts, rfl, hc, h⟩

theorem bind' (hx : Runs x ts P E) (hf : ∀ a rest, P a rest → Runs (f a) rest Q E) :
    Runs (x >>= f) ts Q E := by
  intro c hc
  show (∃ b c' rest, EStateM.bind x f c = .ok b c' ∧ c'.At rest ∧ Q b rest) ∨
    ∃ e c', EStateM.bind x f c = .error e c' ∧ E e
  rcases hx c hc with ⟨a, c', rest, e, hc', hP⟩ | ⟨s, c', e, hE⟩
  · simp only [EStateM.bind, e]
    exact hf a rest hP c' hc'
  · simp only [EStateM.bind, e]
    exact .inr ⟨s, c', rfl, hE⟩

theorem mono {P' : α → List Token → Prop} {E' : Error → Prop} (hx : Runs x ts P E)
    (hP : ∀ a rest, P a rest → P' a rest) (hE : ∀ e, E e → E' e) : Runs x ts P' E' := by
  intro c hc
  rcases hx c hc with ⟨a, c', rest, e, hc', h⟩ | ⟨s, c', e, h⟩
  · exact .inl ⟨a, c', rest, e, hc', hP a rest h⟩
  · exact .inr ⟨s, c', e, hE s h⟩

/-- A reader that does not fail fails with no bad error. -/
theorem of_total (hx : Runs x ts P (fun _ => False)) : Runs x ts P E :=
  hx.mono (fun _ _ h => h) (fun _ => False.elim)

/-! ## Looking and taking -/

theorem peek {f : Token → Parse β} (h : Runs (f t) (t :: ts) Q E) :
    Runs (Parse.peek >>= f) (t :: ts) Q E := by
  intro c hc
  have := h c hc
  rw [← hc.peek] at this
  exact this

/-- What is left are no ends. -/
theorem of_not_isEnd (h : t.isEnd = false → Runs x (t :: ts) P E) : Runs x (t :: ts) P E :=
  fun c hc => h hc.not_isEnd c hc

/-- Where nothing is left, all that is known of the next token is that it is an end. -/
theorem peek_nil {f : Token → Parse β} (h : ∀ t, t.kind = .endOfInput → Runs (f t) [] Q E) :
    Runs (Parse.peek >>= f) [] Q E :=
  fun c hc => h c.peek (Token.kind_of_isEnd hc.peek_nil) c hc

theorem advance {f : Token → Parse β} (h : Runs (f t) ts Q E) :
    Runs (Parse.advance >>= f) (t :: ts) Q E := by
  intro c hc
  obtain ⟨ht, hc'⟩ := hc.advance
  have := h c.advance.2 hc'
  rw [← ht] at this
  exact this

/-- Spans are whatever they are. -/
theorem spanFrom {start : Span} {f : Span → Parse β} (h : ∀ s, Runs (f s) ts Q E) :
    Runs (Parse.spanFrom start >>= f) ts Q E := fun c hc => h _ c hc

/-- A choice by the next token, which stays where it is. -/
theorem ifPeek {p : Token → Bool} {x y : Parse β} (hp : Token.Inner p)
    (hyes : ∀ t us, ts = t :: us → p t = true → Runs x (t :: us) Q E)
    (hno : Token.leads p ts = false → Runs y ts Q E) :
    Runs (Parse.peek >>= fun t => if p t then x else y) ts Q E := by
  cases ts with
  | nil =>
    refine peek_nil (fun t ht => ?_)
    rw [hp t ht]
    exact hno rfl
  | cons t us =>
    refine peek ?_
    cases h : p t with
    | true => exact hyes t us rfl h
    | false => exact hno h

theorem accept {p : Token → Bool} {f : Bool → Parse β} (hp : Token.Inner p)
    (hyes : ∀ t us, ts = t :: us → p t = true → Runs (f true) us Q E)
    (hno : Token.leads p ts = false → Runs (f false) ts Q E) :
    Runs (Parse.accept p >>= f) ts Q E := by
  rw [accept_bind]
  refine ifPeek hp ?_ hno
  rintro t us rfl ht
  exact advance (hyes t us rfl ht)

theorem accept_true {p : Token → Bool} {f : Bool → Parse β} (hp : Token.Inner p)
    (ht : p t = true) (h : Runs (f true) ts Q E) : Runs (Parse.accept p >>= f) (t :: ts) Q E := by
  refine accept hp ?_ (fun hl => ?_)
  · rintro t' us ⟨⟩ -; exact h
  · rw [Token.leads, ht] at hl; cases hl

theorem accept_false {p : Token → Bool} {f : Bool → Parse β} (hp : Token.Inner p)
    (hts : Token.leads p ts = false) (h : Runs (f false) ts Q E) :
    Runs (Parse.accept p >>= f) ts Q E := by
  refine accept hp ?_ (fun _ => h)
  rintro t us rfl ht
  rw [Token.leads, ht] at hts
  cases hts

theorem expect {p : Token → Bool} {what : String} {f : Token → Parse β} (ht : p t = true)
    (h : Runs (f t) ts Q E) : Runs (Parse.expect p what >>= f) (t :: ts) Q E := by
  simp only [Parse.expect, bind_assoc]
  refine peek ?_
  simp only [ht, if_true]
  exact advance h

theorem expectIdent {what : String} {f : Ident → Parse β} (ht : t.kind = .identifier)
    (h : Runs (f ⟨t.lexeme, t.span⟩) ts Q E) :
    Runs (Parse.expectIdent what >>= f) (t :: ts) Q E := by
  simp only [Parse.expectIdent, bind_assoc]
  refine expect (by simp [ht]) ?_
  simpa only [pure_bind] using h

theorem expectStatementEnd {f : Unit → Parse β} (ht : t.isKeyword .naidu = true)
    (h : Runs (f ()) ts Q E) : Runs (Parse.expectStatementEnd >>= f) (t :: ts) Q E := by
  simp only [Parse.expectStatementEnd, bind_assoc]
  refine expect ht ?_
  simpa only [pure_bind] using h

theorem expectTypeTag {f : Unit → Parse β} (ht : t.isIdentifier typeTag = true)
    (h : Runs (f ()) ts Q E) : Runs (Parse.expectTypeTag >>= f) (t :: ts) Q E := by
  simp only [Token.isIdentifier, Bool.and_eq_true, beq_iff_eq] at ht
  simp only [Parse.expectTypeTag, bind_assoc]
  refine peek ?_
  simp only [ht.1, ht.2, if_true, bind_assoc]
  refine advance ?_
  simpa only [pure_bind] using h

theorem numberValue {v : Decimal} {f : Decimal → Parse β}
    (ht : Decimal.ofPlain? t.lexeme = some v) (h : Runs (f v) ts Q E) :
    Runs (Parse.numberValue t >>= f) ts Q E := by
  simp only [Parse.numberValue, ht]
  exact h

theorem tooDeep (h : ∀ s, E (Cause.at (.nestingTooDeep maxNesting) s)) :
    Runs (Parse.tooDeep : Parse β) ts Q E :=
  fun c _ => .inr ⟨_, c, rfl, h c.peek.span⟩

end Runs

/-! ## When any error will do -/

/-- Nothing is said about the error. -/
def Anyhow (_ : Error) : Prop := True

namespace Runs

variable {ts : List Token} {Q : β → List Token → Prop}

/-- After a failure nothing more is read. -/
theorem stop_bind {x : Parse α} {f : α → Parse β} (hx : Runs x ts (fun _ _ => False) Anyhow) :
    Runs (x >>= f) ts Q Anyhow := bind' hx (fun _ _ => False.elim)

theorem fail_sound (cause : Cause) (span : Span) :
    Runs (Parse.fail cause span : Parse β) ts Q Anyhow :=
  fun c _ => .inr ⟨_, c, rfl, trivial⟩

theorem tooDeep_sound : Runs (Parse.tooDeep : Parse β) ts Q Anyhow := tooDeep (fun _ => trivial)

theorem unexpected_sound (what : String) :
    Runs (Parse.unexpected what : Parse β) ts Q Anyhow := by
  have hpeek : ∀ {f : Token → Parse β}, (∀ t, Runs (f t) ts Q Anyhow) →
      Runs (Parse.peek >>= f) ts Q Anyhow := fun h c hc => h c.peek c hc
  unfold Parse.unexpected
  refine hpeek (fun t => ?_)
  split <;> exact fail_sound _ _

theorem numberValue_sound {t : Token} {f : Decimal → Parse β}
    (h : ∀ v, Decimal.ofPlain? t.lexeme = some v → Runs (f v) ts Q Anyhow) :
    Runs (Parse.numberValue t >>= f) ts Q Anyhow := by
  cases hv : Decimal.ofPlain? t.lexeme with
  | some v => exact numberValue hv (h v hv)
  | none =>
    simp only [Parse.numberValue, hv]
    exact stop_bind (fail_sound _ _)

theorem expect_sound {p : Token → Bool} {what : String} {f : Token → Parse β}
    (hp : Token.Inner p)
    (h : ∀ t us, ts = t :: us → p t = true → Runs (f t) us Q Anyhow) :
    Runs (Parse.expect p what >>= f) ts Q Anyhow := by
  cases ts with
  | nil =>
    simp only [Parse.expect, bind_assoc]
    refine peek_nil (fun t ht => ?_)
    simp only [hp t ht, Bool.false_eq_true, if_false]
    exact stop_bind (unexpected_sound what)
  | cons t us =>
    cases ht : p t with
    | true => exact expect ht (h t us rfl ht)
    | false =>
      simp only [Parse.expect, bind_assoc]
      refine peek ?_
      simp only [ht, Bool.false_eq_true, if_false]
      exact stop_bind (unexpected_sound what)

theorem expectIdent_sound {what : String} {f : Ident → Parse β}
    (h : ∀ t us, ts = t :: us → t.kind = .identifier →
      Runs (f ⟨t.lexeme, t.span⟩) us Q Anyhow) :
    Runs (Parse.expectIdent what >>= f) ts Q Anyhow := by
  simp only [Parse.expectIdent, bind_assoc]
  refine expect_sound Token.inner_identifier (fun t us hts ht => ?_)
  simpa only [pure_bind] using h t us hts (by simpa using ht)

theorem expectStatementEnd_sound {f : Unit → Parse β}
    (h : ∀ t us, ts = t :: us → t.isKeyword .naidu = true → Runs (f ()) us Q Anyhow) :
    Runs (Parse.expectStatementEnd >>= f) ts Q Anyhow := by
  simp only [Parse.expectStatementEnd, bind_assoc]
  refine expect_sound (Token.inner_keyword .naidu) (fun t us hts ht => ?_)
  simpa only [pure_bind] using h t us hts ht

theorem expectTypeTag_sound {f : Unit → Parse β}
    (h : ∀ t us, ts = t :: us → t.isIdentifier typeTag = true → Runs (f ()) us Q Anyhow) :
    Runs (Parse.expectTypeTag >>= f) ts Q Anyhow := by
  cases ts with
  | nil =>
    simp only [Parse.expectTypeTag, bind_assoc]
    refine peek_nil (fun t ht => ?_)
    simp only [ht, reduceCtorEq, if_false]
    exact stop_bind (unexpected_sound _)
  | cons t us =>
    by_cases hk : t.kind = .identifier
    · by_cases hl : t.lexeme = typeTag
      · have ht : t.isIdentifier typeTag = true := by simp [Token.isIdentifier, hk, hl]
        exact expectTypeTag ht (h t us rfl ht)
      · simp only [Parse.expectTypeTag, bind_assoc]
        refine peek ?_
        simp only [hk, hl, if_true, if_false]
        exact stop_bind (fail_sound _ _)
    · simp only [Parse.expectTypeTag, bind_assoc]
      refine peek ?_
      simp only [hk, if_false]
      exact stop_bind (unexpected_sound _)

end Runs

/-! ## Readers of a rule -/

/-- The room is too small for the nesting, and that is the error. -/
def Late (room k : Nat) (e : Error) : Prop :=
  room < k ∧ e.cause = .nestingTooDeep maxNesting

theorem Late.mono {room k room' k' : Nat} {e : Error} (h : Late room k e)
    (hlt : room < k → room' < k') : Late room' k' e := ⟨hlt h.1, h.2⟩

/-- From `ts`, a phrase of the rule was taken that nests no deeper than the room. -/
abbrev Took [Spanned α] (room : Nat) (L : Rule α) (ts : List Token) (a : α)
    (rest : List Token) : Prop :=
  ∃ used k, ts = used ++ rest ∧ k ≤ room ∧ L used (bare a) k

/-- What was taken is `a`, which nests `k` deep, and `rest` is left. -/
abbrev Got [Spanned α] (room k : Nat) (a : α) (rest : List Token) (a' : α)
    (rest' : List Token) : Prop :=
  k ≤ room ∧ rest' = rest ∧ bare a' = a

/-- The reader reads phrases of the rule that nest no deeper than the room. What it
    takes is always such a phrase. Where tokens start with a phrase of the rule and
    what follows them ends it, the reader takes that phrase, or says that it nests too
    deep. -/
structure Reads [Spanned α] (x : Parse α) (room : Nat) (L : Rule α)
    (Ends : List Token → Prop) : Prop where
  sound : ∀ ts, Runs x ts (Took room L ts) Anyhow
  complete : ∀ used a k rest, L used a k → Ends rest →
    Runs x (used ++ rest) (Got room k a rest) (Late room k)

namespace Reads

variable [Spanned α] {x : Parse α} {room : Nat} {L : Rule α} {Ends : List Token → Prop}
  {f : α → Parse β} {ts : List Token} {Q : β → List Token → Prop}

theorem sound_bind (hx : Reads x room L Ends)
    (hf : ∀ a used rest k, ts = used ++ rest → k ≤ room → L used (bare a) k →
      Runs (f a) rest Q Anyhow) :
    Runs (x >>= f) ts Q Anyhow := by
  refine .bind' (hx.sound ts) ?_
  rintro a rest ⟨used, k, hts, hk, ha⟩
  exact hf a used rest k hts hk ha

/-- `K` is how deep the whole nests of which the phrase is a part. -/
theorem complete_bind {used rest : List Token} {a : α} {k K : Nat} (hx : Reads x room L Ends)
    (ha : L used a k) (hrest : Ends rest) (hk : k ≤ K)
    (hf : ∀ a', k ≤ room → bare a' = a → Runs (f a') rest Q (Late room K)) :
    Runs (x >>= f) (used ++ rest) Q (Late room K) := by
  have hmono := (hx.complete used a k rest ha hrest).mono (fun _ _ h => h)
    (fun e he => he.mono (fun hlt => Nat.lt_of_lt_of_le hlt hk))
  refine .bind' hmono ?_
  rintro a' _ ⟨hroom, rfl, ha'⟩
  exact hf a' hroom ha'

theorem of_iff {L' : Rule α} (hx : Reads x room L Ends)
    (h : ∀ {ts a k}, L' ts a k ↔ L ts a k) : Reads x room L' Ends where
  sound ts := by
    refine (hx.sound ts).mono ?_ (fun _ he => he)
    rintro a rest ⟨used, k, hts, hk, ha⟩
    exact ⟨used, k, hts, hk, h.2 ha⟩
  complete used a k rest ha := hx.complete used a k rest (h.1 ha)

end Reads

/-- The phrases of a rule, one level down. -/
def Deeper (L : Rule α) : Rule α := fun ts a k => ∃ k', k = k' + 1 ∧ L ts a k'

theorem Reads.deeper [Spanned α] {x : Parse α} {room : Nat} {L : Rule α}
    {Ends : List Token → Prop} (hx : Reads x room L Ends) : Reads x (room + 1) (Deeper L) Ends where
  sound ts := by
    refine (hx.sound ts).mono ?_ (fun _ he => he)
    rintro a rest ⟨used, k, hts, hk, ha⟩
    exact ⟨used, k + 1, hts, by omega, k, rfl, ha⟩
  complete := by
    rintro used a _ rest ⟨k, rfl, ha⟩ hrest
    refine (hx.complete used a k rest ha hrest).mono ?_ ?_
    · rintro a' rest' ⟨hk, hr, ha'⟩
      exact ⟨by omega, hr, ha'⟩
    · exact fun e he => he.mono (by omega)

/-- Where there is no room, nothing lies a level down. -/
theorem tooDeep_reads [Spanned α] (L : Rule α) (Ends : List Token → Prop) :
    Reads tooDeep 0 (Deeper L) Ends where
  sound _ := .tooDeep_sound
  complete := by
    rintro used a _ rest ⟨k, rfl, -⟩ -
    exact .tooDeep (fun s => ⟨Nat.succ_pos k, rfl⟩)

/-! ## Repetition -/

/-- The step reads one more phrase of the rule, or nothing where `Stop` says so and with
    the tokens left that it says. A phrase ends the one before it. -/
structure Repeats [Spanned α] (step : Parse (Option α)) (room : Nat) (L : Rule α)
    (Ends : List Token → Prop) (Stop : List Token → List Token → Prop) : Prop where
  nonempty : ∀ {ts a k}, L ts a k → ts ≠ []
  ends : ∀ {ts a k}, L ts a k → ∀ rest, Ends (ts ++ rest)
  sound : ∀ ts, Runs step ts
    (fun o rest => match o with
      | some a => Took room L ts a rest
      | none => Stop ts rest) Anyhow
  complete : ∀ used a k rest, L used a k → Ends rest → Runs step (used ++ rest)
    (fun o rest' => k ≤ room ∧ rest' = rest ∧ ∃ a', o = some a' ∧ bare a' = a) (Late room k)
  stop : ∀ ts rest, Stop ts rest →
    Ends ts ∧ Runs step ts (fun o rest' => o = none ∧ rest' = rest) (fun _ => False)

namespace Repeats

variable [Spanned α] {step : Parse (Option α)} {room : Nat} {L : Rule α}
  {Ends : List Token → Prop} {Stop : List Token → List Token → Prop}

theorem length_le (h : Repeats step room L Ends Stop) {used : List Token} {as : List α} {k : Nat}
    (hs : Sequence L used as k) : as.length ≤ used.length := by
  induction hs with
  | nil => exact Nat.le_refl 0
  | cons ha _ ih =>
    have := List.length_pos_iff.2 (h.nonempty ha)
    rw [List.length_append, List.length_cons]
    omega

/-- Whatever comes before is over where a repetition begins. -/
theorem ends_sequence (h : Repeats step room L Ends Stop) {used mid rest : List Token}
    {as : List α} {k : Nat} (hs : Sequence L used as k) (hstop : Stop mid rest) :
    Ends (used ++ mid) := by
  cases hs with
  | nil => exact (h.stop mid rest hstop).1
  | cons ha _ => rw [List.append_assoc]; exact h.ends ha _

/-- Each round takes a token, so the bound is never reached. -/
theorem repeatUpTo_sound (h : Repeats step room L Ends Stop) :
    ∀ (bound : Nat) (done : List α) (ts : List Token), ts.length < bound →
    Runs (repeatUpTo step bound done) ts
      (fun all rest => ∃ as used mid k, all = done.reverse ++ as ∧ ts = used ++ mid ∧
        k ≤ room ∧ Sequence L used (bare as) k ∧ Stop mid rest) Anyhow
  | 0, _, _, hlt => absurd hlt (Nat.not_lt_zero _)
  | bound + 1, done, ts, hlt => by
    simp only [repeatUpTo]
    refine .bind' (h.sound ts) (fun o rest ho => ?_)
    cases o with
    | none => exact .pure' ⟨[], [], ts, 0, by simp, rfl, Nat.zero_le _, .nil, ho⟩
    | some a =>
      obtain ⟨used, k, rfl, hk, ha⟩ := ho
      have hpos := List.length_pos_iff.2 (h.nonempty ha)
      rw [List.length_append] at hlt
      refine (h.repeatUpTo_sound bound (a :: done) rest (by omega)).mono ?_ (fun _ he => he)
      rintro all rest' ⟨as, used', mid, k', rfl, rfl, hk', hs, hstop⟩
      exact ⟨a :: as, used ++ used', mid, max k k', by simp, by simp, by omega, .cons ha hs,
        hstop⟩

theorem repeatUpTo_complete (h : Repeats step room L Ends Stop) {mid rest : List Token}
    (hstop : Stop mid rest) {used : List Token} {as : List α} {k : Nat}
    (hs : Sequence L used as k) :
    ∀ (bound : Nat) (done : List α), as.length < bound →
    Runs (repeatUpTo step bound done) (used ++ mid)
      (fun all rest' => k ≤ room ∧ rest' = rest ∧ ∃ as', all = done.reverse ++ as' ∧
        bare as' = as) (Late room k) := by
  induction hs with
  | nil =>
    rintro (_ | bound) done hlt
    · exact absurd hlt (Nat.not_lt_zero _)
    simp only [repeatUpTo, List.nil_append]
    refine .bind' (h.stop mid rest hstop).2.of_total ?_
    rintro _ _ ⟨rfl, rfl⟩
    exact .pure' ⟨Nat.zero_le _, rfl, [], by simp, rfl⟩
  | @cons ts us a as k k' ha hs ih =>
    rintro (_ | bound) done hlt
    · exact absurd hlt (Nat.not_lt_zero _)
    simp only [repeatUpTo, List.append_assoc]
    -- The phrase is ended by the next one, or by what stops the repetition.
    have hone := h.complete ts a k (us ++ mid) ha (h.ends_sequence hs hstop)
    refine .bind' (hone.mono (fun _ _ ho => ho) (fun e he => he.mono (by omega))) ?_
    rintro _ _ ⟨hk, rfl, a', rfl, ha'⟩
    refine (ih bound (a' :: done) (by simpa using hlt)).mono ?_ ?_
    · rintro all _ ⟨hk', rfl, as', rfl, has⟩
      exact ⟨by omega, rfl, a' :: as', by simp, by rw [← ha', ← has]; rfl⟩
    · exact fun e he => he.mono (by omega)

theorem many_sound (h : Repeats step room L Ends Stop) (ts : List Token) :
    Runs (many step) ts (fun as rest => ∃ used mid k, ts = used ++ mid ∧ k ≤ room ∧
      Sequence L used (bare as) k ∧ Stop mid rest) Anyhow := by
  intro c hc
  -- The bound of the repetition is what is pending at the cursor, with trivia and all.
  have hlt : ts.length < c.pending.length + 1 := Nat.lt_succ_of_le hc.length_le
  refine (h.repeatUpTo_sound _ [] ts hlt).mono ?_ (fun _ he => he) c hc
  rintro all rest ⟨as, used, mid, k, rfl, hts, hk, hs, hstop⟩
  exact ⟨used, mid, k, hts, hk, hs, hstop⟩

theorem sound_bind (h : Repeats step room L Ends Stop) {f : List α → Parse β} {ts : List Token}
    {Q : β → List Token → Prop}
    (hf : ∀ as used mid rest k, ts = used ++ mid → k ≤ room → Sequence L used (bare as) k →
      Stop mid rest → Runs (f as) rest Q Anyhow) :
    Runs (many step >>= f) ts Q Anyhow := by
  refine .bind' (h.many_sound ts) ?_
  rintro as rest ⟨used, mid, k, hts, hk, hs, hstop⟩
  exact hf as used mid rest k hts hk hs hstop

theorem complete_bind (h : Repeats step room L Ends Stop) {f : List α → Parse β}
    {used mid rest : List Token} {as : List α} {k K : Nat} {Q : β → List Token → Prop}
    (hs : Sequence L used as k) (hstop : Stop mid rest) (hk : k ≤ K)
    (hf : ∀ as', k ≤ room → bare as' = as → Runs (f as') rest Q (Late room K)) :
    Runs (many step >>= f) (used ++ mid) Q (Late room K) := by
  refine .bind' (P := Got room k as rest) (fun c hc => ?_) ?_
  · have hle := hc.length_le
    have hlen := h.length_le hs
    rw [List.length_append] at hle
    refine (h.repeatUpTo_complete hstop hs (c.pending.length + 1) [] (by omega)).mono ?_ ?_ c hc
    · rintro all rest' ⟨hroom, hrest, as', rfl, has⟩
      exact ⟨hroom, hrest, has⟩
    · exact fun e he => he.mono (fun hlt => Nat.lt_of_lt_of_le hlt hk)
  · rintro as' _ ⟨hroom, rfl, has⟩
    exact hf as' hroom has

end Repeats

end Parse

end Bello
