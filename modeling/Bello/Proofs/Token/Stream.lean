import Bello.Proofs.Parse.Steps

/- Streams and cursors seen from outside.

   To whoever asks it, a stream of tokens is an index into the significant ones: it starts at
   zero, each token taken moves it one further, and it stays at the last token, which is the
   end. `answerAt s i` gives the answers at the index `i` of the list `s`. Two steps lead there.
   A stream is followed by a cursor (`TokenStream.Follows`): what it has ahead is the same but
   for trivia in front, and its search backwards ends where the cursor remembers. A cursor
   tracks an index (`Cursor.Tracks`): what it has ahead is the list from there on. Every query
   keeps both, and so every answer after every history is the one at the index
   (`saturating_stream`). -/
namespace Bello

/-- The significant tokens with an end behind them, which is added if the list has none. -/
def Token.closed (tokens : List Token) (stop : Nat) : List Token :=
  let ended := if tokens.getLast?.any (·.isEnd) then tokens else tokens ++ [.endOfInput stop]
  ended.filter (!·.isTrivia)

namespace Cursor

/-- What can be asked of a cursor. -/
inductive Query where
  | peek
  | peekSecond
  | advance
  | previousStop
  | isAtEnd
deriving DecidableEq

inductive Answer where
  | token (t : Token)
  | offset (n : Nat)
  | flag (yes : Bool)
deriving DecidableEq

/-- The answer to a query, and the cursor after it. -/
def ask (c : Cursor) : Query → Answer × Cursor
  | .peek => (.token c.peek, c)
  | .peekSecond => (.token c.peekSecond, c)
  | .advance => (.token c.advance.1, c.advance.2)
  | .previousStop => (.offset c.previousStop, c)
  | .isAtEnd => (.flag c.isAtEnd, c)

/-- The cursor after queries. -/
def after (c : Cursor) (history : List Query) : Cursor :=
  history.foldl (fun c q => (c.ask q).2) c

/-- The answer to a query at an index of a list of tokens. -/
def answerAt (s : List Token) (i : Nat) : Query → Option Answer
  | .peek | .advance => s[i]?.map .token
  | .peekSecond => s[min (i + 1) (s.length - 1)]?.map .token
  | .previousStop => if i = 0 then some (.offset 0) else s[i - 1]?.map (.offset ·.span.stop)
  | .isAtEnd => s[i]?.map (.flag ·.isEnd)

/-! ## Cursors at an index -/

/-- What is ahead of the cursor is the list from the index on, and what it remembers is the
    stop of the token before. -/
structure Tracks (s : List Token) (i : Nat) (c : Cursor) : Prop where
  ahead : c.pending.filter (!·.isTrivia) ++ [c.final] = s.drop i
  behind : some (Answer.offset c.previousStop) = answerAt s i .previousStop

variable {s : List Token} {i : Nat} {c : Cursor}

/-- Trivia before the next token are passed over, up to the closing token. -/
theorem head?_significant (ts : List Token) (final : Token) :
    (ts.filter (!·.isTrivia) ++ [final]).head? =
      some ((ts.dropWhile Token.isTrivia).head?.getD final) := by
  induction ts with
  | nil => rfl
  | cons t ts ih =>
    cases ht : t.isTrivia with
    | true => simpa [ht] using ih
    | false => simp [ht]

theorem Tracks.peek (h : Tracks s i c) : s[i]? = some c.peek := by
  rw [← List.head?_drop, ← h.ahead, head?_significant]
  rfl

/-- At the closing token, nothing else is ahead. -/
theorem Tracks.last (h : Tracks s i c) (hu : c.upcoming = []) : i + 1 = s.length := by
  have hfilter : c.pending.filter (!·.isTrivia) = [] := by
    rw [← filter_dropWhile_trivia]
    show c.upcoming.filter _ = []
    rw [hu]
    rfl
  have hlength := congrArg List.length h.ahead
  rw [hfilter, List.length_drop, List.nil_append, List.length_singleton] at hlength
  omega

/-- Before it, the list goes on behind the next token. -/
theorem Tracks.next (h : Tracks s i c) {t : Token} {rest : List Token}
    (hu : c.upcoming = t :: rest) :
    s[i]? = some t ∧ rest.filter (!·.isTrivia) ++ [c.final] = s.drop (i + 1) := by
  have ht : t.isTrivia = false := not_isTrivia_of_upcoming hu
  have hahead : c.upcoming.filter (!·.isTrivia) ++ [c.final] = s.drop i := by
    rw [← h.ahead, ← filter_dropWhile_trivia c.pending]
    rfl
  rw [hu, List.filter_cons_of_pos (by simp [ht]), List.cons_append] at hahead
  constructor
  · rw [← List.head?_drop, ← hahead]
    rfl
  · rw [← List.tail_drop, ← hahead]
    rfl

theorem Tracks.peekSecond (h : Tracks s i c) :
    s[min (i + 1) (s.length - 1)]? = some c.peekSecond := by
  unfold Cursor.peekSecond
  cases hu : c.upcoming with
  | nil =>
    have hlast := h.last hu
    have hpeek := h.peek
    rw [show min (i + 1) (s.length - 1) = i by omega, hpeek, Cursor.peek, hu]
    rfl
  | cons t rest =>
    obtain ⟨-, hrest⟩ := h.next hu
    have hlength := congrArg List.length hrest
    rw [List.length_append, List.length_singleton, List.length_drop] at hlength
    rw [show min (i + 1) (s.length - 1) = i + 1 by omega, ← List.head?_drop, ← hrest,
      head?_significant]
    rfl

/-- Taking a token moves the index one further, but not beyond the closing token. -/
theorem Tracks.advance (h : Tracks s i c) :
    s[i]? = some c.advance.1 ∧ Tracks s (min (i + 1) (s.length - 1)) c.advance.2 := by
  unfold Cursor.advance
  cases hu : c.upcoming with
  | nil =>
    have hlast := h.last hu
    have hpeek := h.peek
    rw [show min (i + 1) (s.length - 1) = i by omega]
    rw [Cursor.peek, hu] at hpeek
    refine ⟨hpeek, ?_, h.behind⟩
    rw [List.drop_eq_getElem_cons (by omega), List.drop_eq_nil_of_le (by omega)]
    simpa using (List.getElem?_eq_some_iff.1 hpeek).2.symm
  | cons t rest =>
    obtain ⟨ht, hrest⟩ := h.next hu
    have hlength := congrArg List.length hrest
    rw [List.length_append, List.length_singleton, List.length_drop] at hlength
    rw [show min (i + 1) (s.length - 1) = i + 1 by omega]
    refine ⟨ht, hrest, ?_⟩
    simp [answerAt, ht]

theorem Tracks.ofTokens (tokens : List Token) (stop : Nat) :
    Tracks (Token.closed tokens stop) 0 (Cursor.ofTokens tokens stop) := by
  unfold Cursor.ofTokens Token.closed
  cases hlast : tokens.getLast? with
  | none =>
    rw [List.getLast?_eq_none_iff.1 hlast]
    exact ⟨rfl, rfl⟩
  | some last =>
    obtain ⟨init, rfl⟩ := List.getLast?_eq_some_iff.1 hlast
    cases hend : last.isEnd with
    | true =>
      have htrivia : last.isTrivia = false := by
        rw [Token.isTrivia, Token.kind_of_isEnd hend]
        rfl
      exact ⟨by simp [hend, htrivia], by simp [hend, answerAt]⟩
    | false =>
      refine ⟨?_, by simp [hend, answerAt]⟩
      simp only [hend, Option.any_some, Bool.false_eq_true, if_false]
      rw [List.filter_append (init ++ [last])]
      rfl

/-! ## Queries -/

/-- A query is answered as at the index, and moves it if it takes a token. -/
theorem Tracks.ask (h : Tracks s i c) (q : Query) :
    some (c.ask q).1 = answerAt s i q ∧
      Tracks s (if q = .advance then min (i + 1) (s.length - 1) else i) (c.ask q).2 := by
  cases q with
  | peek => exact ⟨by simp [Cursor.ask, answerAt, h.peek], h⟩
  | peekSecond => exact ⟨by simp [Cursor.ask, answerAt, h.peekSecond], h⟩
  | advance => exact ⟨by simp [Cursor.ask, answerAt, h.advance.1], h.advance.2⟩
  | previousStop => exact ⟨h.behind, h⟩
  | isAtEnd => exact ⟨by simp [Cursor.ask, answerAt, h.peek, Cursor.isAtEnd], h⟩

theorem Tracks.after (history : List Query) (h : Tracks s (min i (s.length - 1)) c) :
    Tracks s (min (i + history.count .advance) (s.length - 1)) (c.after history) := by
  induction history generalizing i c with
  | nil => exact h
  | cons q history ih =>
    have hask := (h.ask q).2
    show Tracks s _ ((c.ask q).2.after history)
    by_cases hq : q = .advance
    · subst hq
      rw [if_pos rfl, show min (min i (s.length - 1) + 1) (s.length - 1) =
        min (i + 1) (s.length - 1) by omega] at hask
      rw [List.count_cons_self, Nat.add_comm _ 1, ← Nat.add_assoc]
      exact ih hask
    · rw [if_neg hq] at hask
      rw [List.count_cons_of_ne hq]
      exact ih hask

/-- After any queries a cursor is at the index that counts the tokens taken, as long as it is
    not beyond the last token. -/
theorem Tracks.after_ofTokens (tokens : List Token) (stop : Nat) (history : List Query) :
    let s := Token.closed tokens stop
    Tracks s (min (history.count .advance) (s.length - 1))
      ((Cursor.ofTokens tokens stop).after history) := by
  intro s
  have hstart : Tracks s (min 0 (s.length - 1)) (Cursor.ofTokens tokens stop) := by
    rw [Nat.zero_min]
    exact .ofTokens tokens stop
  have hafter := hstart.after history
  rwa [Nat.zero_add] at hafter

end Cursor

/-! ## Streams and cursors -/

namespace TokenStream

open Cursor (Query Answer answerAt)

/-- The answer to a query, and the stream after it. -/
def ask (s : TokenStream) : Query → Answer × TokenStream
  | .peek => (.token s.peek.1, s.peek.2)
  | .peekSecond => (.token s.peekSecond.1, s.peekSecond.2)
  | .advance => (.token s.advance.1, s.advance.2)
  | .previousStop => (.offset s.previousStop, s)
  | .isAtEnd => (.flag s.isAtEnd.1, s.isAtEnd.2)

/-- The stream after queries. -/
def after (s : TokenStream) (history : List Query) : TokenStream :=
  history.foldl (fun s q => (s.ask q).2) s

/-- The tokens from the position on. -/
def rest (s : TokenStream) : List Token := s.tokens.toList.drop s.pos

/-- The tokens before the position. -/
def before (s : TokenStream) : List Token := s.tokens.toList.take s.pos

variable {s : TokenStream} {t : Token} {ts : List Token} {final : Token}

theorem rest_eq (s : TokenStream) :
    s.rest = s.current :: s.tokens.toList.drop (s.pos + 1) := by
  rw [rest, List.drop_eq_getElem_cons (by simpa using s.pos_lt)]
  rfl

theorem current_of_rest (h : s.rest = t :: ts) : s.current = t := by
  rw [rest_eq] at h
  exact (List.cons.inj h).1

theorem previousStop_eq (s : TokenStream) : s.previousStop = lastStop s.before := by
  rw [previousStop, before, Array.toList_extract, List.extract_eq_take_drop]
  rfl

theorem length_rest (s : TokenStream) : s.rest.length = s.tokens.size - s.pos := by
  rw [rest, List.length_drop, Array.length_toList]

/-- A step moves the next token behind, if it is not the last one. -/
theorem step_of_rest (h : s.rest = t :: ts) (hts : ts ≠ []) :
    s.step.rest = ts ∧ s.step.before = s.before ++ [t] := by
  have hlength := length_rest s
  have hpos := List.length_pos_iff.2 hts
  rw [h, List.length_cons] at hlength
  have hmore : s.pos + 1 < s.tokens.size := by omega
  have hcurrent := current_of_rest h
  rw [step, dif_pos hmore]
  constructor
  · show s.tokens.toList.drop (s.pos + 1) = ts
    rw [rest_eq] at h
    exact (List.cons.inj h).2
  · show s.tokens.toList.take (s.pos + 1) = s.tokens.toList.take s.pos ++ [t]
    rw [List.take_succ_eq_append_getElem (by simpa using s.pos_lt), ← hcurrent]
    rfl

/-- The last token is never left. -/
theorem step_of_last (h : s.rest = [t]) : s.step = s := by
  have hlength := length_rest s
  rw [h, List.length_singleton] at hlength
  rw [step, dif_neg (by omega)]

theorem lastStop_concat (ts : List Token) (t : Token) :
    lastStop (ts ++ [t]) = if t.isTrivia then lastStop ts else t.span.stop := by
  rw [lastStop, List.reverse_concat, List.find?_cons]
  cases t.isTrivia with
  | true => rfl
  | false => rfl

/-- Passing over trivia leaves the significant tokens ahead, and what the search backwards
    finds. -/
theorem skipTrivia_of_rest (s : TokenStream) : ∀ ts, s.rest = ts ++ [final] →
    s.skipTrivia.rest = ts.dropWhile Token.isTrivia ++ [final] ∧
      s.skipTrivia.previousStop = s.previousStop := by
  fun_induction skipTrivia s with
  | case1 s h ih =>
    obtain ⟨hmore, htrivia⟩ := h
    intro ts hrest
    cases ts with
    | nil =>
      have hlength := length_rest s
      rw [hrest, List.nil_append, List.length_singleton] at hlength
      omega
    | cons t ts =>
      rw [current_of_rest hrest] at htrivia
      obtain ⟨hstep, hbefore⟩ := step_of_rest hrest (by simp)
      obtain ⟨hrest', hstop⟩ := ih ts hstep
      refine ⟨by rw [hrest', List.dropWhile_cons_of_pos htrivia], ?_⟩
      rw [hstop, previousStop_eq, previousStop_eq, hbefore, lastStop_concat, if_pos htrivia]
  | case2 s h =>
    intro ts hrest
    refine ⟨?_, rfl⟩
    cases ts with
    | nil => exact hrest
    | cons t ts =>
      have hlength := length_rest s
      rw [hrest, List.length_append, List.length_cons, List.length_singleton] at hlength
      have htrivia : ¬ t.isTrivia = true := by
        rw [← current_of_rest hrest]
        exact fun ht => h ⟨by omega, ht⟩
      rw [hrest, List.dropWhile_cons_of_neg htrivia]

/-- The search forwards finds the first significant token, or the last one. -/
theorem firstFrom_eq {tokens : Array Token} {last : Nat} {hlast : last < tokens.size} {i : Nat}
    {hi : i ≤ last} (hend : last + 1 = tokens.size) : ∀ ts,
    tokens.toList.drop i = ts ++ [final] →
    firstFrom tokens last hlast i hi = (ts.dropWhile Token.isTrivia).head?.getD final := by
  fun_induction firstFrom tokens last hlast i hi with
  | case1 i hi h ih =>
    intro ts hdrop
    rw [List.drop_eq_getElem_cons (by simpa using Nat.lt_of_le_of_lt hi hlast)] at hdrop
    cases ts with
    | nil =>
      have hlength := congrArg List.length (List.cons.inj hdrop).2
      rw [List.length_drop, Array.length_toList, List.length_nil] at hlength
      omega
    | cons t ts =>
      obtain ⟨hfirst, hrest⟩ := List.cons.inj hdrop
      have htrivia : t.isTrivia = true := by
        rw [← hfirst]
        exact h.2
      rw [ih ts hrest, List.dropWhile_cons_of_pos htrivia]
  | case2 i hi h =>
    intro ts hdrop
    have hlength := congrArg List.length hdrop
    rw [List.drop_eq_getElem_cons (by simpa using Nat.lt_of_le_of_lt hi hlast)] at hdrop
    rw [List.length_drop, Array.length_toList, List.length_append, List.length_singleton] at hlength
    cases ts with
    | nil => exact (List.cons.inj hdrop).1
    | cons t ts =>
      have hfirst : tokens[i] = t := (List.cons.inj hdrop).1
      rw [List.length_cons] at hlength
      have htrivia : ¬ t.isTrivia = true := by
        rw [← hfirst]
        exact fun ht => h ⟨by omega, ht⟩
      rw [List.dropWhile_cons_of_neg htrivia]
      exact hfirst

/-- The cursor has the same significant tokens ahead, and remembers what the search backwards
    finds. -/
structure Follows (s : TokenStream) (c : Cursor) : Prop where
  ahead : ∃ ts, s.rest = ts ++ [c.final] ∧ ts.dropWhile Token.isTrivia = c.upcoming
  behind : s.previousStop = c.previousStop

namespace Follows

variable {c : Cursor}

theorem ofTokens (tokens : List Token) (stop : Nat) :
    (TokenStream.ofTokens tokens stop).Follows (Cursor.ofTokens tokens stop) := by
  have hclosed : close tokens stop = (Cursor.ofTokens tokens stop).pending ++
      [(Cursor.ofTokens tokens stop).final] := by
    unfold close Cursor.ofTokens
    cases hlast : tokens.getLast? with
    | none =>
      rw [List.getLast?_eq_none_iff.1 hlast]
      rfl
    | some last =>
      obtain ⟨init, rfl⟩ := List.getLast?_eq_some_iff.1 hlast
      cases hend : last.isEnd with
      | true => simp [hend]
      | false => simp [hend]
  refine ⟨⟨_, hclosed, rfl⟩, ?_⟩
  have hbefore : (TokenStream.ofTokens tokens stop).before = [] := List.take_zero
  rw [previousStop_eq, hbefore]
  unfold Cursor.ofTokens
  split
  · split
    · rfl
    · rfl
  · rfl

/-- After the trivia in front the stream is where the cursor is. -/
theorem skipTrivia (h : s.Follows c) :
    s.skipTrivia.rest = c.upcoming ++ [c.final] ∧ s.skipTrivia.previousStop = c.previousStop := by
  obtain ⟨ts, hrest, hts⟩ := h.ahead
  obtain ⟨hskip, hstop⟩ := skipTrivia_of_rest s ts hrest
  exact ⟨by rw [hskip, hts], by rw [hstop, h.behind]⟩

theorem skipped (h : s.Follows c) : s.skipTrivia.Follows c := by
  obtain ⟨hrest, hstop⟩ := h.skipTrivia
  refine ⟨⟨c.upcoming, hrest, ?_⟩, hstop⟩
  cases hu : c.upcoming with
  | nil => rfl
  | cons t rest =>
    rw [List.dropWhile_cons_of_neg (by simp [Cursor.not_isTrivia_of_upcoming hu])]

theorem current (h : s.Follows c) : s.skipTrivia.current = c.peek := by
  obtain ⟨hrest, -⟩ := h.skipTrivia
  rw [Cursor.peek]
  cases hu : c.upcoming with
  | nil =>
    rw [hu] at hrest
    exact current_of_rest hrest
  | cons t rest =>
    rw [hu] at hrest
    exact current_of_rest hrest

theorem peekSecond (h : s.Follows c) : s.peekSecond.1 = c.peekSecond := by
  obtain ⟨hrest, -⟩ := h.skipTrivia
  have hlength := length_rest s.skipTrivia
  have hpos := s.skipTrivia.pos_lt
  unfold TokenStream.peekSecond Cursor.peekSecond
  cases hu : c.upcoming with
  | nil =>
    rw [hu] at hrest
    rw [hrest, List.nil_append, List.length_singleton] at hlength
    have hmin : min (s.skipTrivia.pos + 1) (s.skipTrivia.tokens.size - 1) =
        s.skipTrivia.pos := by omega
    refine firstFrom_eq (by omega) [] ?_
    rw [hmin]
    exact hrest
  | cons t rest =>
    rw [hu] at hrest
    rw [hrest] at hlength
    simp only [List.length_append, List.length_cons] at hlength
    have hmin : min (s.skipTrivia.pos + 1) (s.skipTrivia.tokens.size - 1) =
        s.skipTrivia.pos + 1 := by omega
    refine firstFrom_eq (by omega) rest ?_
    rw [hmin]
    rw [rest_eq] at hrest
    exact (List.cons.inj hrest).2

theorem advance (h : s.Follows c) :
    s.advance.1 = c.advance.1 ∧ s.advance.2.Follows c.advance.2 := by
  obtain ⟨hrest, hstop⟩ := h.skipTrivia
  unfold Cursor.advance
  cases hu : c.upcoming with
  | nil =>
    rw [hu] at hrest
    refine ⟨current_of_rest hrest, ?_⟩
    show s.skipTrivia.step.Follows _
    rw [step_of_last hrest]
    exact ⟨⟨[], hrest, rfl⟩, hstop⟩
  | cons t rest =>
    have htrivia := Cursor.not_isTrivia_of_upcoming hu
    rw [hu] at hrest
    obtain ⟨hstep, hbefore⟩ := step_of_rest hrest (by simp)
    refine ⟨current_of_rest hrest, ⟨rest, hstep, rfl⟩, ?_⟩
    show s.skipTrivia.step.previousStop = t.span.stop
    rw [previousStop_eq, hbefore, lastStop_concat, htrivia]
    rfl

/-- Every query has the same answer, and the cursor follows after it. -/
theorem ask (h : s.Follows c) (q : Query) :
    (s.ask q).1 = (c.ask q).1 ∧ (s.ask q).2.Follows (c.ask q).2 := by
  cases q with
  | peek => exact ⟨congrArg Answer.token h.current, h.skipped⟩
  | peekSecond => exact ⟨congrArg Answer.token h.peekSecond, h.skipped⟩
  | advance => exact ⟨congrArg Answer.token h.advance.1, h.advance.2⟩
  | previousStop => exact ⟨congrArg Answer.offset h.behind, h⟩
  | isAtEnd => exact ⟨congrArg (fun t : Token => Answer.flag t.isEnd) h.current, h.skipped⟩

theorem after (h : s.Follows c) (history : List Query) :
    (s.after history).Follows (c.after history) := by
  induction history generalizing s c with
  | nil => exact h
  | cons q history ih => exact ih (h.ask q).2

end Follows

/-- **A stream is a saturating index into the significant tokens.** After any queries, the
    next one is answered as at the index that counts the tokens taken, as long as it is not
    beyond the last token, and as a cursor answers it; and the queries that take no token could
    as well have been left out, whatever is asked later. -/
theorem saturating_stream (tokens : List Token) (stop : Nat) (history : List Query) (q : Query) :
    let significant := Token.closed tokens stop
    let s := ofTokens tokens stop
    some ((s.after history).ask q).1 =
        answerAt significant (min (history.count .advance) (significant.length - 1)) q ∧
      ((s.after history).ask q).1 = (((Cursor.ofTokens tokens stop).after history).ask q).1 ∧
      ∀ later, ((s.after (history ++ later)).ask q).1 =
        ((s.after (history.filter (· == .advance) ++ later)).ask q).1 := by
  intro significant s
  have hcursor : ∀ queries : List Query, ((s.after queries).ask q).1 =
      (((Cursor.ofTokens tokens stop).after queries).ask q).1 := fun queries =>
    (((Follows.ofTokens tokens stop).after queries).ask q).1
  have hanswer : ∀ queries : List Query, some ((s.after queries).ask q).1 =
      answerAt significant (min (queries.count .advance) (significant.length - 1)) q := by
    intro queries
    rw [hcursor]
    exact ((Cursor.Tracks.after_ofTokens tokens stop queries).ask q).1
  refine ⟨hanswer history, hcursor history, fun later => Option.some.inj ?_⟩
  rw [hanswer, hanswer, List.count_append, List.count_append, List.count_filter (by rfl)]

/-- A comment and a blank are passed over, and an end is added behind the last token. -/
example :
    let tokens := (Token.tokenize "x /* c */ lumai").dropLast
    (Token.closed tokens 20).map (·.lexeme) = ["x", "lumai", ""] ∧
      (ofTokens tokens 20).peekSecond.1.lexeme = "lumai" := by
  decide +kernel

end TokenStream

end Bello
