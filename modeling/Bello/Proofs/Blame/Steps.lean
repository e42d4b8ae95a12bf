import Bello.Proofs.Grammar.Begins

/- Which token an error points at, seen from the tokens that are left.

   A reader that fails points at a token. Three things make it the right one. What stands
   before that token begins a phrase. The failure depends on nothing beyond it, or beyond
   the next one if there is no room: a reader that is given other tokens from there on fails
   with the same error. And what kind of error it is depends on the token.

   `Blames L used x ts` is the judgement for this: where `used` has been taken from a phrase
   of the rule and `ts` is left, the reader `x` fails only in this way; where it does not
   fail, it depends on what it takes and the token after it. As with `Runs`, a reader is
   followed step by step with one rule for each kind of step. -/
namespace Bello

/-! ## What is ahead of a cursor -/

namespace Cursor

/-- The one end is the closing token. -/
structure Tidy (c : Cursor) : Prop where
  inner : ∀ t ∈ c.pending, t.isEnd = false
  final : c.final.isEnd = true

/-- The significant tokens ahead, counted from zero. Behind the closing token is the closing
    token. -/
def ahead (c : Cursor) (i : Nat) : Token := c.remaining.getD i c.final

/-- The cursor some tokens further on. -/
def skip (c : Cursor) : Nat → Cursor
  | 0 => c
  | n + 1 => (c.skip n).advance.2

variable {c c' : Cursor}

theorem ahead_cons {t : Token} {ts : List Token} (h : c.remaining = t :: ts) : c.ahead 0 = t := by
  rw [ahead, h]; rfl

theorem ahead_of_le {i : Nat} (h : c.remaining.length ≤ i) : c.ahead i = c.final := by
  simp [ahead, List.getElem?_eq_none h]

theorem skip_add (c : Cursor) (m n : Nat) : c.skip (m + n) = (c.skip m).skip n := by
  induction n with
  | zero => rfl
  | succ n ih => exact congrArg (fun d : Cursor => d.advance.2) ih

namespace Tidy

theorem here (h : c.Tidy) : c.At c.remaining := ⟨h.final, rfl⟩

theorem advance (h : c.Tidy) : c.advance.2.Tidy :=
  ⟨fun t ht => h.inner t (c.pending_advance_subset t ht), by rw [final_advance]; exact h.final⟩

theorem skip (h : c.Tidy) (n : Nat) : (c.skip n).Tidy := by
  induction n with
  | zero => exact h
  | succ n ih => exact ih.advance

/-- Nothing is left, or a token that is not an end. -/
theorem advance_cases (h : c.Tidy) :
    (c.remaining = [] ∧ c.ahead 0 = c.final ∧ c.advance = (c.final, { c with pending := [] })) ∨
    (∃ t ts, c.remaining = t :: ts ∧ t.isEnd = false ∧ c.ahead 0 = t ∧ c.advance.1 = t ∧
      c.advance.2.remaining = ts ∧ c.advance.2.previousStop = t.span.stop) := by
  cases hr : c.remaining with
  | nil =>
    refine .inl ⟨rfl, by rw [ahead, hr]; rfl, ?_⟩
    rw [Cursor.advance, upcoming_nil h.inner hr]
  | cons t ts =>
    have hat : c.At (t :: ts) := ⟨h.final, hr⟩
    obtain ⟨rest, hu, hend, hrest⟩ := hat.upcoming
    refine .inr ⟨t, ts, rfl, hend, ahead_cons hr, hat.advance.1,
      hat.advance.2.remaining, ?_⟩
    rw [Cursor.advance, hu]

theorem peek (h : c.Tidy) : c.peek = c.ahead 0 := by
  rcases h.advance_cases with ⟨hr, ha, -⟩ | ⟨t, ts, hr, -, ha, -⟩
  · rw [ha, Cursor.peek, upcoming_nil h.inner hr]; rfl
  · rw [ha, (⟨h.final, hr⟩ : c.At (t :: ts)).peek]

theorem advance_fst (h : c.Tidy) : c.advance.1 = c.ahead 0 := by
  rcases h.advance_cases with ⟨-, ha, hadv⟩ | ⟨t, ts, -, -, ha, hadv, -⟩
  · rw [hadv, ← ha]
  · rw [hadv, ← ha]

theorem remaining_advance (h : c.Tidy) : c.advance.2.remaining = c.remaining.drop 1 := by
  rcases h.advance_cases with ⟨hr, -, ha⟩ | ⟨t, ts, hr, -, -, -, hrest, -⟩
  · rw [hr, ha]; rfl
  · rw [hr, hrest]; rfl

theorem remaining_skip (h : c.Tidy) (n : Nat) : (c.skip n).remaining = c.remaining.drop n := by
  induction n with
  | zero => rfl
  | succ n ih => rw [Cursor.skip, (h.skip n).remaining_advance, ih, List.drop_drop]

theorem final_skip (c : Cursor) (n : Nat) : (c.skip n).final = c.final := by
  induction n with
  | zero => rfl
  | succ n ih => rw [Cursor.skip, final_advance, ih]

theorem ahead_skip (h : c.Tidy) (n i : Nat) : (c.skip n).ahead i = c.ahead (n + i) := by
  simp only [ahead, h.remaining_skip, final_skip, List.getD_eq_getElem?_getD, List.getElem?_drop]

/-- What is not an end is left. -/
theorem lt_length (h : c.Tidy) {i : Nat} (hi : (c.ahead i).isEnd = false) :
    i < c.remaining.length := by
  apply Nat.lt_of_not_le
  intro hge
  rw [ahead_of_le hge, h.final] at hi
  cases hi

theorem not_isEnd (h : c.Tidy) {i : Nat} (hi : i < c.remaining.length) :
    (c.ahead i).isEnd = false := by
  have hahead : c.ahead i = c.remaining[i] := by simp [ahead, hi]
  have hmem : c.remaining[i] ∈ c.pending.filter (!·.isTrivia) :=
    (List.takeWhile_sublist _).subset (List.getElem_mem hi)
  rw [hahead]
  exact h.inner _ (List.mem_filter.1 hmem).1

/-- Nothing is left from the end on. -/
theorem take_of_isEnd (h : c.Tidy) {i : Nat} (hi : (c.ahead i).isEnd = true) :
    c.remaining.take i = c.remaining := by
  apply List.take_of_length_le
  apply Nat.le_of_not_lt
  intro hlt
  rw [h.not_isEnd hlt] at hi
  cases hi

theorem peekSecond (h : c.Tidy) : c.peekSecond = c.ahead 1 := by
  rw [peekSecond_eq, h.advance.peek]
  exact h.ahead_skip 1 0

end Tidy

/-- Both cursors have the same next `m` tokens ahead, and the same last one behind. -/
structure Shares (m : Nat) (c c' : Cursor) : Prop where
  tidy : c.Tidy
  tidy' : c'.Tidy
  previousStop : c'.previousStop = c.previousStop
  ahead : ∀ i < m, c'.ahead i = c.ahead i

namespace Shares

variable {m n : Nat}

theorem refl (h : c.Tidy) : Shares m c c := ⟨h, h, rfl, fun _ _ => rfl⟩

theorem mono (h : Shares m c c') (hn : n ≤ m) : Shares n c c' :=
  { h with ahead := fun i hi => h.ahead i (Nat.lt_of_lt_of_le hi hn) }

/-- The place where the last token ended is known from the token, if it was not the end. -/
theorem advance (h : Shares (m + 1) c c') : Shares m c.advance.2 c'.advance.2 where
  tidy := h.tidy.advance
  tidy' := h.tidy'.advance
  previousStop := by
    have h0 := h.ahead 0 (Nat.succ_pos m)
    have hend : ∀ {t : Token}, t = c.final ∨ t = c'.final → t.isEnd = true := by
      rintro t (rfl | rfl)
      · exact h.tidy.final
      · exact h.tidy'.final
    rcases h.tidy.advance_cases with ⟨-, ha, hadv⟩ | ⟨t, ts, -, ht, ha, -, -, hstop⟩ <;>
    rcases h.tidy'.advance_cases with ⟨-, ha', hadv'⟩ | ⟨t', ts', -, ht', ha', -, -, hstop'⟩
    · rw [hadv, hadv']; exact h.previousStop
    · rw [ha, ha'] at h0; rw [hend (.inl h0)] at ht'; cases ht'
    · rw [ha, ha'] at h0; rw [hend (.inr h0.symm)] at ht; cases ht
    · rw [ha, ha'] at h0; rw [hstop, hstop', h0]
  ahead := by
    intro i hi
    have := h.ahead (1 + i) (by omega)
    rwa [← h.tidy.ahead_skip 1 i, ← h.tidy'.ahead_skip 1 i] at this

theorem skip (n : Nat) (h : Shares (n + m) c c') : Shares m (c.skip n) (c'.skip n) := by
  induction n generalizing m with
  | zero => exact h.mono (by omega)
  | succ n ih =>
    have hn : Shares (m + 1) (c.skip n) (c'.skip n) := ih (h.mono (by omega))
    exact hn.advance

end Shares

/-- A cursor at the start of some tokens, behind a token that ended at `stop`. -/
def upon (ts : List Token) (stop : Nat) : Cursor := ⟨ts, .endOfInput 0, stop⟩

section Upon

variable {ts : List Token} {stop : Nat}

theorem tidy_upon (h : Grammar.Meant ts) : (upon ts stop).Tidy := ⟨fun t ht => (h t ht).2, rfl⟩

theorem remaining_upon (h : Grammar.Meant ts) : (upon ts stop).remaining = ts := by
  rw [remaining, upon, significant_of_inner (fun t ht => (h t ht).2), List.filter_eq_self]
  intro t ht
  rw [(h t ht).1]
  rfl

theorem at_upon (h : Grammar.Meant ts) : (upon ts stop).At ts := ⟨rfl, remaining_upon h⟩

/-- Anything may follow the next token. -/
theorem shares_upon {c : Cursor} {t : Token} (hc : c.Tidy) (h0 : c.ahead 0 = t)
    (h : Grammar.Meant (t :: ts)) : c.Shares 1 (upon (t :: ts) c.previousStop) := by
  refine ⟨hc, tidy_upon h, rfl, fun i hi => ?_⟩
  obtain rfl : i = 0 := by omega
  rw [h0, ahead_cons (remaining_upon h)]

end Upon

end Cursor

/-! ## Errors and tokens -/

namespace Error

/-- The error is one of reading and speaks of the token. -/
inductive Points : Error → Token → Prop where
  | unexpectedEnd {t : Token} (what : String) :
      t.kind = .endOfInput → Points (Cause.at (.unexpectedEnd what) t.span) t
  | malformedNumber {t : Token} :
      t.kind = .malformed → Points (Cause.at (.malformedNumber t.lexeme) t.span) t
  | unexpectedToken {t : Token} (what : String) :
      t.kind ≠ .endOfInput → t.kind ≠ .malformed →
      Points (Cause.at (.unexpectedToken what t.kind t.lexeme) t.span) t
  | invalidNumber {t : Token} :
      t.kind = .number → Points (Cause.at (.invalidNumber t.lexeme) t.span) t
  | unsupportedType {t : Token} :
      t.kind = .identifier → Points (Cause.at (.unsupportedType t.lexeme) t.span) t
  | nestingTooDeep {t : Token} : Points (Cause.at (.nestingTooDeep Parse.maxNesting) t.span) t

/-- There was no room left. -/
def isNesting (e : Error) : Bool :=
  match e.cause with
  | .nestingTooDeep _ => true
  | _ => false

namespace Points

variable {e : Error} {t : Token}

theorem span (h : e.Points t) : e.span = some t.span := by
  cases h <;> rfl

/-- Only one limit is spoken of. -/
theorem isNesting (h : e.Points t) (hcause : e.cause ≠ .nestingTooDeep Parse.maxNesting) :
    e.isNesting = false := by
  cases h with
  | nestingTooDeep => exact absurd rfl hcause
  | _ => rfl

theorem unexpectedEnd_iff (h : e.Points t) (hn : e.isNesting = false) :
    (∃ what, e.cause = .unexpectedEnd what) ↔ t.isEnd = true := by
  cases h with
  | nestingTooDeep => cases hn
  | _ => simp_all [Cause.at, Token.isEnd]

theorem malformedNumber_iff (h : e.Points t) (hn : e.isNesting = false) :
    (∃ lexeme, e.cause = .malformedNumber lexeme) ↔ t.kind = .malformed := by
  cases h with
  | nestingTooDeep => cases hn
  | _ => simp_all [Cause.at]

end Points

/-- How many tokens matter from the one on that the error points at. Whether a statement is
    an assignment is seen by its second token, before there is a look at the room. -/
def reach (e : Error) : Nat := if e.isNesting then 2 else 1

theorem reach_nesting {e : Error} (h : e.isNesting = true) : e.reach = 2 := by
  simp [reach, h]

theorem reach_other {e : Error} (h : e.isNesting = false) : e.reach = 1 := by
  simp [reach, h]

theorem one_le_reach (e : Error) : 1 ≤ e.reach := by
  unfold reach
  split <;> decide

theorem reach_le_two (e : Error) : e.reach ≤ 2 := by
  unfold reach
  split <;> decide

end Error

namespace Parse

open Grammar

variable {α β γ : Type}

/-! ## The judgement -/

/-- What is said of a result at the cursor `c`. `Again c' r` says that `r` is the result at
    the cursor `c'`. -/
inductive Verdict (L : Rule γ) (used : List Token) (c : Cursor)
    (Again : Cursor → EStateM.Result Error Cursor α → Prop) :
    EStateM.Result Error Cursor α → Prop where
  | ok (a : α) {j : Nat} (le : j ≤ c.remaining.length)
      (again : ∀ c', c.Shares (j + 1) c' → Again c' (.ok a (c'.skip j))) :
      Verdict L used c Again (.ok a (c.skip j))
  | error (e : Error) (d : Cursor) {i : Nat} (le : i ≤ c.remaining.length)
      (points : e.Points (c.ahead i))
      (begins : e.isNesting = false → Begins L (used ++ c.remaining.take i))
      (again : ∀ c', c.Shares (i + e.reach) c' → ∃ d', Again c' (.error e d')) :
      Verdict L used c Again (.error e d)

/-- What is said of a reader at the cursor `c`. -/
def BlamesAt (L : Rule γ) (used : List Token) (x : Parse α) (c : Cursor) : Prop :=
  Verdict L used c (fun c' r => x c' = r) (x c)

/-- Where `used` has been taken of a phrase and `ts` is left, the reader fails at the first
    token that is wrong, if it fails. -/
def Blames (L : Rule γ) (used : List Token) (x : Parse α) (ts : List Token) : Prop :=
  ∀ c : Cursor, c.Tidy → c.remaining = ts → BlamesAt L used x c

namespace Verdict

variable {L : Rule γ} {used : List Token} {c : Cursor}
  {Again : Cursor → EStateM.Result Error Cursor β → Prop}

/-- What is said after some tokens is said before them. -/
theorem after (h : c.Tidy) {n : Nat} (hn : n ≤ c.remaining.length)
    {After : Cursor → EStateM.Result Error Cursor β → Prop}
    {r : EStateM.Result Error Cursor β}
    (hv : Verdict L (used ++ c.remaining.take n) (c.skip n) After r)
    (hafter : ∀ c' r, c.Shares (n + 1) c' → After (c'.skip n) r → Again c' r) :
    Verdict L used c Again r := by
  have hlen : (c.skip n).remaining.length = c.remaining.length - n := by
    rw [h.remaining_skip, List.length_drop]
  cases hv with
  | @ok b j le again =>
    rw [← Cursor.skip_add]
    refine .ok b (by omega) (fun c' hc' => ?_)
    rw [Cursor.skip_add]
    exact hafter c' _ (hc'.mono (by omega)) (again _ (.skip n (hc'.mono (by omega))))
  | @error e d i le points begins again =>
    refine .error e d (i := n + i) (by omega) ?_ (fun he => ?_) (fun c' hc' => ?_)
    · rwa [h.ahead_skip] at points
    · have := begins he
      rwa [h.remaining_skip, List.append_assoc, ← List.take_add] at this
    · have hreach := e.one_le_reach
      obtain ⟨d', hd'⟩ := again (c'.skip n) (.skip n (hc'.mono (by omega)))
      exact ⟨d', hafter c' _ (hc'.mono (by omega)) hd'⟩

/-- One token in sight is enough to see what the result is. -/
theorem mono (h : c.Tidy) {After : Cursor → EStateM.Result Error Cursor β → Prop}
    {r : EStateM.Result Error Cursor β} (hv : Verdict L used c After r)
    (hagain : ∀ c' r, c.Shares 1 c' → After c' r → Again c' r) : Verdict L used c Again r := by
  have hv' : Verdict L (used ++ c.remaining.take 0) (c.skip 0) After r := by
    rw [List.take_zero, List.append_nil]; exact hv
  exact hv'.after h (Nat.zero_le _) hagain

end Verdict

/-- What is left is known from how many tokens are taken. -/
theorem Runs.of_ok {x : Parse α} {ts : List Token} {Q : α → List Token → Prop}
    {E : Error → Prop} (hr : Runs x ts Q E) {c : Cursor} (hc : c.Tidy) (hts : c.remaining = ts)
    {a : α} {j : Nat} (e : x c = .ok a (c.skip j)) : Q a (ts.drop j) := by
  rcases hr c (hts ▸ hc.here) with ⟨a', c', rest, e', hrest, hQ⟩ | ⟨_, _, e', -⟩
  · rw [e] at e'
    cases e'
    rwa [← hrest.remaining, hc.remaining_skip, hts] at hQ
  · rw [e] at e'
    cases e'

/-- The two ways in which a reader can end. -/
theorem BlamesAt.cases {L : Rule γ} {used : List Token} {x : Parse α} {c : Cursor}
    (h : BlamesAt L used x c) :
    (∃ a j, x c = .ok a (c.skip j) ∧ j ≤ c.remaining.length ∧
      ∀ c', c.Shares (j + 1) c' → x c' = .ok a (c'.skip j)) ∨
    (∃ e d i, x c = .error e d ∧ i ≤ c.remaining.length ∧ e.Points (c.ahead i) ∧
      (e.isNesting = false → Begins L (used ++ c.remaining.take i)) ∧
      ∀ c', c.Shares (i + e.reach) c' → ∃ d', x c' = .error e d') := by
  unfold BlamesAt at h
  generalize x c = r at h
  cases h with
  | ok a le again => exact .inl ⟨a, _, rfl, le, again⟩
  | error e d le points begins again => exact .inr ⟨e, d, _, rfl, le, points, begins, again⟩

namespace Blames

variable {L : Rule γ} {used ts : List Token} {t : Token} {x : Parse α} {f : α → Parse β}

theorem bind_ok {c d : Cursor} {a : α} (h : x c = .ok a d) : (x >>= f) c = f a d := by
  show EStateM.bind x f c = f a d
  simp only [EStateM.bind, h]

theorem bind_error {c d : Cursor} {e : Error} (h : x c = .error e d) :
    (x >>= f) c = .error e d := by
  show EStateM.bind x f c = .error e d
  simp only [EStateM.bind, h]

/-! ## Reading on -/

theorem pure' (b : β) : Blames L used (pure b) ts :=
  fun _ _ _ => .ok b (j := 0) (Nat.zero_le _) (fun _ _ => rfl)

/-- `Q` is what is known of the value and the tokens left then. -/
theorem bind' {Q : α → List Token → Prop} (hx : Blames L used x ts) (hr : Runs x ts Q Anyhow)
    (hf : ∀ a us rest, ts = us ++ rest → Q a rest → Blames L (used ++ us) (f a) rest) :
    Blames L used (x >>= f) ts := by
  intro c hc hts
  unfold BlamesAt
  rcases (hx c hc hts).cases with
    ⟨a, j, e, le, again⟩ | ⟨e', d, i, e, le, points, begins, again⟩
  · -- The reader says how many tokens it has taken, and `Runs` what they were.
    have hQ := hr.of_ok hc hts e
    have hnext := hf a (ts.take j) (ts.drop j) (List.take_append_drop j ts).symm hQ (c.skip j)
      (hc.skip j) (by rw [hc.remaining_skip, hts])
    rw [bind_ok e]
    rw [← hts] at hnext
    exact hnext.after hc le (fun c' r hc' hr => (bind_ok (again c' hc')).trans hr)
  · rw [bind_error e]
    refine .error e' d le points begins (fun c' hc' => ?_)
    obtain ⟨d', hd'⟩ := again c' hc'
    exact ⟨d', bind_error hd'⟩

/-- A reader of a part of the phrase. -/
theorem lift {δ : Type} {K : Rule δ} (hx : Blames K [] x ts)
    (hpart : ∀ {us b k}, K us b k → Begins L (used ++ us)) : Blames L used x ts := by
  intro c hc hts
  unfold BlamesAt
  rcases (hx c hc hts).cases with
    ⟨a, j, e, le, again⟩ | ⟨e', d, i, e, le, points, begins, again⟩
  · rw [e]
    exact .ok a le again
  · rw [e]
    exact .error e' d le points (fun he => (begins he).part hpart) again

/-- What is done with the next token is done where the token is the next one. -/
theorem peek_at {f : Token → Parse β}
    (h : ∀ c : Cursor, c.Tidy → c.remaining = ts → BlamesAt L used (f (c.ahead 0)) c) :
    Blames L used (Parse.peek >>= f) ts := by
  intro c hc hts
  show Verdict L used c _ (f c.peek c)
  rw [hc.peek]
  refine (h c hc hts).mono hc (fun c' r hc' hr => ?_)
  show f c'.peek c' = r
  rw [hc'.tidy'.peek, hc'.ahead 0 Nat.one_pos]
  exact hr

theorem peek {f : Token → Parse β} (h : Blames L used (f t) (t :: ts)) :
    Blames L used (Parse.peek >>= f) (t :: ts) := by
  refine peek_at (fun c hc hts => ?_)
  rw [Cursor.ahead_cons hts]
  exact h c hc hts

theorem peek_nil {f : Token → Parse β} (h : ∀ t, t.kind = .endOfInput → Blames L used (f t) []) :
    Blames L used (Parse.peek >>= f) [] := by
  refine peek_at (fun c hc hts => h (c.ahead 0) ?_ c hc hts)
  rw [Cursor.ahead, hts]
  exact Token.kind_of_isEnd hc.final

theorem advance {f : Token → Parse β} (h : Blames L (used ++ [t]) (f t) ts) :
    Blames L used (Parse.advance >>= f) (t :: ts) := by
  intro c hc hts
  have htake : c.remaining.take 1 = [t] := by rw [hts]; rfl
  have hdrop : (c.skip 1).remaining = ts := by rw [hc.remaining_skip, hts]; rfl
  have hv := h (c.skip 1) (hc.skip 1) hdrop
  rw [← htake] at hv
  have h0 := Cursor.ahead_cons hts
  show Verdict L used c _ (f c.advance.1 c.advance.2)
  rw [hc.advance_fst, h0]
  refine hv.after hc (by rw [hts]; exact Nat.succ_pos _) (fun c' r hc' hr => ?_)
  -- The same token is taken wherever it is the next one.
  show f c'.advance.1 c'.advance.2 = r
  rw [hc'.tidy'.advance_fst, hc'.ahead 0 (by decide), h0]
  exact hr

/-- Spans are built from tokens taken. -/
theorem spanFrom {start : Span} {f : Span → Parse β} (h : ∀ s, Blames L used (f s) ts) :
    Blames L used (Parse.spanFrom start >>= f) ts := by
  intro c hc hts
  refine (h ⟨start.start, max c.previousStop start.stop⟩ c hc hts).mono hc
    (fun c' r hc' hr => ?_)
  show f ⟨start.start, max c'.previousStop start.stop⟩ c' = r
  rw [hc'.previousStop]
  exact hr

/-- A choice by the next token, which stays where it is. -/
theorem ifPeek {p : Token → Bool} {x y : Parse β} (hp : Token.Inner p)
    (hyes : ∀ t us, ts = t :: us → p t = true → Blames L used x (t :: us))
    (hno : Blames L used y ts) :
    Blames L used (Parse.peek >>= fun t => if p t then x else y) ts := by
  cases ts with
  | nil =>
    refine peek_nil (fun t ht => ?_)
    rw [hp t ht]
    exact hno
  | cons t us =>
    refine peek ?_
    cases h : p t with
    | true => exact hyes t us rfl h
    | false => exact hno

theorem accept {p : Token → Bool} {f : Bool → Parse β} (hp : Token.Inner p)
    (hyes : ∀ t us, ts = t :: us → p t = true → Blames L (used ++ [t]) (f true) us)
    (hno : Blames L used (f false) ts) : Blames L used (Parse.accept p >>= f) ts := by
  rw [accept_bind]
  refine ifPeek hp (fun t us hts ht => ?_) hno
  exact advance (hyes t us hts ht)

/-! ## Failing -/

/-- The error says what is wrong with the next token, wherever it is raised. -/
theorem fail_at {cause : Cause} {c : Cursor}
    (hp : (cause.at (c.ahead 0).span).Points (c.ahead 0))
    (hb : (cause.at (c.ahead 0).span).isNesting = false → Begins L used) :
    BlamesAt L used (Parse.fail cause (c.ahead 0).span : Parse β) c := by
  refine .error _ c (i := 0) (Nat.zero_le _) hp (fun he => ?_) (fun c' _ => ⟨c', rfl⟩)
  rw [List.take_zero, List.append_nil]
  exact hb he

theorem tooDeep : Blames L used (Parse.tooDeep : Parse β) ts :=
  peek_at (fun _ _ _ => fail_at .nestingTooDeep (fun h => by cases h))

/-- The next token is at fault where the phrase can go on. -/
theorem unexpected (what : String) (hb : Begins L used) :
    Blames L used (Parse.unexpected what : Parse β) ts := by
  unfold Parse.unexpected
  refine peek_at (fun c _ _ => ?_)
  split
  · next hk => exact fail_at (.unexpectedEnd what hk) (fun _ => hb)
  · next hk => exact fail_at (.malformedNumber hk) (fun _ => hb)
  · next hend hmal => exact fail_at (.unexpectedToken what hend hmal) (fun _ => hb)

/-- After a failure nothing more is read. -/
theorem stop_bind {x : Parse α} (hx : Blames L used x ts)
    (hr : Runs x ts (fun _ _ => False) Anyhow) : Blames L used (x >>= f) ts :=
  bind' hx hr (fun _ _ _ _ => False.elim)

theorem unexpected_bind (what : String) (hb : Begins L used) :
    Blames L used (Parse.unexpected what >>= f) ts :=
  stop_bind (unexpected what hb) (.unexpected_sound what)

theorem expect {p : Token → Bool} {what : String} {f : Token → Parse β} (hp : Token.Inner p)
    (hb : Begins L used)
    (h : ∀ t us, ts = t :: us → p t = true → Blames L (used ++ [t]) (f t) us) :
    Blames L used (Parse.expect p what >>= f) ts := by
  simp only [Parse.expect, bind_assoc]
  cases ts with
  | nil =>
    refine peek_nil (fun t ht => ?_)
    simp only [hp t ht, Bool.false_eq_true, if_false]
    exact unexpected_bind what hb
  | cons t us =>
    refine peek ?_
    cases ht : p t with
    | true =>
      simp only [if_true]
      exact advance (h t us rfl ht)
    | false =>
      simp only [Bool.false_eq_true, if_false]
      exact unexpected_bind what hb

theorem expectIdent {what : String} {f : Ident → Parse β} (hb : Begins L used)
    (h : ∀ t us, ts = t :: us → t.kind = .identifier →
      Blames L (used ++ [t]) (f ⟨t.lexeme, t.span⟩) us) :
    Blames L used (Parse.expectIdent what >>= f) ts := by
  simp only [Parse.expectIdent, bind_assoc]
  refine expect Token.inner_identifier hb (fun t us hts ht => ?_)
  simpa only [pure_bind] using h t us hts (by simpa using ht)

theorem expectStatementEnd {f : Unit → Parse β} (hb : Begins L used)
    (h : ∀ t us, ts = t :: us → t.isKeyword .naidu = true → Blames L (used ++ [t]) (f ()) us) :
    Blames L used (Parse.expectStatementEnd >>= f) ts := by
  simp only [Parse.expectStatementEnd, bind_assoc]
  refine expect (Token.inner_keyword .naidu) hb (fun t us hts ht => ?_)
  simpa only [pure_bind] using h t us hts ht

theorem expectTypeTag {f : Unit → Parse β} (hb : Begins L used)
    (h : ∀ t us, ts = t :: us → t.isIdentifier typeTag = true →
      Blames L (used ++ [t]) (f ()) us) :
    Blames L used (Parse.expectTypeTag >>= f) ts := by
  have hother : ∀ t : Token, t.kind = .identifier →
      Blames L used (Parse.fail (.unsupportedType t.lexeme) t.span : Parse Unit)
        (t :: ts.tail) := by
    intro t hk c _ hts
    have h0 := Cursor.ahead_cons hts
    rw [← h0] at hk ⊢
    exact fail_at (.unsupportedType hk) (fun _ => hb)
  simp only [Parse.expectTypeTag, bind_assoc]
  cases ts with
  | nil =>
    refine peek_nil (fun t ht => ?_)
    simp only [ht, reduceCtorEq, if_false]
    exact unexpected_bind _ hb
  | cons t us =>
    refine peek ?_
    by_cases hk : t.kind = .identifier
    · by_cases hl : t.lexeme = typeTag
      · simp only [hk, hl, if_true, bind_assoc, pure_bind]
        exact advance (h t us rfl (by simp [Token.isIdentifier, hk, hl]))
      · simp only [hk, hl, if_true, if_false]
        exact stop_bind (hother t hk) (.fail_sound _ _)
    · simp only [hk, if_false]
      exact unexpected_bind _ hb

/-- A number is read after its token is taken, and that token is at fault if it cannot be. -/
theorem number {f : Decimal → Parse β} (hb : Begins L used) (hk : t.kind = .number)
    (h : ∀ v, Decimal.ofPlain? t.lexeme = some v → Blames L (used ++ [t]) (f v) ts) :
    Blames L used (Parse.advance >>= fun _ => Parse.numberValue t >>= f) (t :: ts) := by
  cases hv : Decimal.ofPlain? t.lexeme with
  | some v =>
    refine advance ?_
    simp only [Parse.numberValue, hv]
    exact h v hv
  | none =>
    have hx : ∀ c : Cursor, (Parse.advance >>= fun _ => Parse.numberValue t >>= f : Parse β) c =
        .error (Cause.at (.invalidNumber t.lexeme) t.span) c.advance.2 := by
      intro c
      simp only [Parse.numberValue, hv]
      rfl
    intro c hc hts
    unfold BlamesAt
    rw [hx c]
    refine .error _ _ (i := 0) (Nat.zero_le _) ?_ (fun _ => ?_) (fun c' _ => ⟨_, hx c'⟩)
    · rw [Cursor.ahead_cons hts]; exact .invalidNumber hk
    · rwa [List.take_zero, List.append_nil]

end Blames

/-! ## Readers of a rule -/

/-- The reader reads phrases of the rule, and fails at the first token that is wrong. -/
structure Exact [Spanned α] (x : Parse α) (room : Nat) (L : Rule α)
    (Ends : List Token → Prop) : Prop extends Reads x room L Ends where
  blames : ∀ ts, Blames L [] x ts

namespace Exact

variable [Spanned α] {x : Parse α} {room : Nat} {K : Rule α} {L : Rule γ}
  {Ends : List Token → Prop} {f : α → Parse β} {used ts : List Token}

/-- A whole part is read, after which the phrase can go on. -/
theorem part (hx : Exact x room K Ends)
    (hafter : ∀ {us b k}, K us b k → Begins L (used ++ us))
    (hf : ∀ a us rest k, ts = us ++ rest → K us (bare a) k → Blames L (used ++ us) (f a) rest) :
    Blames L used (x >>= f) ts := by
  refine .bind' ((hx.blames ts).lift hafter) (hx.sound ts) ?_
  rintro a us rest hts ⟨us', k, hts', -, ha⟩
  cases List.append_cancel_right (hts.symm.trans hts')
  exact hf a us rest k hts ha

theorem of_iff {K' : Rule α} (hx : Exact x room K Ends)
    (h : ∀ {ts a k}, K' ts a k ↔ K ts a k) : Exact x room K' Ends :=
  ⟨hx.toReads.of_iff h, fun ts => (hx.blames ts).lift (fun hK => .whole (h.2 hK))⟩

theorem deeper (hx : Exact x room K Ends) : Exact x (room + 1) (Deeper K) Ends :=
  ⟨hx.toReads.deeper, fun ts => (hx.blames ts).lift (fun hK => .whole ⟨_, rfl, hK⟩)⟩

end Exact

theorem tooDeep_exact [Spanned α] (L : Rule α) (Ends : List Token → Prop) :
    Exact tooDeep 0 (Deeper L) Ends :=
  ⟨tooDeep_reads L Ends, fun _ => .tooDeep⟩

/-! ## Repetition -/

namespace Repeats

variable [Spanned α] {step : Parse (Option α)} {room : Nat} {K : Rule α} {L : Rule γ}
  {Ends : List Token → Prop} {Stop : List Token → List Token → Prop}

/-- How many rounds are allowed makes no difference, if they are enough. -/
theorem repeatUpTo_blames (h : Repeats step room K Ends Stop) (hs : ∀ ts, Blames K [] step ts) :
    ∀ (bound : Nat) (done : List α) {before : List Token} {as : List α} {k : Nat} {c : Cursor},
    Sequence K before as k → c.Tidy → c.remaining.length < bound →
    Verdict (Sequence K) before c
      (fun c' r => ∀ m, c'.remaining.length < m → repeatUpTo step m done c' = r)
      (repeatUpTo step bound done c)
  | 0, _, _, _, _, _, _, _, hlt => absurd hlt (Nat.not_lt_zero _)
  | bound + 1, done, before, as, k, c, hbefore, hc, hlt => by
    have hrounds : ∀ {c' : Cursor} {m : Nat}, c'.remaining.length < m → ∃ m', m = m' + 1 :=
      fun hm => Nat.exists_eq_add_of_lt (Nat.zero_lt_of_lt hm) |>.imp (fun _ h => by omega)
    rcases (hs c.remaining c hc rfl).cases with
      ⟨o, j, e, le, again⟩ | ⟨e', d, i, e, le, points, begins, again⟩
    · cases o with
      | none =>
        rw [repeatUpTo, Blames.bind_ok e]
        refine .ok done.reverse le (fun c' hc' m hm => ?_)
        obtain ⟨m, rfl⟩ := hrounds hm
        exact Blames.bind_ok (again c' hc')
      | some a =>
        have hlt' := h.remaining_lt hc.here a _ e
        rw [repeatUpTo, Blames.bind_ok e]
        obtain ⟨us, k', hus, -, ha⟩ := (h.sound c.remaining).of_ok hc rfl e
        obtain rfl : us = c.remaining.take j :=
          List.append_cancel_right (hus.symm.trans (List.take_append_drop j _).symm)
        have ih := h.repeatUpTo_blames hs bound (a :: done) (hbefore.snoc ha) (hc.skip j) (by omega)
        refine ih.after hc le (fun c' r hc' hr m hm => ?_)
        obtain ⟨m, rfl⟩ := hrounds hm
        have hlt'' := h.remaining_lt hc'.tidy'.here a _ (again c' hc')
        rw [repeatUpTo, Blames.bind_ok (again c' hc')]
        exact hr m (by omega)
    · rw [repeatUpTo, Blames.bind_error e]
      refine .error e' d le points (fun he => ?_) (fun c' hc' => ?_)
      · exact (begins he).part (fun hK => .whole (hbefore.snoc hK))
      · obtain ⟨d', hd'⟩ := again c' hc'
        refine ⟨d', fun m hm => ?_⟩
        obtain ⟨m, rfl⟩ := hrounds hm
        rw [repeatUpTo, Blames.bind_error hd']

/-- What a round can do wrong is all that a repetition can do wrong. -/
theorem many_blames (h : Repeats step room K Ends Stop) (hs : ∀ ts, Blames K [] step ts)
    (ts : List Token) : Blames (Sequence K) [] (many step) ts := by
  intro c hc _
  have hbound : ∀ {c' : Cursor}, c'.Tidy → c'.remaining.length < c'.pending.length + 1 :=
    fun hc' => Nat.lt_succ_of_le hc'.here.length_le
  refine (h.repeatUpTo_blames hs _ [] .nil hc (hbound hc)).mono hc (fun c' r hc' hr => ?_)
  exact hr _ (hbound hc'.tidy')

/-- All of a repetition is read, after which the phrase can go on. -/
theorem part (h : Repeats step room K Ends Stop) (hs : ∀ ts, Blames K [] step ts)
    {f : List α → Parse β} {used ts : List Token}
    (hafter : ∀ {us as k}, Sequence K us as k → Begins L (used ++ us))
    (hf : ∀ as us mid rest k, ts = us ++ mid → Sequence K us (bare as) k → Stop mid rest →
      ∃ tail, mid = tail ++ rest ∧ Blames L (used ++ (us ++ tail)) (f as) rest) :
    Blames L used (many step >>= f) ts := by
  refine .bind' ((h.many_blames hs ts).lift hafter) (h.many_sound ts) ?_
  rintro as us rest hts ⟨us', mid, k, hts', -, has, hstop⟩
  obtain ⟨tail, rfl, hnext⟩ := hf as us' mid rest k hts' has hstop
  rw [← List.append_assoc] at hts'
  cases List.append_cancel_right (hts.symm.trans hts')
  exact hnext

end Repeats

end Parse

end Bello
