import Bello.Proofs.Token.Lossless

/- Lines and columns.

   Offsets count characters of a text in which every line ending is one line feed, while
   positions are computed on the raw source, where it may be a return or both. The two fit:
   `advance_of_unified` follows the two texts side by side, so an offset takes a position one
   step further for each character before it (`next`), and `reached` says where that leads: a
   line for each feed, and a column for each character after the last one.

   What comes later in the text comes later in the order of lines and columns (`Before`), and
   tokens start one after another, so their positions increase. -/
namespace Bello

namespace Text

/-! ## Line endings in two passes -/

/-- The text with a feed in place of each return that is followed by one, and of that. -/
def joinPairs : List Char → List Char
  | [] => []
  | '\r' :: '\n' :: cs => '\n' :: joinPairs cs
  | c :: cs => c :: joinPairs cs

/-- A feed in place of a return. -/
def feedForReturn (c : Char) : Char := if c = '\r' then '\n' else c

/-- The first pass can put a return in front of a feed. The second one takes it for a line
    ending of its own, as it was. -/
theorem Unified.two_passes {cs ds : List Char} (h : Unified cs ds) :
    (joinPairs cs).map feedForReturn = ds := by
  induction h with
  | nil => rfl
  | pair _ ih => simp [joinPairs, feedForReturn, ih]
  | @lone cs ds hhead _ ih =>
    have hreturn : joinPairs ('\r' :: cs) = '\r' :: joinPairs cs := by
      rw [joinPairs]
      intro rest _ hcs
      apply hhead
      rw [hcs, List.head?_cons]
    simp [hreturn, feedForReturn, ih]
  | @other c cs ds hc _ ih =>
    have hother : joinPairs (c :: cs) = c :: joinPairs cs := by
      rw [joinPairs]
      intro rest hreturn _
      exact hc hreturn
    simp [hother, feedForReturn, hc, ih]

end Text

namespace Position

open Text

/-! ## One character further -/

/-- The position after one more character of a text without returns. -/
def next (p : Position) (c : Char) : Position := if c = '\n' then p.nextLine else p.nextColumn

/-- In a raw text the position moves as in the text with its line endings unified. -/
theorem advance_of_unified {cs ds : List Char} (h : Unified cs ds) :
    ∀ (n : Nat) (p : Position), advance n p cs = (ds.take n).foldl next p := by
  induction h with
  | nil =>
    intro n p
    cases n with
    | zero => rfl
    | succ n => rfl
  | pair _ ih =>
    intro n p
    cases n with
    | zero => rfl
    | succ n => simp [advance, next, ih]
  | lone hhead _ ih =>
    intro n p
    cases n with
    | zero => rfl
    | succ n =>
      rw [advance, ih]
      · simp [next]
      · intro rest hcs
        apply hhead
        rw [hcs, List.head?_cons]
  | @other c cs ds hc _ ih =>
    intro n p
    cases n with
    | zero => rfl
    | succ n =>
      by_cases hfeed : c = '\n'
      · subst hfeed
        simp [advance, next, ih]
      · rw [advance, ih]
        · simp [next, hfeed]
        · intro rest hreturn _
          exact hc hreturn
        · exact hc
        · exact hfeed

/-- Where a text without returns leads: a line further for each feed, and a column further
    for each character after the last feed. -/
def reached (text : List Char) : Position :=
  ⟨1 + text.count '\n', 1 + (text.reverse.takeWhile (· != '\n')).length⟩

theorem reached_concat (text : List Char) (c : Char) :
    reached (text ++ [c]) = (reached text).next c := by
  by_cases hfeed : c = '\n'
  · subst hfeed
    simp [reached, next, nextLine, Nat.add_assoc]
  · simp [reached, next, nextColumn, hfeed, Nat.add_assoc]

theorem foldl_next_reached (cs : List Char) :
    ∀ before : List Char, cs.foldl next (reached before) = reached (before ++ cs) := by
  induction cs with
  | nil => simp
  | cons c cs ih =>
    intro before
    calc cs.foldl next ((reached before).next c)
        = cs.foldl next (reached (before ++ [c])) := by rw [reached_concat]
      _ = reached ((before ++ [c]) ++ cs) := ih (before ++ [c])
      _ = reached (before ++ c :: cs) := by simp

/-- The position of an offset is where the text before it leads. -/
theorem advance_first (n : Nat) (cs : List Char) :
    advance n .first cs = reached ((normalize cs).take n) :=
  calc advance n .first cs
      = ((normalize cs).take n).foldl next (reached []) :=
        advance_of_unified (normalize_unified cs) n _
    _ = reached ((normalize cs).take n) := foldl_next_reached _ []

/-! ## Reading order -/

/-- On an earlier line, or further left on the same one. -/
def Before (p q : Position) : Prop := p.line < q.line ∨ p.line = q.line ∧ p.column < q.column

theorem Before.trans {p q r : Position} (h : p.Before q) (h' : q.Before r) : p.Before r := by
  unfold Before at *
  omega

theorem before_next (p : Position) (c : Char) : p.Before (p.next c) := by
  by_cases hfeed : c = '\n'
  · left
    simp [next, nextLine, hfeed]
  · right
    simp [next, nextColumn, hfeed]

theorem before_foldl_next (cs : List Char) :
    ∀ (p : Position) (c : Char), p.Before ((c :: cs).foldl next p) := by
  induction cs with
  | nil => exact before_next
  | cons d cs ih =>
    intro p c
    exact (before_next p c).trans (ih (p.next c) d)

/-- More text leads further. -/
theorem reached_before {text : List Char} {i j : Nat} (hij : i < j) (hj : j ≤ text.length) :
    (reached (text.take i)).Before (reached (text.take j)) := by
  have hbetween : ((text.drop i).take (j - i)).length = j - i := by
    rw [List.length_take, List.length_drop]
    omega
  have hsplit : text.take j = text.take i ++ (text.drop i).take (j - i) := by
    rw [← List.take_add, Nat.add_sub_cancel' (Nat.le_of_lt hij)]
  cases hcs : (text.drop i).take (j - i) with
  | nil =>
    rw [hcs, List.length_nil] at hbetween
    omega
  | cons c cs =>
    rw [hsplit, hcs, ← foldl_next_reached]
    exact before_foldl_next cs _ c

end Position

namespace Token

open Text

/-! ## Tokens in a source -/

/-- **Lines and columns fit the offsets.** Offsets count the characters of the text that two
    passes over the source make, the first over returns with a feed after them, the second
    over the returns that are left. A position on the raw source is where the text before its
    offset leads. So tokens come in the order of lines and columns. -/
theorem positions_fit_offsets (source : String) :
    let text := normalize source.toList
    text = (joinPairs source.toList).map feedForReturn ∧
    (∀ s : Span, s.position source = .reached (text.take s.start)) ∧
    (tokenize source).Pairwise fun t u =>
      (t.span.position source).Before (u.span.position source) := by
  intro text
  have hposition : ∀ s : Span, s.position source = .reached (text.take s.start) :=
    fun s => Position.advance_first s.start source.toList
  have htiles : Tiles 0 text (tokenize source) := tokenize_tiles source
  refine ⟨(normalize_unified _).two_passes.symm, hposition, ?_⟩
  refine htiles.ordered.2.imp_of_mem ?_
  rintro t u - hu ⟨hnonempty, hnext⟩
  obtain ⟨hordered, hbounded, -⟩ := htiles.slice [] rfl u hu
  rw [hposition t.span, hposition u.span]
  exact Position.reached_before (Nat.lt_of_lt_of_le hnonempty hnext)
    (Nat.le_trans hordered hbounded)

end Token

end Bello
