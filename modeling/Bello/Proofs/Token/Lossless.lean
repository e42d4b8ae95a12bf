import Bello.Token.Lexer

/- Cutting a source into tokens loses nothing.

   `Tiles offset cs ts` says that the tokens `ts` cover the characters `cs` piece by piece: each
   but the last takes at least one character, and the next one starts where it ends. A call of
   the lexer is at the end or moves on and gives what it moved over (`nextToken_cases`), so the
   tokens of a source tile its text with line endings normalized (`tokenize_tiles`). Each fact
   about tokens and text is then one induction over `Tiles`: the lexemes put together are the
   text, spans follow each other without a gap, and each lexeme is the text at its span. -/
namespace Bello

namespace Text

/-! ## Line endings -/

/-- The second text is the first with every line ending written as one line feed: a return
    and a feed, or a return with no feed after it. -/
inductive Unified : List Char → List Char → Prop where
  | nil : Unified [] []
  | pair {cs ds : List Char} : Unified cs ds → Unified ('\r' :: '\n' :: cs) ('\n' :: ds)
  | lone {cs ds : List Char} :
      cs.head? ≠ some '\n' → Unified cs ds → Unified ('\r' :: cs) ('\n' :: ds)
  | other {c : Char} {cs ds : List Char} :
      c ≠ '\r' → Unified cs ds → Unified (c :: cs) (c :: ds)

theorem normalize_unified (cs : List Char) : Unified cs (normalize cs) := by
  -- The accumulator of the definition only grows at its end, so any will do.
  suffices h : ∀ done : List Char, ∃ ds, normalizeOnto done cs = done.reverse ++ ds ∧
      Unified cs ds by
    obtain ⟨ds, e, hds⟩ := h []
    rw [normalize, e]
    exact hds
  intro done
  fun_induction normalizeOnto done cs with
  | case1 done => exact ⟨[], (List.append_nil _).symm, .nil⟩
  | case2 done cs ih =>
    obtain ⟨ds, e, hds⟩ := ih
    exact ⟨'\n' :: ds, by simp [e], .pair hds⟩
  | case3 done cs hcs ih =>
    obtain ⟨ds, e, hds⟩ := ih
    refine ⟨'\n' :: ds, by simp [e], .lone (fun hhead => ?_) hds⟩
    obtain ⟨rest, rfl⟩ := List.head?_eq_some_iff.1 hhead
    exact hcs rest rfl
  | case4 done c cs hpair hlone ih =>
    obtain ⟨ds, e, hds⟩ := ih
    exact ⟨c :: ds, by simp [e], .other hlone hds⟩

/-- No return is left. -/
theorem Unified.no_return {cs ds : List Char} (h : Unified cs ds) : '\r' ∉ ds := by
  induction h with
  | nil => exact List.not_mem_nil
  | pair _ ih => simpa using ih
  | lone _ _ ih => simpa using ih
  | other hc _ ih =>
    rw [List.mem_cons, not_or]
    exact ⟨hc.symm, ih⟩

/-- A text without returns stays as it is. -/
theorem normalize_of_no_return : ∀ {cs : List Char}, '\r' ∉ cs → normalize cs = cs
  | [], _ => rfl
  | c :: cs, h => by
    rw [List.mem_cons, not_or] at h
    rw [normalize_cons c cs (Ne.symm h.1), normalize_of_no_return h.2]

end Text

/-- The characters of a text at a span. -/
def Span.slice (s : Span) (text : List Char) : List Char := (text.drop s.start).take s.length

namespace Token

open Text

/-! ## Tokens that cover a text -/

/-- The tokens cover the characters, from the given offset on, and then comes the end. -/
inductive Tiles : Nat → List Char → List Token → Prop where
  | nil (offset : Nat) : Tiles offset [] [endOfInput offset]
  | cons {offset : Nat} {w rest : List Char} {kind : Kind} {ts : List Token} :
      w ≠ [] → kind ≠ .endOfInput → Tiles (offset + w.length) rest ts →
      Tiles offset (w ++ rest) (⟨kind, String.ofList w, ⟨offset, offset + w.length⟩⟩ :: ts)

namespace Tiles

variable {offset : Nat} {cs : List Char} {ts : List Token}

theorem lexemes (h : Tiles offset cs ts) : ts.flatMap (·.lexeme.toList) = cs := by
  induction h with
  | nil offset => rfl
  | cons _ _ _ ih => simp [ih, String.toList_ofList]

theorem starts (h : Tiles offset cs ts) : ∃ t rest, ts = t :: rest ∧ t.span.start = offset := by
  cases h with
  | nil => exact ⟨_, _, rfl, rfl⟩
  | cons _ _ _ => exact ⟨_, _, rfl, rfl⟩

theorem consecutive (h : Tiles offset cs ts) : ∀ (i : Nat) (t t' : Token),
    ts[i]? = some t → ts[i + 1]? = some t' → t'.span.start = t.span.stop := by
  induction h with
  | nil offset =>
    intro i t t' _ ht'
    simp at ht'
  | cons _ _ hrest ih =>
    intro i t t' ht ht'
    rw [List.getElem?_cons_succ] at ht'
    cases i with
    | zero =>
      obtain ⟨next, rest, rfl, hnext⟩ := hrest.starts
      cases ht
      cases ht'
      exact hnext
    | succ i => exact ih i t t' ht ht'

/-- The text may be a part of a longer one, which the offset counts from. -/
theorem slice (h : Tiles offset cs ts) : ∀ before : List Char, before.length = offset →
    ∀ t ∈ ts, t.span.start ≤ t.span.stop ∧ t.span.stop ≤ (before ++ cs).length ∧
      t.span.slice (before ++ cs) = t.lexeme.toList := by
  induction h with
  | nil offset =>
    rintro before rfl t ht
    rw [List.mem_singleton.1 ht]
    simp [endOfInput, Span.point, Span.slice, Span.length]
  | @cons offset w rest kind ts _ _ _ ih =>
    rintro before rfl t ht
    rcases List.mem_cons.1 ht with rfl | ht
    · refine ⟨Nat.le_add_right _ _, by simp, ?_⟩
      simp only [Span.slice, Span.length, Nat.add_sub_cancel_left, String.toList_ofList]
      rw [List.drop_left, List.take_left]
    · have hrest := ih (before ++ w) (by simp) t ht
      rwa [List.append_assoc] at hrest

theorem ends (h : Tiles offset cs ts) :
    ∃ body, ts = body ++ [endOfInput (offset + cs.length)] ∧
      ∀ t ∈ body, t.lexeme ≠ "" ∧ t.isEnd = false := by
  induction h with
  | nil offset => exact ⟨[], rfl, by simp⟩
  | @cons offset w rest kind ts hw hkind _ ih =>
    obtain ⟨body, hts, hbody⟩ := ih
    rw [Nat.add_assoc, ← List.length_append] at hts
    refine ⟨_ :: body, by rw [hts, List.cons_append], fun t ht => ?_⟩
    rcases List.mem_cons.1 ht with rfl | ht
    · exact ⟨by simpa [← String.toList_inj] using hw, by simpa [isEnd] using hkind⟩
    · exact hbody t ht

/-- Each token but the last takes a character. -/
theorem length_le (h : Tiles offset cs ts) : ts.length ≤ cs.length + 1 := by
  induction h with
  | nil => simp
  | cons hw _ _ ih =>
    have hpos := List.length_pos_iff.2 hw
    rw [List.length_cons, List.length_append]
    omega

/-- Tokens come one after another, and those before others have characters. -/
theorem ordered (h : Tiles offset cs ts) :
    (∀ t ∈ ts, offset ≤ t.span.start) ∧
      ts.Pairwise fun t u => t.span.start < t.span.stop ∧ t.span.stop ≤ u.span.start := by
  induction h with
  | nil offset => simp [endOfInput, Span.point]
  | @cons offset w rest kind ts hw _ _ ih =>
    obtain ⟨hstarts, hpairs⟩ := ih
    have hpos := List.length_pos_iff.2 hw
    refine ⟨?_, List.pairwise_cons.2 ⟨?_, hpairs⟩⟩
    · intro t ht
      rcases List.mem_cons.1 ht with rfl | ht
      · exact Nat.le_refl offset
      · exact Nat.le_trans (Nat.le_add_right offset w.length) (hstarts t ht)
    · intro t ht
      exact ⟨Nat.lt_add_of_pos_right hpos, hstarts t ht⟩

end Tiles

end Token

/-! ## The tokens of a lexer -/

namespace Lexer

open Text Token

/-- The characters that are left. -/
def rest (l : Lexer) : List Char := l.source.toList.drop l.pos

theorem peek_eq (l : Lexer) : l.peek = l.rest.head? := by
  rw [rest, List.head?_drop, Array.getElem?_toList]
  rfl

section Ahead

variable {l l' : Lexer} {n : Nat}

/-- What is left after moving on. -/
theorem Ahead.rest (h : l.Ahead l') (hn : l'.pos = l.pos + n) : l'.rest = l.rest.drop n := by
  rw [Lexer.rest, Lexer.rest, h.source, hn, List.drop_drop]

/-- All that was moved over is there. -/
theorem Ahead.length_take (h : l.Ahead l') (hn : l'.pos = l.pos + n) :
    (l.rest.take n).length = n := by
  have hbound : l'.pos ≤ l.source.size := h.source ▸ l'.pos_le
  rw [Lexer.rest, List.length_take, List.length_drop, Array.length_toList]
  omega

/-- The lexeme is what was moved over since the token began. -/
theorem Ahead.lexeme (h : l.Ahead l') (hn : l'.pos = l.pos + n) (hstart : l.start = l.pos) :
    l'.lexeme = String.ofList (l.rest.take n) := by
  have htaken : l.pos + n - l.pos = n := by omega
  rw [Lexer.lexeme, h.source, h.start, hstart, hn, Array.toList_extract,
    List.extract_eq_take_drop, Lexer.rest, htaken]

end Ahead

/-- What a routine moved over stands before what it left, and it is the token. -/
theorem Reads.split {l : Lexer} {r : Token × Lexer} (h : l.begin.Reads r) :
    ∃ w kind, w ≠ [] ∧ kind ≠ .endOfInput ∧ l.rest = w ++ r.2.rest ∧
      r.2.pos = l.pos + w.length ∧
      r.1 = ⟨kind, String.ofList w, ⟨l.pos, l.pos + w.length⟩⟩ := by
  obtain ⟨kind, hkind, htoken⟩ := h.token
  have hprogress : l.pos < r.2.pos := h.progress
  obtain ⟨n, hn⟩ : ∃ n, r.2.pos = l.begin.pos + n :=
    ⟨r.2.pos - l.pos, (Nat.add_sub_of_le (Nat.le_of_lt hprogress)).symm⟩
  have hlength : (l.rest.take n).length = n := h.ahead.length_take hn
  have hpos : r.2.pos = l.pos + n := hn
  refine ⟨l.rest.take n, kind, ?_, hkind, ?_, by rw [hlength, hpos], ?_⟩
  · apply List.ne_nil_of_length_pos
    omega
  · rw [h.ahead.rest hn]
    exact (List.take_append_drop n l.rest).symm
  · rw [htoken, makeToken, h.ahead.lexeme hn rfl, h.ahead.start, hlength, hpos]
    rfl

/-- The tokens are the answers to the calls from here on, up to the first end. -/
inductive Lexed : Lexer → List Token → Prop where
  | last {l : Lexer} : l.peek = none → Lexed l [endOfInput l.pos]
  | call {l : Lexer} {ts : List Token} : l.begin.Reads l.nextToken → Lexed l.nextToken.2 ts →
      Lexed l (l.nextToken.1 :: ts)

theorem collect_lexed (tokens : Array Token) (l : Lexer) :
    ∃ ts, (l.collect tokens).toList = tokens.toList ++ ts ∧ l.Lexed ts := by
  fun_induction collect tokens l with
  | case1 tokens l hend =>
    rcases nextToken_cases l with ⟨hpeek, e⟩ | hreads
    · exact ⟨[endOfInput l.pos], by rw [e, Array.toList_push], .last hpeek⟩
    · obtain ⟨kind, hkind, htoken⟩ := hreads.token
      rw [htoken] at hend
      exact absurd (by simpa [isEnd, makeToken] using hend) hkind
  | case2 tokens l hend ih =>
    obtain ⟨ts, hts, hlexed⟩ := ih
    rcases nextToken_cases l with ⟨-, e⟩ | hreads
    · rw [e] at hend
      exact absurd rfl hend
    · refine ⟨l.nextToken.1 :: ts, ?_, .call hreads hlexed⟩
      rw [hts, Array.toList_push, List.append_assoc]
      rfl

/-- The lexer after a number of calls. -/
def after (l : Lexer) : Nat → Lexer
  | 0 => l
  | n + 1 => (l.after n).nextToken.2

theorem after_nextToken (l : Lexer) (n : Nat) : l.nextToken.2.after n = l.after (n + 1) := by
  induction n with
  | zero => rfl
  | succ n ih =>
    rw [after, ih]
    rfl

namespace Lexed

variable {l : Lexer} {ts : List Token}

theorem tiles (h : l.Lexed ts) : Tiles l.pos l.rest ts := by
  induction h with
  | @last l hpeek =>
    rw [peek_eq, List.head?_eq_none_iff] at hpeek
    rw [hpeek]
    exact .nil l.pos
  | call hreads _ ih =>
    obtain ⟨w, kind, hw, hkind, hrest, hpos, htoken⟩ := hreads.split
    rw [hpos] at ih
    rw [hrest, htoken]
    exact .cons hw hkind ih

theorem answers (h : l.Lexed ts) : ∀ (i : Nat) (t : Token), ts[i]? = some t →
    t = (l.after i).nextToken.1 := by
  induction h with
  | @last l hpeek =>
    intro i t ht
    cases i with
    | zero =>
      cases ht
      rw [after, nextToken, hpeek]
    | succ i => cases ht
  | call _ _ ih =>
    intro i t ht
    cases i with
    | zero =>
      cases ht
      rfl
    | succ i =>
      rw [← after_nextToken]
      exact ih i t ht

end Lexed

end Lexer

namespace Token

open Text

theorem tokenize_lexed (source : String) : (Lexer.ofSource source).Lexed (tokenize source) := by
  obtain ⟨ts, hts, hlexed⟩ := Lexer.collect_lexed #[] (Lexer.ofSource source)
  rw [tokenize, hts]
  exact hlexed

theorem tokenize_tiles (source : String) :
    Tiles 0 (normalize source.toList) (tokenize source) := (tokenize_lexed source).tiles

/-- **Cutting loses nothing and comes to an end.** The tokens of a source are the answers to
    the first calls of its lexer, up to the first end, and there are no more of these calls
    than characters in the normalized text, and one. They cover the text without gap or
    overlap: put together, their lexemes are the text, each stands where the one before it
    ends and is the text at its span. All of them take at least a character but the last,
    which is the end of the input. -/
theorem tokenize_lossless (source : String) :
    let text := normalize source.toList
    let tokens := tokenize source
    Unified source.toList text ∧
    tokens.length ≤ text.length + 1 ∧
    (∀ (i : Nat) (t : Token), tokens[i]? = some t →
      t = ((Lexer.ofSource source).after i).nextToken.1) ∧
    tokens.flatMap (·.lexeme.toList) = text ∧
    tokens.head?.map (·.span.start) = some 0 ∧
    (∀ (i : Nat) (t t' : Token), tokens[i]? = some t → tokens[i + 1]? = some t' →
      t'.span.start = t.span.stop) ∧
    (∀ t ∈ tokens, t.span.start ≤ t.span.stop ∧ t.span.stop ≤ text.length ∧
      t.span.slice text = t.lexeme.toList) ∧
    ∃ body, tokens = body ++ [endOfInput text.length] ∧
      ∀ t ∈ body, t.lexeme ≠ "" ∧ t.kind ≠ .endOfInput := by
  intro text tokens
  have htiles : Tiles 0 text tokens := tokenize_tiles source
  obtain ⟨body, hend, hbody⟩ := htiles.ends
  obtain ⟨first, rest, hfirst, hstart⟩ := htiles.starts
  refine ⟨normalize_unified _, htiles.length_le, (tokenize_lexed source).answers,
    htiles.lexemes, ?_, htiles.consecutive, htiles.slice [] rfl, body, ?_, ?_⟩
  · rw [hfirst, List.head?_cons, Option.map_some, hstart]
  · rw [hend, Nat.zero_add]
  · intro t ht
    obtain ⟨hlexeme, hkind⟩ := hbody t ht
    exact ⟨hlexeme, by simpa [isEnd] using hkind⟩

end Token

end Bello
