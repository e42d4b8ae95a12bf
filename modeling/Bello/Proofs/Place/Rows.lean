import Bello.Proofs.Layout.Parse
import Bello.Proofs.Place.Nodes

/- Rows of nodes along a reader.

   `Gives x c Q` says of the reader `x` that, if it succeeds at the cursor `c`, then `Q` holds
   of its value and of the cursor that it leaves. What is followed along a reader is
   `c.Since source t ns`: since `t` was the next token it was taken, and the nodes in the row
   `ns` were read one after the other, all up to the last token taken. Small steps keep the row
   (`Skips`), readers of nodes add to it (`Appends`), and the end of a form puts one node in its
   place (`spanned_since`, `binaryNode_since`, `unaryNode_since`). -/
namespace Bello

/-! ## Cursors -/

/-- The tokens ahead are in order, after the last token taken, and are those of the source. -/
structure Cursor.Orderly (source : String) (c : Cursor) : Prop where
  ordered : (c.pending ++ [c.final]).Pairwise (·.span.stop ≤ ·.span.start)
  ahead : ∀ t ∈ c.pending ++ [c.final], c.previousStop ≤ t.span.start
  known : ∀ t ∈ c.pending, t.isTrivia = false → t.Of source
  final : c.final.isEnd = true
  behind : c.previousStop = 0 ∨ ∃ t : Token, t.Of source ∧ t.span.stop = c.previousStop

/-- The token was taken, and then the nodes were read, up to the last token taken. -/
structure Cursor.Since (source : String) (t : Token) (ns : List Node) (c : Cursor) : Prop where
  orderly : c.Orderly source
  taken : t.span.stop ≤ c.previousStop
  row : Row source t.span.start ns c.previousStop

namespace Cursor.Orderly

variable {source : String} {c : Cursor}

theorem mem_of_upcoming {t : Token} {rest : List Token} (hu : c.upcoming = t :: rest) :
    t ∈ c.pending := (List.dropWhile_sublist _).subset (by rw [← upcoming, hu]; simp)

theorem peek_of_upcoming {t : Token} {rest : List Token} (hu : c.upcoming = t :: rest) :
    c.peek = t := by simp [Cursor.peek, hu]

/-- A next token that is no end is one of the source. -/
theorem upcoming (h : c.Orderly source) (hn : c.peek.isEnd = false) :
    ∃ rest, c.upcoming = c.peek :: rest ∧ c.peek.Of source := by
  cases hu : c.upcoming with
  | nil =>
    rw [Cursor.peek, hu] at hn
    cases hn.symm.trans h.final
  | cons t rest =>
    rw [peek_of_upcoming hu]
    exact ⟨rest, rfl, h.known t (mem_of_upcoming hu) (not_isTrivia_of_upcoming hu)⟩

theorem le_peek (h : c.Orderly source) : c.previousStop ≤ c.peek.span.start := by
  refine h.ahead c.peek ?_
  cases hu : c.upcoming with
  | nil => simp [Cursor.peek, hu]
  | cons t rest =>
    rw [peek_of_upcoming hu]
    exact List.mem_append_left _ (mem_of_upcoming hu)

/-- The next token is taken, and those behind it come after it. -/
theorem advance (h : c.Orderly source) :
    c.advance.2.Orderly source ∧ c.previousStop ≤ c.advance.2.previousStop ∧
      (c.peek.isEnd = false → c.advance.2.previousStop = c.peek.span.stop) := by
  unfold Cursor.advance
  cases hu : c.upcoming with
  | nil =>
    have hpeek : c.peek = c.final := by simp [Cursor.peek, hu]
    refine ⟨⟨by simp, ?_, by simp, h.final, h.behind⟩, Nat.le_refl _, fun hn => ?_⟩
    · simpa using h.ahead c.final (by simp)
    · rw [hpeek, h.final] at hn
      cases hn
  | cons t rest =>
    have hmem := mem_of_upcoming hu
    have hknown := h.known t hmem (not_isTrivia_of_upcoming hu)
    have hsub : (t :: rest).Sublist c.pending := hu ▸ List.dropWhile_sublist _
    have hordered := h.ordered.sublist (hsub.append_right [c.final])
    rw [List.cons_append, List.pairwise_cons] at hordered
    have hlow := h.ahead t (List.mem_append_left _ hmem)
    have hsolid := hknown.solid
    refine ⟨⟨hordered.2, hordered.1, fun u hu' => ?_, h.final, .inr ⟨t, hknown, rfl⟩⟩, ?_, ?_⟩
    · exact h.known u (hsub.subset (List.mem_cons_of_mem _ hu'))
    · show c.previousStop ≤ t.span.stop
      omega
    · rw [peek_of_upcoming hu]
      exact fun _ => rfl

theorem ofSource (source : String) : (Cursor.ofSource source).Orderly source := by
  obtain ⟨body, n, htokens, hbody, hc⟩ := Cursor.ofSource_eq source
  have hordered := (Token.tokenize_tiles source).ordered.2.imp (fun h => h.2)
  rw [htokens] at hordered
  rw [hc]
  refine ⟨hordered, fun _ _ => Nat.zero_le _, fun t ht htrivia => ?_, rfl, .inl rfl⟩
  show t ∈ Token.significant (Token.tokenize source)
  rw [htokens, significant_concat_end body rfl, significant_of_inner hbody]
  exact List.mem_filter.2 ⟨ht, by simp [htrivia]⟩

end Cursor.Orderly

/-- What is read from the next token on comes after what was read before. -/
theorem Cursor.Since.append {source : String} {t : Token} {ns ms : List Node} {c c' : Cursor}
    (h : c.Since source t ns) (h' : c'.Since source c.peek ms) : c'.Since source t (ns ++ ms) := by
  have hlow := h.orderly.le_peek
  refine ⟨h'.orderly, ?_, h.row.append (h'.row.lower hlow)⟩
  calc t.span.stop ≤ c.previousStop := h.taken
    _ ≤ c.peek.span.start := hlow
    _ ≤ c'.previousStop := h'.row.le

theorem Token.Inner.isEnd {p : Token → Bool} (hp : Inner p) {t : Token} (h : p t = true) :
    t.isEnd = false := by
  cases hend : t.isEnd with
  | false => rfl
  | true =>
    rw [hp t (kind_of_isEnd hend)] at h
    cases h

namespace Parse

variable {α β : Type}

/-! ## What a reader gives -/

/-- If the reader succeeds at the cursor, `Q` holds of its value and of the cursor then. -/
def Gives (x : Parse α) (c : Cursor) (Q : α → Cursor → Prop) : Prop :=
  ∀ a c', x c = .ok a c' → Q a c'

namespace Gives

variable {x : Parse α} {f : α → Parse β} {c : Cursor} {P : α → Cursor → Prop}
  {Q : β → Cursor → Prop}

theorem pure' {b : β} (h : Q b c) : Gives (pure b) c Q := by
  rintro b' c' ⟨⟩
  exact h

theorem throw' {e : Error} : Gives (throw e : Parse β) c Q := by
  intro b c' h
  cases h

theorem bind' (hx : Gives x c P) (hf : ∀ a c', P a c' → Gives (f a) c' Q) :
    Gives (x >>= f) c Q := by
  intro b c' h
  change EStateM.bind x f c = .ok b c' at h
  unfold EStateM.bind at h
  cases hr : x c with
  | ok a c₁ =>
    rw [hr] at h
    exact hf a c₁ (hx a c₁ hr) b c' h
  | error e c₁ =>
    rw [hr] at h
    cases h

/-- A look ahead moves nothing. -/
theorem peek' {f : Token → Parse β} (h : Gives (f c.peek) c Q) : Gives (peek >>= f) c Q := h

theorem fail' {cause : Cause} {s : Span} : Gives (fail cause s) c Q := throw'

theorem unexpected' {expected : String} : Gives (unexpected expected) c Q := by
  refine .peek' ?_
  split
  · exact .fail'
  · exact .fail'
  · exact .fail'

theorem tooDeep' : Gives tooDeep c Q := .peek' .fail'

end Gives

variable {source : String} {t : Token} {ns : List Node} {c : Cursor}

/-- The reader takes tokens and leaves the row as it is. -/
def Skips (source : String) (x : Parse α) : Prop :=
  ∀ ⦃t : Token⦄ ⦃ns : List Node⦄ ⦃c : Cursor⦄, c.Since source t ns →
    Gives x c (fun _ c' => c'.Since source t ns)

/-- The reader adds nodes to the row. -/
def Appends (source : String) (nodes : α → List Node) (x : Parse α) : Prop :=
  ∀ ⦃t : Token⦄ ⦃ns : List Node⦄ ⦃c : Cursor⦄, c.Since source t ns →
    Gives x c (fun a c' => c'.Since source t (ns ++ nodes a))

/-- The reader takes the next token and makes a node that starts with it or after it. -/
def Spans (source : String) (node : α → Node) (x : Parse α) : Prop :=
  ∀ ⦃c : Cursor⦄, c.Orderly source → Gives x c (fun a c' => c'.Since source c.peek [node a])

/-- So does the reader of a form, if the next token is no end. -/
def Forms (source : String) (node : α → Node) (x : Parse α) : Prop :=
  ∀ ⦃c : Cursor⦄, c.Orderly source → c.peek.isEnd = false →
    Gives x c (fun a c' => c'.Since source c.peek [node a])

theorem Spans.appends {node : α → Node} {x : Parse α} (h : Spans source node x) :
    Appends source (fun a => [node a]) x := by
  intro t ns c hc a c' hr
  exact hc.append (h hc.orderly a c' hr)

/-! ## Steps -/

theorem advance_skips : Skips source advance := by
  rintro t ns c hc u c' ⟨⟩
  obtain ⟨horderly, hle, -⟩ := hc.orderly.advance
  exact ⟨horderly, Nat.le_trans hc.taken hle, hc.row.raise hle⟩

/-- The next token is taken, with nothing read before it. -/
theorem advance_takes (hc : c.Orderly source) (hn : c.peek.isEnd = false) :
    Gives advance c (fun t c' => t = c.peek ∧ c.peek.Of source ∧ c'.Since source c.peek []) := by
  rintro t c' ⟨⟩
  obtain ⟨rest, hu, hof⟩ := hc.upcoming hn
  obtain ⟨horderly, -, hstop⟩ := hc.advance
  have htaken : c.advance.1 = c.peek := by simp only [Cursor.advance, hu]
  refine ⟨htaken, hof, horderly, Nat.le_of_eq (hstop hn).symm, .nil ?_⟩
  rw [hstop hn]
  exact Nat.le_of_lt hof.solid

/-- So a form can begin with its first token. -/
theorem advance_begins (hc : c.Orderly source) (hn : c.peek.isEnd = false) {f : Token → Parse β}
    {Q : β → Cursor → Prop} (h : ∀ c', c.peek.Of source → c'.Since source c.peek [] →
      Gives (f c.peek) c' Q) : Gives (advance >>= f) c Q := by
  refine .bind' (advance_takes hc hn) (fun t c' ht => ?_)
  obtain ⟨rfl, hof, hsince⟩ := ht
  exact h c' hof hsince

theorem accept_skips (p : Token → Bool) : Skips source (accept p) := by
  intro t ns c hc
  refine .peek' ?_
  split
  · exact .bind' (advance_skips hc) (fun _ _ h => .pure' h)
  · exact .pure' hc

theorem expect_skips (p : Token → Bool) (what : String) : Skips source (expect p what) := by
  intro t ns c hc
  refine .peek' ?_
  split
  · exact advance_skips hc
  · exact .unexpected'

/-- A form can also begin with a token that has to be there. -/
theorem expect_begins {p : Token → Bool} (hp : Token.Inner p) (what : String)
    (hc : c.Orderly source) {f : Token → Parse β} {Q : β → Cursor → Prop}
    (h : ∀ c', c.peek.Of source → c'.Since source c.peek [] → Gives (f c.peek) c' Q) :
    Gives (expect p what >>= f) c Q := by
  have htakes : Gives (expect p what) c
      (fun t c' => t = c.peek ∧ c.peek.Of source ∧ c'.Since source c.peek []) := by
    refine .peek' ?_
    split
    · next hpeek => exact advance_takes hc (hp.isEnd hpeek)
    · exact .unexpected'
  refine .bind' htakes (fun t c' ht => ?_)
  obtain ⟨rfl, hof, hsince⟩ := ht
  exact h c' hof hsince

theorem expectTypeTag_skips : Skips source expectTypeTag := by
  intro t ns c hc
  refine .peek' ?_
  split
  · split
    · exact .bind' (advance_skips hc) (fun _ _ h => .pure' h)
    · exact .fail'
  · exact .unexpected'

theorem expectStatementEnd_skips : Skips source expectStatementEnd :=
  fun _ _ _ hc => .bind' (expect_skips _ _ hc) (fun _ _ h => .pure' h)

theorem numberValue_skips (u : Token) : Skips source (numberValue u) := by
  intro t ns c hc
  unfold numberValue
  split
  · exact .pure' hc
  · exact .fail'

theorem binaryOperator_skips : ∀ choices : List (Operator × BinaryOp),
    Skips source (binaryOperator choices)
  | [] => fun _ _ _ hc => .pure' hc
  | (word, op) :: choices => by
    intro t ns c hc
    refine .bind' (accept_skips _ hc) (fun taken c' h => ?_)
    split
    · exact .pure' h
    · exact binaryOperator_skips choices h

theorem orderOperator_skips : Skips source orderOperator := by
  have hcon : ∀ yes no : BinaryOp, Skips source
      (do if ← acceptOperator .con then pure (some yes) else pure (some no)) := by
    intro yes no t ns c hc
    refine .bind' (accept_skips _ hc) (fun taken c' h => ?_)
    split
    · exact .pure' h
    · exact .pure' h
  intro t ns c hc
  refine .bind' (accept_skips _ hc) (fun taken c h => ?_)
  split
  · exact .pure' h
  refine .bind' (accept_skips _ h) (fun taken c h => ?_)
  split
  · exact hcon .le .lt h
  refine .bind' (accept_skips _ h) (fun taken c h => ?_)
  split
  · exact .bind' (expect_skips _ _ h) (fun _ c h => hcon .ge .gt h)
  · exact .pure' h

/-! ## Nodes -/

/-- One node takes the place of all that was read. -/
theorem replace_since (h : c.Since source t ns) {n : Node} {low high : Nat}
    (hspan : n.span = ⟨low, high⟩) (hn : n.Sound source) (hlow : t.span.start ≤ low)
    (hhigh : high ≤ c.previousStop) : c.Since source t [n] :=
  ⟨h.orderly, h.taken, .singleton (by rw [hspan]; exact hlow) hn (by rw [hspan]; exact hhigh)⟩

/-- The token just taken is a node by itself. -/
theorem leaf_since (ht : t.Of source) (h : c.Since source t []) {n : Node}
    (hspan : n.span = t.span) (hchildren : n.children = [])
    (hname : ∀ name ∈ n.name?, name.name = t.lexeme) : c.Since source t [n] :=
  replace_since h hspan (.of_token ht hspan hchildren hname) (Nat.le_refl _) h.taken

/-- A node can have another as its one child, with the same span. -/
theorem wrap_since {m n : Node} (h : c.Since source t [m]) (hspan : n.span = m.span)
    (hchildren : n.children = [m]) (hname : n.name? = none) : c.Since source t [n] := by
  cases h.row with | cons hlow hm hlast =>
  have hrow : Row source m.span.start n.children m.span.stop := by
    rw [hchildren]
    exact .singleton (Nat.le_refl _) hm (Nat.le_refl _)
  have hn : n.Sound source :=
    .of_row hspan hm.neat.start hm.neat.stop hm.neat.nonempty hrow hname
  exact replace_since h hspan hn hlow hlast.le

theorem expectIdent_spans (what : String) : Spans source .ident (expectIdent what) := by
  intro c hc
  refine expect_begins Token.inner_identifier what hc (fun c' hof h => ?_)
  exact .pure' (leaf_since hof h rfl rfl (by rintro name ⟨⟩; rfl))

/-- The nodes that were read become the children of a node up to the last token taken. -/
theorem parent_since (ht : t.Of source) (h : c.Since source t ns) {n : Node}
    (hspan : n.span = ⟨t.span.start, c.previousStop⟩) (hchildren : n.children = ns)
    (hname : n.name? = none) : c.Since source t [n] := by
  have hlt : t.span.start < c.previousStop := Nat.lt_of_lt_of_le ht.solid h.taken
  have hstop : ∃ u : Token, u.Of source ∧ u.span.stop = c.previousStop := by
    rcases h.orderly.behind with hzero | hbehind
    · omega
    · exact hbehind
  exact replace_since h hspan (.of_row hspan ⟨t, ht, rfl⟩ hstop hlt (hchildren ▸ h.row) hname)
    (Nat.le_refl _) (Nat.le_refl _)

/-- The end of a form that carries a span of its own. -/
theorem spanned_since (ht : t.Of source) (h : c.Since source t ns) {make : Span → α}
    {node : α → Node} (hspan : ∀ s, (node (make s)).span = s)
    (hchildren : ∀ s, (node (make s)).children = ns)
    (hname : ∀ s, (node (make s)).name? = none) :
    Gives (do pure (make (← spanFrom t.span))) c (fun a c' => c'.Since source t [node a]) := by
  rintro a c' ⟨⟩
  refine parent_since ht h ?_ (hchildren _) (hname _)
  rw [hspan, Nat.max_eq_left h.taken]

theorem binaryNode_since (op : BinaryOp) {l r : Expr}
    (h : c.Since source t [.expr l, .expr r]) : c.Since source t [.expr (binaryNode op l r)] := by
  cases h.row with | cons hlow hl hrest =>
  cases hrest with | cons hbetween hr hlast =>
  have hl' := hl.neat.nonempty
  have hr' := hr.neat.nonempty
  have hspan : (Node.expr (binaryNode op l r)).span = ⟨l.span.start, r.span.stop⟩ :=
    Span.merge_of_le hl' hr' hbetween
  have hlt : l.span.start < r.span.stop :=
    Nat.lt_of_lt_of_le hl' (Nat.le_trans hbetween (Nat.le_of_lt hr'))
  have hrow : Row source l.span.start [.expr l, .expr r] r.span.stop :=
    .cons (Nat.le_refl _) hl (.singleton hbetween hr (Nat.le_refl _))
  exact replace_since h hspan (.of_row hspan hl.neat.start hr.neat.stop hlt hrow rfl)
    hlow hlast.le

/-- An operator and the operand that was read after it. -/
theorem unaryNode_since (op : UnaryOp) {c' : Cursor} {e : Expr} (ht : t.Of source)
    (h : c.Since source t []) (he : c'.Since source c.peek [.expr e]) :
    c'.Since source t [.expr (unaryNode op t.span e)] := by
  cases he.row with | cons hlow hnode hlast =>
  have hsolid := ht.solid
  have he' := hnode.neat.nonempty
  have hbetween : t.span.stop ≤ e.span.start :=
    Nat.le_trans h.taken (Nat.le_trans h.orderly.le_peek hlow)
  have hspan : (Node.expr (unaryNode op t.span e)).span = ⟨t.span.start, e.span.stop⟩ :=
    Span.merge_of_le hsolid he' hbetween
  have hlt : t.span.start < e.span.stop :=
    Nat.lt_of_lt_of_le hsolid (Nat.le_trans hbetween (Nat.le_of_lt he'))
  have hrow : Row source t.span.start [.expr e] e.span.stop :=
    .singleton (Nat.le_trans (Nat.le_of_lt hsolid) hbetween) hnode (Nat.le_refl _)
  exact replace_since (h.append he) hspan
    (.of_row hspan ⟨t, ht, rfl⟩ hnode.neat.stop hlt hrow rfl) (Nat.le_refl _) hlast.le

/-- A form takes its first token, and the rest of it makes a node that starts there. -/
theorem begin_forms {node : α → Node} {f : Token → Parse α}
    (h : ∀ {t : Token} {c : Cursor}, t.Of source → c.Since source t [] →
      Gives (f t) c (fun a c' => c'.Since source t [node a])) :
    Forms source node (advance >>= f) := by
  intro c hc hinner
  exact advance_begins hc hinner (fun c' hof hbegun => h hof hbegun)

/-! ## Repetition -/

theorem repeatUpTo_appends {node : α → Node} {step : Parse (Option α)}
    (h : Appends source (fun o => o.toList.map node) step) : ∀ (n : Nat) (done : List α) {c},
    c.Since source t (ns ++ done.reverse.map node) →
    Gives (repeatUpTo step n done) c (fun as c' => c'.Since source t (ns ++ as.map node))
  | 0, done, c, hc => .pure' hc
  | n + 1, done, c, hc => by
    refine .bind' (h hc) (fun o c' ho => ?_)
    cases o with
    | none =>
      refine .pure' ?_
      simpa using ho
    | some a =>
      refine repeatUpTo_appends h n (a :: done) ?_
      simpa using ho

theorem many_appends {node : α → Node} {step : Parse (Option α)}
    (h : Appends source (fun o => o.toList.map node) step) :
    Appends source (fun as => as.map node) (many step) := by
  intro t ns c hc
  exact repeatUpTo_appends h (c.pending.length + 1) [] (by simpa using hc)

/-- A round that yields the value of a reader. -/
theorem round_appends {node : α → Node} {x : Parse α} (hx : Spans source node x) :
    Appends source (fun o => o.toList.map node) (do let a ← x; pure (some a)) :=
  fun _ _ _ hc => .bind' (hx.appends hc) (fun _ _ h => .pure' h)

end Parse

end Bello
