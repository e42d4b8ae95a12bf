import Bello.Proofs.Parse.Steps
import Bello.Proofs.Token.Lossless

/- The nodes of a program and the spans that they have.

   `Node` puts together all that has a span: items, statements, blocks, expressions and names.
   `Node.children` lists what lies directly inside a node, in the order in which it is written.
   A node is neat if its span goes from the start of a token to the end of a token, holds the
   spans of its children one after the other, and is the text of a name if the node is one.

   Readers make nodes from left to right, so what they keep is a row: nodes that are neat all
   through, one after another between two offsets. Around a row that lies in a span from token
   to token there fits a neat node (`Sound.of_row`). -/
namespace Bello

/-! ## Tokens of a source -/

/-- The token is one of the source that carries a meaning. -/
def Token.Of (source : String) (t : Token) : Prop :=
  t ∈ significant (tokenize source)

namespace Token.Of

variable {source : String} {t : Token}

theorem mem (h : t.Of source) : t ∈ tokenize source :=
  List.filter_sublist.subset ((List.takeWhile_sublist _).subset h)

theorem slice (h : t.Of source) :
    t.span.slice (Text.normalize source.toList) = t.lexeme.toList :=
  ((tokenize_tiles source).slice [] rfl t h.mem).2.2

/-- A token of the source has a text, so its span is not empty. -/
theorem solid (h : t.Of source) : t.span.start < t.span.stop := by
  have ht := h.mem
  have hinner : t.isEnd = false := by
    simpa using List.all_eq_true.1 List.all_takeWhile t h
  obtain ⟨body, htokens, hbody⟩ := (tokenize_tiles source).ends
  rw [htokens] at ht
  rcases List.mem_append.1 ht with hmem | hlast
  · -- An empty span would show an empty text.
    have hslice := h.slice
    refine Nat.lt_of_not_le fun hle => (hbody t hmem).1 ?_
    rw [Span.slice, Span.length, Nat.sub_eq_zero_of_le hle, List.take_zero] at hslice
    exact String.toList_inj.1 (by rw [← hslice]; rfl)
  · rw [List.mem_singleton.1 hlast] at hinner
    cases hinner

end Token.Of

/-! ## Nodes -/

/-- Of two spans one after the other, the first gives the start and the second the stop. -/
theorem Span.merge_of_le {s u : Span} (hs : s.start < s.stop) (hu : u.start < u.stop)
    (h : s.stop ≤ u.start) : s.merge u = ⟨s.start, u.stop⟩ := by
  rw [merge, Nat.min_eq_left (by omega), Nat.max_eq_right (by omega)]

def Stmt.span : Stmt → Span
  | .declare _ s | .assign _ _ s | .input _ s | .output _ s | .choose _ _ _ s
  | .repeatWhile _ _ s | .count _ _ _ _ s | .giveBack _ s | .evaluate _ s => s
  | .block b => b.span

def Item.span : Item → Span
  | .constant decl => decl.span
  | .function f => f.span
  | .statement s => s.span

/-- What has a span in a program. -/
inductive Node where
  | item (i : Item)
  | stmt (s : Stmt)
  | block (b : Block)
  | expr (e : Expr)
  | ident (name : Ident)

namespace Node

def span : Node → Span
  | item i => i.span
  | stmt s => s.span
  | block b => b.span
  | expr e => e.span
  | ident name => name.span

/-- The nodes directly inside a node, as they are written one after another. -/
def children : Node → List Node
  | item (.constant decl) => [ident decl.name]
  | item (.function f) => ident f.name :: f.params.map ident ++ [block f.body]
  | item (.statement s) => [stmt s]
  | stmt (.declare name _) | stmt (.input name _) => [ident name]
  | stmt (.assign target value _) => [ident target, expr value]
  | stmt (.output e _) | stmt (.giveBack e _) | stmt (.evaluate e _) => [expr e]
  | stmt (.choose condition yes no _) => expr condition :: block yes :: no.toList.map block
  | stmt (.repeatWhile condition body _) => [expr condition, block body]
  | stmt (.count counter first last body _) =>
    [ident counter, expr first, expr last, block body]
  | stmt (.block b) => [block b]
  | block b => b.statements.map stmt
  | expr (.unary _ operand _) => [expr operand]
  | expr (.binary _ left right _) => [expr left, expr right]
  | expr (.call callee args _) => ident callee :: args.map expr
  | expr (.var name) => [ident name]
  | expr (.number _ _) | expr (.constant _ _) | expr (.text _ _) => []
  | ident _ => []

/-- The name, if the node is one. -/
def name? : Node → Option Ident
  | ident name => some name
  | _ => none

/-- The second node is the first or lies somewhere inside it. -/
inductive Has : Node → Node → Prop where
  | self (n : Node) : Has n n
  | child {n m k : Node} : m ∈ n.children → Has m k → Has n k

/-- The first node ends before the second starts. -/
def Precedes (n m : Node) : Prop := n.span.stop ≤ m.span.start

/-- The span of the node goes from token to token, holds its children in order, and shows
    the name if the node is one. -/
structure Neat (source : String) (n : Node) : Prop where
  nonempty : n.span.start < n.span.stop
  start : ∃ t : Token, t.Of source ∧ t.span.start = n.span.start
  stop : ∃ t : Token, t.Of source ∧ t.span.stop = n.span.stop
  holds : ∀ m ∈ n.children, n.span.start ≤ m.span.start ∧ m.span.stop ≤ n.span.stop
  ordered : n.children.Pairwise Precedes
  shows : ∀ name : Ident, n = ident name →
    name.span.slice (Text.normalize source.toList) = name.name.toList

/-- The node and all that lies in it are neat. -/
def Sound (source : String) (n : Node) : Prop := ∀ m, n.Has m → m.Neat source

end Node

/-! ## Rows -/

variable {source : String}

/-- Nodes that are neat all through, one after another between two offsets. -/
inductive Row (source : String) : Nat → List Node → Nat → Prop where
  | nil {low high : Nat} : low ≤ high → Row source low [] high
  | cons {low high : Nat} {n : Node} {ns : List Node} : low ≤ n.span.start → n.Sound source →
      Row source n.span.stop ns high → Row source low (n :: ns) high

namespace Row

variable {low mid high : Nat} {n : Node} {ns ms : List Node}

theorem le (h : Row source low ns high) : low ≤ high := by
  induction h with
  | nil hle => exact hle
  | @cons low high n ns hlow hn _ ih =>
    have hsolid := (hn n (.self n)).nonempty
    omega

theorem lower (h : Row source low ns high) {low' : Nat} (hlow : low' ≤ low) :
    Row source low' ns high := by
  cases h with
  | nil hle => exact .nil (Nat.le_trans hlow hle)
  | cons hle hn hrest => exact .cons (Nat.le_trans hlow hle) hn hrest

theorem append (h : Row source low ns mid) (h' : Row source mid ms high) :
    Row source low (ns ++ ms) high := by
  induction h with
  | nil hle => exact h'.lower hle
  | cons hle hn _ ih => exact .cons hle hn (ih h')

theorem raise (h : Row source low ns mid) (hle : mid ≤ high) : Row source low ns high := by
  have := h.append (.nil hle)
  rwa [List.append_nil] at this

theorem singleton (hlow : low ≤ n.span.start) (hn : n.Sound source) (hhigh : n.span.stop ≤ high) :
    Row source low [n] high := .cons hlow hn (.nil hhigh)

theorem sound (h : Row source low ns high) : ∀ n ∈ ns, n.Sound source := by
  induction h with
  | nil => simp
  | cons _ hn _ ih => exact List.forall_mem_cons.2 ⟨hn, ih⟩

theorem between (h : Row source low ns high) :
    ∀ n ∈ ns, low ≤ n.span.start ∧ n.span.stop ≤ high := by
  induction h with
  | nil => simp
  | @cons low high n ns hlow hn hrest ih =>
    have hsolid := (hn n (.self n)).nonempty
    refine List.forall_mem_cons.2 ⟨⟨hlow, hrest.le⟩, fun m hm => ?_⟩
    have := ih m hm
    omega

theorem ordered (h : Row source low ns high) : ns.Pairwise Node.Precedes := by
  induction h with
  | nil => exact .nil
  | cons _ _ hrest ih => exact .cons (fun m hm => (hrest.between m hm).1) ih

end Row

namespace Node

/-- A node is sound if it is neat and its children are sound. -/
theorem Sound.of_children {n : Node} (hn : n.Neat source)
    (h : ∀ m ∈ n.children, m.Sound source) : n.Sound source := by
  intro k hk
  cases hk with
  | self => exact hn
  | child hm hk => exact h _ hm k hk

theorem Sound.neat {n : Node} (h : n.Sound source) : n.Neat source := h n (.self n)

/-- Around a row of nodes fits a node whose span goes from token to token. -/
theorem Sound.of_row {n : Node} {low high : Nat} (hspan : n.span = ⟨low, high⟩)
    (hlow : ∃ t : Token, t.Of source ∧ t.span.start = low)
    (hhigh : ∃ t : Token, t.Of source ∧ t.span.stop = high) (hlt : low < high)
    (hrow : Row source low n.children high) (hname : n.name? = none) : n.Sound source := by
  refine .of_children ⟨?_, ?_, ?_, ?_, hrow.ordered, fun name e => ?_⟩ hrow.sound
  · rw [hspan]; exact hlt
  · rw [hspan]; exact hlow
  · rw [hspan]; exact hhigh
  · rw [hspan]; exact hrow.between
  · rw [e] at hname
    cases hname

/-- A node without children that is one token. -/
theorem Sound.of_token {n : Node} {t : Token} (ht : t.Of source) (hspan : n.span = t.span)
    (hchildren : n.children = []) (hname : ∀ name ∈ n.name?, name.name = t.lexeme) :
    n.Sound source := by
  refine .of_children ⟨hspan ▸ ht.solid, ⟨t, ht, by rw [hspan]⟩, ⟨t, ht, by rw [hspan]⟩,
    by simp [hchildren], by simp [hchildren], ?_⟩ (by simp [hchildren])
  rintro name rfl
  rw [show name.span = t.span from hspan, ht.slice, hname name rfl]

end Node

end Bello
