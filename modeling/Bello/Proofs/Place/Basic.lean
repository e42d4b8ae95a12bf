import Bello.Error
import Bello.Proofs.Token.Lossless
import Bello.Syntax.Basic

/- What it means for an error to point at the text that it speaks of.

   A span shows a word if the text at the span is that word, and opens with it if the word
   comes first there. `Cause.Fits text s` says for each cause which of the two its span
   has to do, if any. Errors take their spans from trees, and trees from tokens, so the same
   is said of tokens and trees (`Placed`): names show themselves, and a call opens with the
   name that it calls. -/
namespace Bello

/-! ## Spans and the text at them -/

namespace Span

variable {text : List Char} {s t : Span} {word : String}

/-- The span lies in the text. -/
structure Within (text : List Char) (s : Span) : Prop where
  ordered : s.start ≤ s.stop
  bounded : s.stop ≤ text.length

/-- The text at the span is the word. -/
structure Shows (text : List Char) (word : String) (s : Span) : Prop extends Within text s where
  word : s.slice text = word.toList

/-- The text at the span starts with the word. -/
structure Opens (text : List Char) (word : String) (s : Span) : Prop extends Within text s where
  word : word.toList <+: s.slice text

theorem Within.merge (hs : s.Within text) (ht : t.Within text) : (s.merge t).Within text := by
  refine ⟨?_, Nat.max_le.2 ⟨hs.bounded, ht.bounded⟩⟩
  calc min s.start t.start ≤ s.start := Nat.min_le_left ..
    _ ≤ s.stop := hs.ordered
    _ ≤ max s.stop t.stop := Nat.le_max_left ..

/-- The span reaches from where the other starts to its end or further. -/
structure Reaches (text : List Char) (s t : Span) : Prop extends Within text s where
  start : s.start = t.start
  stop : t.stop ≤ s.stop

/-- More text after a word leaves it in front. -/
theorem Shows.opens (h : t.Shows text word) (hs : s.Reaches text t) : s.Opens text word := by
  refine ⟨hs.toWithin, ?_⟩
  have hlength : t.length ≤ s.length := by
    have hstart := hs.start
    have hstop := hs.stop
    unfold Span.length
    omega
  rw [← h.word, slice, slice, hs.start]
  exact List.take_prefix_take_left hlength

end Span

/-! ## Errors -/

/-- The cause fits the text at the span: the name or lexeme that its message quotes stands
    there, or a call of the function that it names. -/
def Cause.Fits (text : List Char) (s : Span) : Cause → Prop
  | unknownVariable name | unknownFunction name | constantReassignment name
  | duplicateDeclaration name | unsupportedType name => s.Shows text name
  | malformedNumber lexeme | invalidNumber lexeme => s.Shows text lexeme
  | unexpectedToken _ kind lexeme =>
    s.Shows text lexeme ∧ Token.describe kind lexeme = s!"'{lexeme}' ({kind.name})"
  | arityMismatch name _ _ | missingReturn name | callLimit name _ => s.Opens text name
  | _ => s.Within text

theorem Cause.Fits.within {text : List Char} {s : Span} {c : Cause} (h : c.Fits text s) :
    s.Within text := by
  cases c with
  | unknownVariable | unknownFunction | constantReassignment | duplicateDeclaration
  | unsupportedType | malformedNumber | invalidNumber => exact Span.Shows.toWithin h
  | unexpectedToken => exact Span.Shows.toWithin h.1
  | arityMismatch | missingReturn | callLimit => exact Span.Opens.toWithin h
  | unexpectedEnd | trailingInput | nestingTooDeep | divisionByZero | returnOutsideFunction
  | unsupportedFeature | overflow | undefinedPower | inputExhausted | invalidInput
  | channelFailure => exact h

/-- The error has a place, and its cause fits the text there. -/
def Error.Fits (text : List Char) (e : Error) : Prop :=
  ∃ s, e.span = some s ∧ e.cause.Fits text s

theorem Cause.Fits.error {text : List Char} {s : Span} {c : Cause} (h : c.Fits text s) :
    (c.at s).Fits text := ⟨s, rfl, h⟩

/-! ## Tokens and trees -/

def Token.Placed (text : List Char) (t : Token) : Prop := t.span.Shows text t.lexeme

def Ident.Placed (text : List Char) (name : Ident) : Prop := name.span.Shows text name.name

/-- The names in the expression show, calls open with the name that they call, and all of it
    lies in the text. -/
inductive Expr.Placed (text : List Char) : Expr → Prop where
  | number (v : Decimal) {s : Span} : s.Within text → Placed text (.number v s)
  | constant (c : NamedConstant) {s : Span} : s.Within text → Placed text (.constant c s)
  | var {name : Ident} : name.Placed text → Placed text (.var name)
  | unary (op : UnaryOp) {e : Expr} {s : Span} :
      Placed text e → s.Within text → Placed text (.unary op e s)
  | binary (op : BinaryOp) {l r : Expr} {s : Span} :
      Placed text l → Placed text r → s.Within text → Placed text (.binary op l r s)
  | call {callee : Ident} {args : List Expr} {s : Span} : callee.Placed text →
      (∀ a ∈ args, Placed text a) → s.Opens text callee.name → Placed text (.call callee args s)
  | text (lexeme : String) {s : Span} : s.Within text → Placed text (.text lexeme s)

theorem Expr.Placed.within {text : List Char} {e : Expr} (h : e.Placed text) :
    e.span.Within text := by
  cases h with
  | number _ h | constant _ h | unary _ _ h | binary _ _ _ h | text _ h => exact h
  | var h => exact h.toWithin
  | call _ _ h => exact h.toWithin

/-- The names and expressions in the statement are placed, and so are the spans of those
    statements that can fail by themselves. -/
inductive Stmt.Placed (text : List Char) : Stmt → Prop where
  | declare {name : Ident} (s : Span) : name.Placed text → Placed text (.declare name s)
  | assign {target : Ident} {value : Expr} (s : Span) :
      target.Placed text → value.Placed text → Placed text (.assign target value s)
  | input {target : Ident} (s : Span) : target.Placed text → Placed text (.input target s)
  | output {value : Expr} (s : Span) : value.Placed text → Placed text (.output value s)
  | choose {condition : Expr} {yes : Block} {no : Option Block} (s : Span) :
      condition.Placed text → (∀ st ∈ yes.statements, Placed text st) →
      (∀ b ∈ no, ∀ st ∈ b.statements, Placed text st) →
      Placed text (.choose condition yes no s)
  | repeatWhile {condition : Expr} {body : Block} (s : Span) : condition.Placed text →
      (∀ st ∈ body.statements, Placed text st) → Placed text (.repeatWhile condition body s)
  | count {counter : Ident} {first last : Expr} {body : Block} {s : Span} :
      counter.Placed text → first.Placed text → last.Placed text →
      (∀ st ∈ body.statements, Placed text st) → s.Within text →
      Placed text (.count counter first last body s)
  | giveBack {value : Expr} {s : Span} :
      value.Placed text → s.Within text → Placed text (.giveBack value s)
  | block {b : Block} : (∀ st ∈ b.statements, Placed text st) → Placed text (.block b)
  | evaluate {e : Expr} (s : Span) : e.Placed text → Placed text (.evaluate e s)

def Block.Placed (text : List Char) (b : Block) : Prop := ∀ st ∈ b.statements, st.Placed text

structure Function.Placed (text : List Char) (f : Function) : Prop where
  name : f.name.Placed text
  params : ∀ p ∈ f.params, p.Placed text
  body : f.body.Placed text

def Item.Placed (text : List Char) : Item → Prop
  | .constant decl => decl.name.Placed text
  | .function f => f.Placed text
  | .statement s => s.Placed text

def Program.Placed (text : List Char) (p : Program) : Prop := ∀ i ∈ p.items, i.Placed text

end Bello
