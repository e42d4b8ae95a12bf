import Bello.Error
import Bello.Proofs.Grammar.Bare

/- Two runs that differ in places.

   Reading a source and running a program are pieces of one kind: they change a state and
   end in a value or an error. `Agree S R x y` compares two of them. From states that are
   related by `S` they end both in values, related by `R`, or both in errors that are the
   same but for their places; and the states that they leave are related by `S` again. -/
namespace Bello

instance : Spanned Span := ⟨fun _ => .blank⟩

def Token.bare (t : Token) : Token := ⟨t.kind, t.lexeme, .blank⟩

instance : Spanned Token := ⟨Token.bare⟩

def Error.bare (e : Error) : Error := ⟨e.cause, Spanned.bare e.span⟩

instance : Spanned Error := ⟨Error.bare⟩

/-- The same but for places. -/
def Same {α : Type} [Spanned α] (a b : α) : Prop := bare a = bare b

namespace Same

variable {α : Type} [Spanned α]

theorem nil : Same ([] : List α) [] := rfl

theorem cons {a b : α} {as bs : List α} (h : Same a b) (hs : Same as bs) :
    Same (a :: as) (b :: bs) := by
  show bare a :: bare as = bare b :: bare bs
  rw [h, hs]

theorem reverse {as bs : List α} (h : Same as bs) : Same as.reverse bs.reverse := by
  show as.reverse.map bare = bs.reverse.map bare
  rw [List.map_reverse, List.map_reverse]
  exact congrArg List.reverse h

theorem some {a b : α} (h : Same a b) : Same (some a) (some b) := congrArg Option.some h

/-- Either both options are empty or both hold a value. -/
theorem option_cases {o o' : Option α} (h : Same o o') :
    (o = none ∧ o' = none) ∨ ∃ a b, o = .some a ∧ o' = .some b ∧ Same a b := by
  cases o with
  | none =>
    cases o' with
    | none => exact .inl ⟨rfl, rfl⟩
    | some b => cases h
  | some a =>
    cases o' with
    | none => cases h
    | some b => exact .inr ⟨a, b, rfl, rfl, Option.some.inj h⟩

/-- Either both lists are empty or both have a head. -/
theorem list_cases {as bs : List α} (h : Same as bs) :
    (as = [] ∧ bs = []) ∨
      ∃ a b as' bs', as = a :: as' ∧ bs = b :: bs' ∧ Same a b ∧ Same as' bs' := by
  cases as with
  | nil =>
    cases bs with
    | nil => exact .inl ⟨rfl, rfl⟩
    | cons b bs => cases h
  | cons a as =>
    cases bs with
    | nil => cases h
    | cons b bs =>
      obtain ⟨hab, hrest⟩ := List.cons.inj h
      exact .inr ⟨a, b, as, bs, rfl, rfl, hab, hrest⟩

/-- Tokens that are the same differ in their span at most. -/
theorem token {t u : Token} (h : Same t u) : ∃ s, u = { t with span := s } := by
  obtain ⟨hkind, hlexeme, -⟩ := Token.mk.inj h
  exact ⟨u.span, by cases u; simp_all⟩

theorem error_at (cause : Cause) (s s' : Span) : Same (cause.at s) (cause.at s') := rfl

end Same

/-! ## Pieces in step -/

variable {ε σ α β : Type} [Spanned ε]

/-- Both a value or both the same error, on related states. -/
inductive Paired (S : σ → σ → Prop) (R : α → α → Prop) :
    EStateM.Result ε σ α → EStateM.Result ε σ α → Prop where
  | ok {a b : α} {s s' : σ} : R a b → S s s' → Paired S R (.ok a s) (.ok b s')
  | error {e e' : ε} {s s' : σ} : Same e e' → S s s' → Paired S R (.error e s) (.error e' s')

/-- From related states both pieces end alike. -/
def Agree (S : σ → σ → Prop) (R : α → α → Prop) (x y : EStateM ε σ α) : Prop :=
  ∀ s s', S s s' → Paired S R (x s) (y s')

namespace Agree

variable {S : σ → σ → Prop} {R : α → α → Prop} {Q : β → β → Prop}

theorem pure' {a b : α} (h : R a b) : Agree S R (pure a : EStateM ε σ α) (pure b) :=
  fun _ _ hs => .ok h hs

theorem throw' {e e' : ε} (h : Same e e') :
    Agree S R (throw e : EStateM ε σ α) (throw e') :=
  fun _ _ hs => .error h hs

theorem bind' {x y : EStateM ε σ α} {f g : α → EStateM ε σ β} (hx : Agree S R x y)
    (hf : ∀ a b, R a b → Agree S Q (f a) (g b)) : Agree S Q (x >>= f) (y >>= g) := by
  intro s s' hs
  show Paired S Q (EStateM.bind x f s) (EStateM.bind y g s')
  have hxy := hx s s' hs
  unfold EStateM.bind
  generalize x s = r at hxy
  generalize y s' = r' at hxy
  cases hxy with
  | ok hab hs' => exact hf _ _ hab _ _ hs'
  | error he hs' => exact .error he hs'

end Agree

end Bello
