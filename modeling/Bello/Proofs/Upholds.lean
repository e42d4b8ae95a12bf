/- Laws that a piece upholds.

   Reading and running are pieces that change a state and end in a value or an error.
   `Upholds I E P x` says of such a piece that it keeps `I` of the state, and that its value
   satisfies `P` or its error `E`. -/
namespace Bello

variable {ε σ α β : Type}

/-- From a state with `I` the piece leaves one with `I`, and ends in a value with `P` or an
    error with `E`. -/
def Upholds (I : σ → Prop) (E : ε → Prop) (P : α → Prop) (x : EStateM ε σ α) : Prop :=
  ∀ s, I s →
    (∃ a s', x s = .ok a s' ∧ I s' ∧ P a) ∨ (∃ e s', x s = .error e s' ∧ I s' ∧ E e)

namespace Upholds

variable {I : σ → Prop} {E : ε → Prop} {P : α → Prop} {Q : β → Prop}

theorem pure' {a : α} (h : P a) : Upholds I E P (pure a : EStateM ε σ α) :=
  fun s hs => .inl ⟨a, s, rfl, hs, h⟩

theorem throw' {e : ε} (h : E e) : Upholds I E P (throw e : EStateM ε σ α) :=
  fun s hs => .inr ⟨e, s, rfl, hs, h⟩

theorem bind' {x : EStateM ε σ α} {f : α → EStateM ε σ β} (hx : Upholds I E P x)
    (hf : ∀ a, P a → Upholds I E Q (f a)) : Upholds I E Q (x >>= f) := by
  intro s hs
  show (∃ b s', EStateM.bind x f s = .ok b s' ∧ I s' ∧ Q b) ∨
    (∃ e s', EStateM.bind x f s = .error e s' ∧ I s' ∧ E e)
  unfold EStateM.bind
  rcases hx s hs with ⟨a, s', hr, hs', ha⟩ | ⟨e, s', hr, hs', he⟩
  · rw [hr]
    exact hf a ha s' hs'
  · rw [hr]
    exact .inr ⟨e, s', rfl, hs', he⟩

theorem mono {x : EStateM ε σ α} {P' : α → Prop} (h : Upholds I E P x) (hP : ∀ a, P a → P' a) :
    Upholds I E P' x := by
  intro s hs
  rcases h s hs with ⟨a, s', hr, hs', ha⟩ | herror
  · exact .inl ⟨a, s', hr, hs', hP a ha⟩
  · exact .inr herror

/-- What is more, the value is one that the piece can end in. -/
theorem arises {x : EStateM ε σ α} (h : Upholds I E P x) :
    Upholds I E (fun a => P a ∧ ∃ s s', x s = .ok a s') x := by
  intro s hs
  rcases h s hs with ⟨a, s', hr, hs', ha⟩ | herror
  · exact .inl ⟨a, s', hr, hs', ha, s, s', hr⟩
  · exact .inr herror

end Upholds

end Bello
