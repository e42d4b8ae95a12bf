import Bello.Scope

/- What each operation on a chain does to the list of all its scopes.

   `scopes` lists the scopes innermost first, the global one last, so that a scope has one
   index whether it is local or global. `define_some` and `update?_some` say which scope an
   operation changed and that all others stayed; `lookup_eq` finds names by the same list.
   The two pops undo the two pushes. -/
namespace Bello

namespace Scope

variable {s : Scope} {name : String} {b : Binding}

theorem getElem?_insert (other : String) :
    (s.insert name b)[other]? = if name = other then some b else s[other]? := by
  rw [Std.ExtTreeMap.getElem?_insert]
  simp only [Std.LawfulEqCmp.compare_eq_iff_eq]

theorem getElem?_of_not_contains (h : ¬ s.contains name = true) : s[name]? = none := by
  rw [Std.ExtTreeMap.contains_eq_isSome_getElem?] at h
  exact Option.not_isSome_iff_eq_none.1 h

variable {f : Binding → Binding}

theorem update?_some {s' : Scope} (h : update? s name f = some s') :
    ∃ b, s[name]? = some b ∧ s' = s.insert name (f b) := by
  obtain ⟨b, hb, rfl⟩ := Option.map_eq_some_iff.1 h
  exact ⟨b, hb, rfl⟩

theorem update?_none (h : update? s name f = none) : s[name]? = none :=
  Option.map_eq_none_iff.1 h

end Scope

namespace ScopeChain

variable {c c' : ScopeChain} {name : String}

/-- All scopes, innermost first; the global one comes last. -/
def scopes (c : ScopeChain) : List Scope := c.locals ++ [c.globals]

/-- A chain is its scopes and its frames. -/
theorem eq_of_parts (hl : c'.locals = c.locals) (hg : c'.globals = c.globals)
    (hb : c'.bases = c.bases) : c' = c := by
  cases c with
  | mk locals globals bases size size_eq =>
    cases c' with
    | mk locals' globals' bases' size' size_eq' =>
      simp only at hl hg hb
      subst hl hg hb
      have hsize : size' = size := size_eq'.trans size_eq.symm
      subst hsize
      rfl

/-- A scope of a caller: neither global nor opened since the current frame began. -/
def Hides (c : ScopeChain) (i : Nat) : Prop := c.visibleCount ≤ i ∧ i < c.size

theorem length_scopes (c : ScopeChain) : c.scopes.length = c.size + 1 := by
  rw [scopes, List.length_append, c.size_eq, List.length_singleton]

theorem getElem?_scopes_of_lt {i : Nat} (h : i < c.size) : c.scopes[i]? = c.locals[i]? := by
  rw [scopes, List.getElem?_append_left (by rw [← c.size_eq]; exact h)]

theorem getElem?_scopes_size (c : ScopeChain) : c.scopes[c.size]? = some c.globals := by
  rw [scopes, c.size_eq, List.getElem?_concat_length]

/-- Which scopes are hidden depends on the number of scopes and the frames alone. -/
theorem hides_congr (hs : c'.size = c.size) (hb : c'.bases = c.bases) {i : Nat} :
    c'.Hides i ↔ c.Hides i := by
  simp only [Hides, visibleCount, depth, base, hs, hb]

/-! ## Declaring -/

theorem define_some {b : Binding} (h : c.define name b = some c') :
    c'.size = c.size ∧ c'.bases = c.bases ∧
    ∃ s rest, c.scopes = s :: rest ∧ s[name]? = none ∧ c'.scopes = s.insert name b :: rest := by
  unfold define at h
  split at h
  · next hl =>
    split at h
    · contradiction
    · next hc =>
      cases h
      refine ⟨rfl, rfl, c.globals, [], by rw [scopes, hl]; rfl,
        Scope.getElem?_of_not_contains hc, ?_⟩
      simp only [scopes, hl, List.nil_append]
  · next s rest hl =>
    split at h
    · contradiction
    · next hc =>
      cases h
      exact ⟨rfl, rfl, s, rest ++ [c.globals], by rw [scopes, hl]; rfl,
        Scope.getElem?_of_not_contains hc, rfl⟩

/-- The chain with one more scope, which binds a single name. -/
def opened (c : ScopeChain) (name : String) (b : Binding) : ScopeChain :=
  { c.pushScope with
    locals := (∅ : Scope).insert name b :: c.locals
    size_eq := by rw [List.length_cons, ← c.size_eq]; rfl }

/-- Nothing is in the way of a declaration in a new scope. -/
theorem define_pushScope (c : ScopeChain) (name : String) (b : Binding) :
    c.pushScope.define name b = some (c.opened name b) := by
  have hfree : (∅ : Scope).contains name = false := Std.ExtTreeMap.contains_empty
  unfold define pushScope opened
  simp only [hfree, Bool.false_eq_true, if_false]
  rfl

/-! ## Looking up and changing -/

variable {f : Binding → Binding}

theorem lookup_eq (c : ScopeChain) (name : String) :
    c.lookup name =
      ((c.locals.take c.visibleCount).findSome? (·[name]?)).or c.globals[name]? := by
  simp only [lookup, visible, List.findSome?_append, List.findSome?_singleton]

theorem updateWithin_some {n : Nat} {ss ss' : List Scope}
    (h : updateWithin name f n ss = some ss') :
    ∃ i s b, i < n ∧ ss[i]? = some s ∧ s[name]? = some b ∧
      (ss.take n).findSome? (·[name]?) = some b ∧
      ss' = ss.set i (s.insert name (f b)) := by
  fun_induction updateWithin name f n ss generalizing ss' with
  | case1 n s rest s' hs =>
    cases h
    obtain ⟨b, hb, rfl⟩ := Scope.update?_some hs
    exact ⟨0, s, b, by omega, rfl, hb, by simp [hb], rfl⟩
  | case2 n s rest hs ih =>
    obtain ⟨rest', hr, rfl⟩ := Option.map_eq_some_iff.1 h
    obtain ⟨i, s', b, hi, hs', hb, hf, rfl⟩ := ih hr
    refine ⟨i + 1, s', b, by omega, by simpa using hs', hb, ?_, rfl⟩
    simpa [Scope.update?_none hs] using hf
  | case3 => cases h

theorem updateWithin_none {n : Nat} {ss : List Scope}
    (h : updateWithin name f n ss = none) : (ss.take n).findSome? (·[name]?) = none := by
  fun_induction updateWithin name f n ss with
  | case1 n s rest s' hs => cases h
  | case2 n s rest hs ih =>
    simpa [Scope.update?_none hs] using ih (Option.map_eq_none_iff.1 h)
  | case3 n ss hn =>
    cases n with
    | zero => simp
    | succ n =>
      cases ss with
      | nil => simp
      | cons s rest => exact (hn n s rest rfl rfl).elim

/-- A change is made to one binding, the one that is seen. -/
theorem update?_some (h : c.update? name f = some c') :
    c'.size = c.size ∧ c'.bases = c.bases ∧
    ∃ i s b, ¬ c.Hides i ∧ c.scopes[i]? = some s ∧ s[name]? = some b ∧ c.lookup name = some b ∧
      c'.scopes = c.scopes.set i (s.insert name (f b)) := by
  unfold update? at h
  split at h
  · next locals hl =>
    cases h
    obtain ⟨i, s, b, hi, hs, hb, hf, rfl⟩ := updateWithin_some hl
    have hlt : i < c.locals.length := (List.getElem?_eq_some_iff.1 hs).1
    refine ⟨rfl, rfl, i, s, b, fun hh => by have := hh.1; omega, ?_, hb, ?_, ?_⟩
    · rw [getElem?_scopes_of_lt (by rw [c.size_eq]; exact hlt)]; exact hs
    · rw [lookup_eq, hf]; rfl
    · rw [scopes, scopes, List.set_append_left _ _ hlt]
  · next hl =>
    obtain ⟨globals, hg, rfl⟩ := Option.map_eq_some_iff.1 h
    obtain ⟨b, hb, rfl⟩ := Scope.update?_some hg
    refine ⟨rfl, rfl, c.size, c.globals, b, fun hh => by have := hh.2; omega,
      c.getElem?_scopes_size, hb, ?_, ?_⟩
    · rw [lookup_eq, updateWithin_none hl]; exact hb
    · simp only [scopes, c.size_eq, List.set_append_right _ _ (Nat.le_refl _), Nat.sub_self,
        List.set_cons_zero]

/-- A change is made in the first scopes, or else in those below them. -/
theorem updateWithin_append (name : String) (f : Binding → Binding) (n : Nat) (own below : List Scope) :
    updateWithin name f (own.length + n) (own ++ below) =
      ((updateWithin name f own.length own).map (· ++ below)).or
        ((updateWithin name f n below).map (own ++ ·)) := by
  induction own with
  | nil => simp [updateWithin]
  | cons s own ih =>
    rw [List.length_cons, Nat.add_right_comm, List.cons_append, updateWithin, updateWithin]
    cases Scope.update? s name f with
    | some s' => rfl
    | none =>
      simp only [ih]
      cases updateWithin name f own.length own with
      | some own' => rfl
      | none =>
        simp only [Option.map_none, Option.none_or, Option.map_map]
        rfl

/-- A chain after a change, part by part. -/
theorem update?_parts (c : ScopeChain) (name : String) (f : Binding → Binding) :
    let c' := (c.update? name f).getD c
    let locals := updateWithin name f c.visibleCount c.locals
    c'.locals = locals.getD c.locals ∧
    c'.globals = (if locals.isSome then c.globals
      else (Scope.update? c.globals name f).getD c.globals) ∧
    c'.bases = c.bases := by
  unfold update?
  split
  · next locals h => simp [h]
  · next h =>
    cases hg : Scope.update? c.globals name f with
    | none => simp [h]
    | some globals => simp [h]

/-- Where nothing can be changed, nothing is seen. -/
theorem update?_none (h : c.update? name f = none) : c.lookup name = none := by
  unfold update? at h
  split at h
  · cases h
  · next hl =>
    rw [lookup_eq, updateWithin_none hl]
    exact Scope.update?_none (Option.map_eq_none_iff.1 h)

theorem findSome?_updateWithin {n : Nat} {ss ss' : List Scope}
    (h : updateWithin name f n ss = some ss') :
    ∃ b, (ss.take n).findSome? (·[name]?) = some b ∧
      (ss'.take n).findSome? (·[name]?) = some (f b) := by
  fun_induction updateWithin name f n ss generalizing ss' with
  | case1 n s rest s' hs =>
    cases h
    obtain ⟨b, hb, rfl⟩ := Scope.update?_some hs
    exact ⟨b, by simp [hb], by simp⟩
  | case2 n s rest hs ih =>
    obtain ⟨rest', hr, rfl⟩ := Option.map_eq_some_iff.1 h
    obtain ⟨b, hb, hb'⟩ := ih hr
    refine ⟨b, ?_, ?_⟩
    · simpa [Scope.update?_none hs] using hb
    · simpa [Scope.update?_none hs] using hb'
  | case3 => cases h

/-- The binding that was seen is seen with the change. -/
theorem lookup_update? (h : c.update? name f = some c') :
    ∃ b, c.lookup name = some b ∧ c'.lookup name = some (f b) := by
  unfold update? at h
  split at h
  · next locals hl =>
    cases h
    obtain ⟨b, hb, hb'⟩ := findSome?_updateWithin hl
    refine ⟨b, by rw [lookup_eq, hb, Option.some_or], ?_⟩
    rw [lookup_eq]
    show ((locals.take c.visibleCount).findSome? (·[name]?)).or _ = _
    rw [hb', Option.some_or]
  · next hl =>
    obtain ⟨globals, hg, rfl⟩ := Option.map_eq_some_iff.1 h
    obtain ⟨b, hb, rfl⟩ := Scope.update?_some hg
    have hnone := updateWithin_none hl
    refine ⟨b, by rw [lookup_eq, hnone, Option.none_or, hb], ?_⟩
    rw [lookup_eq]
    show ((c.locals.take c.visibleCount).findSome? (·[name]?)).or _ = _
    rw [hnone, Option.none_or, Scope.getElem?_insert, if_pos rfl]

/-! ## Scopes and frames -/

/-- A pop undoes a push, whatever the pushed scope holds by then. -/
theorem scopes_popScope (h : c'.size = c.size + 1) : c'.popScope.scopes = c'.scopes.tail := by
  have hl : c'.locals ≠ [] := by
    intro hl
    have := c'.size_eq
    rw [hl, List.length_nil] at this
    omega
  obtain ⟨s, rest, hr⟩ := List.exists_cons_of_ne_nil hl
  simp only [scopes, popScope, hr, List.cons_append, List.tail_cons]

theorem popFrame_of_bases {bases : List Nat} (hb : c'.bases = (c.size + 1) :: bases)
    (hs : c'.size = c.size + 1) :
    c'.popFrame.locals = c'.locals.drop 1 ∧ c'.popFrame.globals = c'.globals ∧
      c'.popFrame.bases = bases ∧ c'.popFrame.size = c.size := by
  have hsurplus : c'.depth - max (c.size + 1) 1 = 1 := by rw [depth, hs]; omega
  unfold popFrame
  split
  · next he => rw [he] at hb; cases hb
  · next base bs he =>
    rw [he] at hb
    cases hb
    simp only [hsurplus, hs]
    exact ⟨trivial, trivial, trivial, by omega⟩

end ScopeChain

end Bello
