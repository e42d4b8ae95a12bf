import Bello.Proofs.Scope.Operations

/- What may happen to a chain.

   Three relations say how a chain can differ from an earlier one. `OnlyGlobals` is what an
   expression can do: the mutable bindings of the global scope get new values, and that is
   all. `OnlyVisible` is what a statement can do: the innermost scope gains mutable names,
   mutable bindings that can be seen get new values, and the scopes of callers stay as they
   are. `Lasting` is what both have in common and registering has too: no name is lost and
   no constant changes.

   All three are closed under sequence. A scope that is opened and closed around a statement
   takes the names with it that were gained (`OnlyVisible.inScope`), and a frame hides all
   scopes of the caller (`OnlyVisible.inFrame`). -/
namespace Bello

/-! ## One scope -/

namespace Scope

variable {s s' s'' : Scope} {name : String}

/-- Every name is still bound, a constant to the same value and a variable to a variable. -/
def Kept (s s' : Scope) : Prop :=
  ∀ (name : String) (b : Binding), s[name]? = some b →
    ∃ b', s'[name]? = some b' ∧ b'.mutable = b.mutable ∧ (b.mutable = false → b' = b)

/-- The same names, with other values for variables at most. -/
structure Revised (s s' : Scope) : Prop where
  kept : s.Kept s'
  names : ∀ name : String, s[name]? = none → s'[name]? = none

/-- At most more variables, and other values for those that were there. -/
structure Extended (s s' : Scope) : Prop where
  kept : s.Kept s'
  gained : ∀ (name : String) (b : Binding), s[name]? = none → s'[name]? = some b →
    b.mutable = true

theorem Kept.refl (s : Scope) : s.Kept s := fun _ b hb => ⟨b, hb, rfl, fun _ => rfl⟩

theorem Kept.trans (h : s.Kept s') (h' : s'.Kept s'') : s.Kept s'' := by
  intro name b hb
  obtain ⟨b', hb', hm, hc⟩ := h name b hb
  obtain ⟨b'', hb'', hm', hc'⟩ := h' name b' hb'
  refine ⟨b'', hb'', hm'.trans hm, fun hconst => ?_⟩
  rw [hc' (hm.trans hconst), hc hconst]

theorem Kept.insert {b : Binding} (hn : s[name]? = none) : s.Kept (s.insert name b) := by
  intro other b' hb'
  refine ⟨b', ?_, rfl, fun _ => rfl⟩
  rw [getElem?_insert, if_neg (by rintro rfl; rw [hn] at hb'; cases hb')]
  exact hb'

theorem Revised.refl (s : Scope) : s.Revised s := ⟨.refl s, fun _ h => h⟩

theorem Revised.trans (h : s.Revised s') (h' : s'.Revised s'') : s.Revised s'' :=
  ⟨h.kept.trans h'.kept, fun name hn => h'.names name (h.names name hn)⟩

theorem Revised.extended (h : s.Revised s') : s.Extended s' := by
  refine ⟨h.kept, fun name b hn hb => ?_⟩
  rw [h.names name hn] at hb
  cases hb

theorem Revised.insert {b : Binding} (hb : s[name]? = some b) (hm : b.mutable = true)
    (v : Decimal) : s.Revised (s.insert name { b with value := v }) := by
  refine ⟨fun other b' hb' => ?_, fun other hn => ?_⟩
  · rw [getElem?_insert]
    split
    · next e =>
      subst e
      cases hb.symm.trans hb'
      exact ⟨_, rfl, rfl, fun hc => by rw [hm] at hc; cases hc⟩
    · exact ⟨b', hb', rfl, fun _ => rfl⟩
  · rw [getElem?_insert, if_neg (by rintro rfl; rw [hb] at hn; cases hn)]
    exact hn

theorem Extended.trans (h : s.Extended s') (h' : s'.Extended s'') : s.Extended s'' := by
  refine ⟨h.kept.trans h'.kept, fun name b hn hb => ?_⟩
  cases hb' : s'[name]? with
  | none => exact h'.gained name b hb' hb
  | some b' =>
    -- It was gained by the first half, so it was mutable then and has stayed so.
    obtain ⟨b'', hb'', hm, -⟩ := h'.kept name b' hb'
    cases hb.symm.trans hb''
    rw [hm]
    exact h.gained name b' hn hb'

theorem Extended.insert (hn : s[name]? = none) (v : Decimal) :
    s.Extended (s.insert name ⟨v, true⟩) := by
  refine ⟨.insert hn, fun other b ho hb => ?_⟩
  rw [getElem?_insert] at hb
  split at hb
  · cases hb; rfl
  · rw [ho] at hb; cases hb

end Scope

/-! ## Whole chains -/

namespace ScopeChain

variable {c c' c'' : ScopeChain} {name : String}

/-- Frames begin one inside the other, above the global scope and below the innermost
    scope. The bases are listed from the last frame to the first. -/
structure WellFramed (c : ScopeChain) : Prop where
  increasing : c.bases.Pairwise (· > ·)
  positive : ∀ b ∈ c.bases, 0 < b
  below : ∀ b ∈ c.bases, b < c.depth

/-- The innermost scope belongs to the current frame. -/
def Sees (c : ScopeChain) : Prop := c.base ≤ c.size

theorem WellFramed.sees (h : c.WellFramed) : c.Sees := by
  unfold Sees base
  cases hb : c.bases with
  | nil => exact Nat.zero_le _
  | cons b bs =>
    have := h.below b (by rw [hb]; exact List.mem_cons_self)
    exact Nat.le_of_lt_succ this

/-- The innermost scope is not hidden then. -/
theorem Sees.not_hides_zero (h : c.Sees) : ¬ c.Hides 0 := by
  intro hh
  have := hh.1
  unfold Sees at h
  simp only [visibleCount, depth] at this
  omega

theorem sees_congr (hs : c'.size = c.size) (hb : c'.bases = c.bases) : c'.Sees ↔ c.Sees := by
  simp only [Sees, base, hs, hb]

theorem wellFramed_congr (hs : c'.size = c.size) (hb : c'.bases = c.bases) (h : c.WellFramed) :
    c'.WellFramed := by
  refine ⟨hb ▸ h.increasing, hb ▸ h.positive, ?_⟩
  rw [hb, depth, hs]
  exact h.below

theorem exists_scope (hs : c'.size = c.size) {i : Nat} {s : Scope} (h : c.scopes[i]? = some s) :
    ∃ s', c'.scopes[i]? = some s' := by
  have hi : i < c.scopes.length := (List.getElem?_eq_some_iff.1 h).1
  rw [length_scopes, ← hs, ← length_scopes] at hi
  exact ⟨_, List.getElem?_eq_getElem hi⟩

/-- All that changed is the values of variables of the global scope. -/
structure OnlyGlobals (c c' : ScopeChain) : Prop where
  locals : c'.locals = c.locals
  bases : c'.bases = c.bases
  globals : c.globals.Revised c'.globals

/-- All that changed is the values of variables that can be seen, and new variables in the
    innermost scope. -/
structure OnlyVisible (c c' : ScopeChain) : Prop where
  size : c'.size = c.size
  bases : c'.bases = c.bases
  innermost : ∀ s s' : Scope, c.scopes[0]? = some s → c'.scopes[0]? = some s' → s.Extended s'
  outer : ∀ (i : Nat) (s s' : Scope), c.scopes[i + 1]? = some s →
    c'.scopes[i + 1]? = some s' → s.Revised s'
  hidden : ∀ i, c.Hides i → c'.scopes[i]? = c.scopes[i]?

/-- No scope lost a name and no constant changed. -/
structure Lasting (c c' : ScopeChain) : Prop where
  size : c'.size = c.size
  bases : c'.bases = c.bases
  kept : ∀ (i : Nat) (s : Scope), c.scopes[i]? = some s →
    ∃ s', c'.scopes[i]? = some s' ∧ s.Kept s'

theorem OnlyGlobals.refl (c : ScopeChain) : c.OnlyGlobals c := ⟨rfl, rfl, .refl _⟩

theorem OnlyGlobals.trans (h : c.OnlyGlobals c') (h' : c'.OnlyGlobals c'') :
    c.OnlyGlobals c'' :=
  ⟨h'.locals.trans h.locals, h'.bases.trans h.bases, h.globals.trans h'.globals⟩

theorem OnlyGlobals.size (h : c.OnlyGlobals c') : c'.size = c.size := by
  rw [c'.size_eq, c.size_eq, h.locals]

/-- A change that revises some scopes and none of those that are hidden. -/
theorem OnlyVisible.ofRevised (hs : c'.size = c.size) (hb : c'.bases = c.bases)
    (hr : ∀ (i : Nat) (s s' : Scope), c.scopes[i]? = some s → c'.scopes[i]? = some s' →
      s.Revised s')
    (hh : ∀ i, c.Hides i → c'.scopes[i]? = c.scopes[i]?) : c.OnlyVisible c' :=
  ⟨hs, hb, fun s s' h h' => (hr 0 s s' h h').extended, fun i => hr (i + 1), hh⟩

theorem OnlyVisible.refl (c : ScopeChain) : c.OnlyVisible c := by
  refine .ofRevised rfl rfl (fun i s s' h h' => ?_) (fun _ _ => rfl)
  cases h.symm.trans h'
  exact .refl s

theorem OnlyVisible.trans (h : c.OnlyVisible c') (h' : c'.OnlyVisible c'') :
    c.OnlyVisible c'' := by
  refine ⟨h'.size.trans h.size, h'.bases.trans h.bases, ?_, ?_, fun i hi => ?_⟩
  · intro s s'' hs hs''
    obtain ⟨s', hs'⟩ := exists_scope h.size hs
    exact (h.innermost s s' hs hs').trans (h'.innermost s' s'' hs' hs'')
  · intro i s s'' hs hs''
    obtain ⟨s', hs'⟩ := exists_scope h.size hs
    exact (h.outer i s s' hs hs').trans (h'.outer i s' s'' hs' hs'')
  · rw [h'.hidden i ((hides_congr h.size h.bases).2 hi), h.hidden i hi]

theorem OnlyGlobals.onlyVisible (h : c.OnlyGlobals c') : c.OnlyVisible c' := by
  have hs := h.size
  have hlocal : ∀ i, i < c.size → c'.scopes[i]? = c.scopes[i]? := by
    intro i hi
    rw [getElem?_scopes_of_lt hi, getElem?_scopes_of_lt (hs ▸ hi), h.locals]
  refine .ofRevised hs h.bases (fun i s s' hi hi' => ?_) (fun i hi => hlocal i hi.2)
  by_cases hlt : i < c.size
  · rw [hlocal i hlt] at hi'
    cases hi.symm.trans hi'
    exact .refl s
  · have hle : i < c.scopes.length := (List.getElem?_eq_some_iff.1 hi).1
    rw [length_scopes] at hle
    obtain rfl : i = c.size := by omega
    rw [getElem?_scopes_size] at hi
    rw [← hs, getElem?_scopes_size] at hi'
    cases hi
    cases hi'
    exact h.globals

theorem Lasting.refl (c : ScopeChain) : c.Lasting c :=
  ⟨rfl, rfl, fun _ s hs => ⟨s, hs, .refl s⟩⟩

theorem Lasting.trans (h : c.Lasting c') (h' : c'.Lasting c'') : c.Lasting c'' := by
  refine ⟨h'.size.trans h.size, h'.bases.trans h.bases, fun i s hs => ?_⟩
  obtain ⟨s', hs', hk⟩ := h.kept i s hs
  obtain ⟨s'', hs'', hk'⟩ := h'.kept i s' hs'
  exact ⟨s'', hs'', hk.trans hk'⟩

theorem OnlyVisible.lasting (h : c.OnlyVisible c') : c.Lasting c' := by
  refine ⟨h.size, h.bases, fun i s hs => ?_⟩
  obtain ⟨s', hs'⟩ := exists_scope h.size hs
  cases i with
  | zero => exact ⟨s', hs', (h.innermost s s' hs hs').kept⟩
  | succ i => exact ⟨s', hs', (h.outer i s s' hs hs').kept⟩

/-! ## Declaring and assigning -/

theorem Lasting.define {b : Binding} (h : c.define name b = some c') : c.Lasting c' := by
  obtain ⟨hs, hb, s, rest, hc, hn, hc'⟩ := define_some h
  refine ⟨hs, hb, fun i t ht => ?_⟩
  rw [hc] at ht
  rw [hc']
  cases i with
  | zero => cases ht; exact ⟨_, rfl, .insert hn⟩
  | succ i => exact ⟨t, ht, .refl t⟩

theorem OnlyVisible.define {v : Decimal} (hsee : c.Sees)
    (h : c.define name ⟨v, true⟩ = some c') : c.OnlyVisible c' := by
  obtain ⟨hs, hb, s, rest, hc, hn, hc'⟩ := define_some h
  refine ⟨hs, hb, fun t t' ht ht' => ?_, fun i t t' ht ht' => ?_, fun i hi => ?_⟩
  · rw [hc] at ht
    rw [hc'] at ht'
    cases ht
    cases ht'
    exact .insert hn v
  · rw [hc] at ht
    rw [hc'] at ht'
    cases ht.symm.trans ht'
    exact .refl t
  · rw [hc, hc']
    cases i with
    | zero => exact absurd hi hsee.not_hides_zero
    | succ i => rfl

theorem OnlyVisible.set {v : Decimal} (h : c.set? name v = some c')
    (hm : ∀ b, c.lookup name = some b → b.mutable = true) : c.OnlyVisible c' := by
  obtain ⟨hs, hb, k, s, b, hk, hsk, hbs, hlook, hc'⟩ := update?_some h
  refine .ofRevised hs hb (fun i t t' ht ht' => ?_) (fun i hi => ?_)
  · rw [hc', List.getElem?_set] at ht'
    split at ht'
    · next e =>
      subst e
      cases hsk.symm.trans ht
      split at ht'
      · cases ht'; exact .insert hbs (hm b hlook) v
      · cases ht'
    · cases ht.symm.trans ht'
      exact .refl t
  · rw [hc', List.getElem?_set_ne (by rintro rfl; exact hk hi)]

/-- The innermost scope has a variable of this name. -/
def Owns (c : ScopeChain) (name : String) : Prop :=
  ∃ s b, c.scopes[0]? = some s ∧ s[name]? = some b ∧ b.mutable = true

/-- Such a variable is what is seen under its name. -/
theorem Owns.lookup (h : c.Owns name) (hsee : c.Sees) :
    ∃ b, c.lookup name = some b ∧ b.mutable = true := by
  obtain ⟨s, b, hs, hb, hm⟩ := h
  refine ⟨b, ?_, hm⟩
  rw [lookup_eq]
  cases hl : c.locals with
  | nil =>
    rw [scopes, hl] at hs
    cases hs
    simp only [List.take_nil, List.findSome?_nil, Option.none_or, hb]
  | cons t rest =>
    rw [scopes, hl] at hs
    cases hs
    have hcount : ∃ k, c.visibleCount = k + 1 := ⟨c.size - c.base, by
      unfold Sees at hsee
      simp only [visibleCount, depth]
      omega⟩
    obtain ⟨k, hk⟩ := hcount
    simp only [hk, List.take_succ_cons, List.findSome?_cons, hb, Option.some_or]

theorem Owns.mutable (h : c.Owns name) (hsee : c.Sees) :
    ∀ b, c.lookup name = some b → b.mutable = true := by
  obtain ⟨b, hb, hm⟩ := h.lookup hsee
  intro b' hb'
  cases hb.symm.trans hb'
  exact hm

/-- A variable of the innermost scope can be assigned, and then it has that value. -/
theorem Owns.lookup_set? (h : c.Owns name) (hsee : c.Sees) (v : Decimal) :
    ∃ c', c.set? name v = some c' ∧ c'.lookup name = some ⟨v, true⟩ := by
  obtain ⟨b, hb, hm⟩ := h.lookup hsee
  cases hset : c.set? name v with
  | none =>
    rw [update?_none hset] at hb
    cases hb
  | some c' =>
    obtain ⟨b', hb', hc'⟩ := lookup_update? hset
    cases hb.symm.trans hb'
    exact ⟨c', rfl, by rw [hc', hm]⟩

theorem Owns.define {v : Decimal} (h : c.define name ⟨v, true⟩ = some c') : c'.Owns name := by
  obtain ⟨-, -, s, rest, -, -, hc'⟩ := define_some h
  refine ⟨s.insert name ⟨v, true⟩, ⟨v, true⟩, by rw [hc']; rfl, ?_, rfl⟩
  rw [Scope.getElem?_insert, if_pos rfl]

theorem opened_owns (c : ScopeChain) (name : String) (v : Decimal) :
    (c.opened name ⟨v, true⟩).Owns name := .define (define_pushScope c name ⟨v, true⟩)

theorem Owns.kept (h : c.Owns name) (hv : c.OnlyVisible c') : c'.Owns name := by
  obtain ⟨s, b, hs, hb, hm⟩ := h
  obtain ⟨s', hs'⟩ := exists_scope hv.size hs
  obtain ⟨b', hb', hm', -⟩ := (hv.innermost s s' hs hs').kept name b hb
  exact ⟨s', b', hs', hb', hm'.trans hm⟩

/-! ## Scopes and frames -/

theorem Sees.pushScope (h : c.Sees) : c.pushScope.Sees := by
  show c.base ≤ c.size + 1
  unfold Sees at h
  omega

theorem sees_pushFrame (c : ScopeChain) : c.pushFrame.Sees := Nat.le_refl _

/-- A new scope hides nothing. -/
theorem lookup_pushScope (h : c.Sees) (name : String) :
    c.pushScope.lookup name = c.lookup name := by
  have hcount : c.pushScope.visibleCount = c.visibleCount + 1 := by
    unfold Sees at h
    show c.size + 1 + 1 - c.base = c.size + 1 - c.base + 1
    omega
  have hempty : (∅ : Scope)[name]? = none := Std.ExtTreeMap.getElem?_empty
  rw [lookup_eq, lookup_eq, hcount]
  simp only [pushScope, List.take_succ_cons, List.findSome?_cons, hempty]

theorem OnlyVisible.inScope (hsee : c.Sees) (h : c.pushScope.OnlyVisible c') :
    c.OnlyVisible c'.popScope := by
  have hsize : c'.size = c.size + 1 := h.size
  have hscopes : ∀ i, c'.popScope.scopes[i]? = c'.scopes[i + 1]? := by
    intro i
    rw [scopes_popScope hsize, List.getElem?_tail]
  -- Every scope of `c` is an outer one for what ran inside.
  refine .ofRevised (by show c'.size - 1 = c.size; omega) h.bases (fun i s s' hs hs' => ?_)
    (fun i hi => ?_)
  · rw [hscopes] at hs'
    exact h.outer i s s' hs hs'
  · rw [hscopes, h.hidden (i + 1) ⟨?_, Nat.succ_lt_succ hi.2⟩]
    · rfl
    · show c.size + 1 + 1 - c.base ≤ i + 1
      have := hi.1
      unfold Sees at hsee
      simp only [visibleCount, depth] at this
      omega

theorem OnlyVisible.inFrame (h : c.pushFrame.OnlyVisible c') : c.OnlyGlobals c'.popFrame := by
  have hsize : c'.size = c.size + 1 := h.size
  have hbases : c'.bases = (c.size + 1) :: c.bases := h.bases
  obtain ⟨hl, hg, hb, -⟩ := popFrame_of_bases hbases hsize
  refine ⟨?_, hb, ?_⟩
  -- Below the one scope of the frame, every local scope is hidden.
  · rw [hl]
    apply List.ext_getElem?
    intro i
    rw [List.getElem?_drop, Nat.add_comm]
    by_cases hi : i < c.size
    · have hhid := h.hidden (i + 1) ⟨?_, Nat.succ_lt_succ hi⟩
      · rw [getElem?_scopes_of_lt (by omega)] at hhid
        rw [hhid, ← getElem?_scopes_of_lt hi]
        rfl
      · show c.size + 1 + 1 - (c.size + 1) ≤ i + 1
        omega
    · rw [List.getElem?_eq_none (by rw [← c'.size_eq]; omega),
        List.getElem?_eq_none (by rw [← c.size_eq]; omega)]
  · rw [hg]
    refine h.outer c.size c.globals c'.globals ?_ ?_
    · exact c.getElem?_scopes_size
    · rw [← hsize]
      exact c'.getElem?_scopes_size

end ScopeChain

end Bello
