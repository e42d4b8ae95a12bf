import Bello.Proofs.Decimal.Successor
import Bello.Proofs.Machine.Confinement
import Bello.Proofs.Machine.Course

/- Counting loops.

   A counting loop runs its body for the numbers `counters first last`, one after the other,
   whatever the body does: `settles_rounds_iff`. The numbers are not affected by the body,
   since they are kept apart from the variable, and the variable has the next of them when a
   round begins (`Begins.lookup`): the innermost scope owns it, and a body can give it other
   values or hide it, but not take it away.

   What comes after the rounds is a number of its own. It is computed before it is compared
   with the last number, so a loop up to the largest decimal has all of its rounds and fails
   then (`closing`). -/
namespace Bello.Exec

open Course Decimal ScopeChain

variable {C : Type}

/-! ## The variable -/

/-- The innermost scope is seen, and it has a variable of this name. -/
structure Holds (name : String) (m : Machine C) : Prop where
  sees : m.chain.Sees
  owns : m.chain.Owns name

namespace Holds

variable {name : String} {m m' : Machine C}

theorem kept (h : Holds name m) (hv : m.chain.OnlyVisible m'.chain) : Holds name m' :=
  ⟨(sees_congr hv.size hv.bases).2 h.sees, h.owns.kept hv⟩

theorem assigned (h : Holds name m) (v : Decimal) : Holds name (m.assigned name v) := by
  have hset := set_confined (h.owns.mutable h.sees) v
  rw [final_ok (set_ok name v m)] at hset
  exact h.kept hset

/-- What was assigned is what the body sees. -/
theorem lookup (h : Holds name m) (v : Decimal) :
    (m.assigned name v).pushScope.chain.lookup name = some ⟨v, true⟩ := by
  obtain ⟨c, hset, hlookup⟩ := h.owns.lookup_set? h.sees v
  have hchain : (m.assigned name v).chain = c := by
    rw [Machine.assigned, hset, Option.getD_some]
  have hpush : (m.assigned name v).pushScope.chain = (m.assigned name v).chain.pushScope := by
    simp only [Machine.pushScope, Machine.note_eq]
  rw [hpush, lookup_pushScope (h.assigned v).sees, hchain, hlookup]

theorem counting (hsee : m.chain.Sees) (counter : Ident) (a b : Decimal) :
    Holds counter.name (m.counting counter a b) :=
  ⟨hsee.pushScope, m.chain.opened_owns counter.name a⟩

end Holds

/-! ## Rounds -/

variable [Channel C]

/-- The body runs for each of the numbers, as long as it ends normally. A round that does not
    is the last one, and the result is its own; otherwise the result is `atEnd`. -/
inductive ForEach (inFunction : Bool) (name : String) (body : Block)
    (atEnd : Except Error Flow) :
    List Decimal → Machine C → Except Error Flow → Machine C → Prop where
  | done (m : Machine C) : ForEach inFunction name body atEnd [] m atEnd m
  | round {v : Decimal} {vs : List Decimal} {m m₁ m' : Machine C} {r : Except Error Flow} :
      (block inFunction body).Settles (m.assigned name v) (.ok .normal) m₁ →
      ForEach inFunction name body atEnd vs m₁ r m' →
      ForEach inFunction name body atEnd (v :: vs) m r m'
  | leave {v : Decimal} {vs : List Decimal} {m m' : Machine C} {r : Except Error Flow} :
      (block inFunction body).Settles (m.assigned name v) r m' → r ≠ .ok .normal →
      ForEach inFunction name body atEnd (v :: vs) m r m'

/-- The round with this index begins on the machine `m'`: the rounds before it have ended
    normally, and the variable has been assigned. -/
inductive Begins (inFunction : Bool) (name : String) (body : Block) :
    List Decimal → Machine C → Nat → Machine C → Prop where
  | first (v : Decimal) (vs : List Decimal) (m : Machine C) :
      Begins inFunction name body (v :: vs) m 0 (m.assigned name v)
  | later {v : Decimal} {vs : List Decimal} {m m₁ m' : Machine C} {j : Nat} :
      (block inFunction body).Settles (m.assigned name v) (.ok .normal) m₁ →
      Begins inFunction name body vs m₁ j m' →
      Begins inFunction name body (v :: vs) m (j + 1) m'

variable {inFunction : Bool} {name : String} {body : Block} {s r : Except Error Flow}
  {v : Decimal} {vs : List Decimal} {m m' m₁ m₂ : Machine C} {j : Nat}

theorem forEach_nil : ForEach inFunction name body s [] m r m' ↔ r = s ∧ m' = m := by
  constructor
  · intro h
    cases h
    exact ⟨rfl, rfl⟩
  · rintro ⟨rfl, rfl⟩
    exact .done m'

theorem forEach_cons : ForEach inFunction name body s (v :: vs) m r m' ↔
    (∃ m₁, (block inFunction body).Settles (m.assigned name v) (.ok .normal) m₁ ∧
      ForEach inFunction name body s vs m₁ r m') ∨
    (r ≠ .ok .normal ∧ (block inFunction body).Settles (m.assigned name v) r m') := by
  constructor
  · intro h
    cases h with
    | round hround hrest => exact .inl ⟨_, hround, hrest⟩
    | leave hround hr => exact .inr ⟨hr, hround⟩
  · rintro (⟨m₁, hround, hrest⟩ | ⟨hr, hround⟩)
    · exact .round hround hrest
    · exact .leave hround hr

/-- What a counting loop ends with when all of its rounds have been normal. -/
def closing (first last : Decimal) (span : Span) : Except Error Flow :=
  if first.value ≤ last.value ∧ last.value = largest.value then
    .error ((Cause.overflow "again").at span)
  else .ok .normal

theorem closing_beyond {a b : Decimal} (h : a.le b = false) (span : Span) :
    closing a b span = .ok .normal := by
  rw [le_eq_false_iff] at h
  exact if_neg (fun hle => absurd hle.1 (not_le.2 h))

/-- Nothing special happens unless the integer part of the last number is the largest one. -/
theorem closing_of_floor {b : Decimal} (h : ⌊b.value⌋ + 1 < capacity) (a : Decimal)
    (span : Span) : closing a b span = .ok .normal := by
  refine if_neg (fun hb => ?_)
  have hfloor : ⌊b.value⌋ = capacity - 1 := by
    rw [hb.2, value_largest, Int.floor_eq_iff]
    push_cast
    constructor
    · exact le_refl _
    · linarith
  omega

theorem closing_next {a b : Decimal} (h : a.le b = true) (next : Decimal) (span : Span) :
    closing a b span = closing next b span := by
  have hle := (le_iff a b).1 h
  unfold closing
  congr 1
  refine propext (and_congr_left fun hb => ?_)
  -- No number exceeds the largest one.
  rw [hb] at hle ⊢
  exact iff_of_true hle next.value_le_largest

theorem closing_last {a b : Decimal} (h : a.le b = true) (hnext : a.add one = none)
    (span : Span) : closing a b span = .error ((Cause.overflow "again").at span) := by
  have hle := (le_iff a b).1 h
  have ha := (add_one_eq_none_iff a).1 hnext
  exact if_pos ⟨hle, le_antisymm b.value_le_largest (ha ▸ hle)⟩

/-- The rounds are those for the counters, in their order. -/
theorem settles_rounds_iff (a b : Decimal) (span : Span) :
    (rounds inFunction name a b body span).Settles m r m' ↔
      ForEach inFunction name body (closing a b span) (counters a b) m r m' := by
  -- The induction is on the counters, for all machines, since each round leaves another one.
  induction a using counters_induction (b := b) generalizing m with
  | beyond a h => rw [settles_rounds_beyond h, counters_beyond h, closing_beyond h, forEach_nil]
  | next a a' h hnext ih =>
    rw [settles_rounds h, settles_andThen, counters_next h hnext, closing_next h a',
      forEach_cons]
    simp only [nextRound, hnext, ih]
  | last a h hnext =>
    rw [settles_rounds h, settles_andThen, counters_last h hnext, closing_last h hnext,
      forEach_cons]
    simp only [nextRound, hnext, forEach_nil, settles_fail]

/-- The rounds come to an end if each one does. -/
theorem exists_forEach (hbody : ∀ j m₁, Begins inFunction name body vs m j m₁ →
      ∃ r m₂, (block inFunction body).Settles m₁ r m₂) :
    ∃ r m', ForEach inFunction name body s vs m r m' := by
  induction vs generalizing m with
  | nil => exact ⟨s, m, .done m⟩
  | cons v vs ih =>
    obtain ⟨r, m₁, hround⟩ := hbody 0 _ (.first v vs m)
    -- A normal end lets the next round begin, any other one is the end of the loop.
    by_cases hr : r = .ok .normal
    · subst hr
      obtain ⟨r, m', hrest⟩ := ih (fun j m₂ hj => hbody (j + 1) m₂ (.later hround hj))
      exact ⟨r, m', .round hround hrest⟩
    · exact ⟨r, m₁, .leave hround hr⟩

/-- All rounds take place if each one ends normally. -/
theorem exists_forEach_atEnd (hbody : ∀ j m₁, Begins inFunction name body vs m j m₁ →
      ∃ m₂, (block inFunction body).Settles m₁ (.ok .normal) m₂) :
    ∃ m', ForEach inFunction name body s vs m s m' := by
  induction vs generalizing m with
  | nil => exact ⟨m, .done m⟩
  | cons v vs ih =>
    obtain ⟨m₁, hround⟩ := hbody 0 _ (.first v vs m)
    obtain ⟨m', hrest⟩ := ih (fun j m₂ hj => hbody (j + 1) m₂ (.later hround hj))
    exact ⟨m', .round hround hrest⟩

/-- A round that does not end normally is the last one. -/
theorem Begins.leave (h : Begins inFunction name body vs m j m₁)
    (hround : (block inFunction body).Settles m₁ r m') (hr : r ≠ .ok .normal) :
    ForEach inFunction name body s vs m r m' := by
  induction h with
  | first v vs m => exact .leave hround hr
  | later hnormal _ ih => exact .round hnormal (ih hround)

theorem Begins.lt_length (h : Begins inFunction name body vs m j m') : j < vs.length := by
  induction h with
  | first v vs m => exact Nat.zero_lt_succ _
  | later _ _ ih => exact Nat.succ_lt_succ ih

/-- No body can take the variable away. -/
theorem Holds.block (h : Holds name m) (hround : (block inFunction body).Settles m r m') :
    Holds name m' := by
  have hv : Confined .action m m' := hround.keeps fun n =>
    inScope_confined (executeAll_careful n inFunction body.statements).confined
  exact h.kept (hv h.sees)

/-- A round begins with the number of its turn, whatever happened in the rounds before. -/
theorem Begins.lookup (h : Begins inFunction name body vs m j m') (hm : Holds name m) :
    ∃ v, vs[j]? = some v ∧ m'.pushScope.chain.lookup name = some ⟨v, true⟩ := by
  induction h with
  | first v vs m => exact ⟨v, rfl, hm.lookup v⟩
  | later hround _ ih =>
    -- The body may have assigned or hidden the variable, but it is still there.
    exact ih ((hm.assigned _).block hround)

/-! ## Whole loops -/

section Loop

variable {counter : Ident} {first last : Expr} {span : Span} {a b : Decimal}

theorem settles_count_iff (hfirst : (value first).Settles m (.ok a) m₁)
    (hlast : (value last).Settles m₁ (.ok b) m₂) :
    (statement inFunction (.count counter first last body span)).Settles m r m' ↔
      ∃ m₃, ForEach inFunction counter.name body (closing a b span) (counters a b)
        (m₂.counting counter a b) r m₃ ∧ m' = m₃.popScope := by
  simp only [settles_count hfirst hlast, settles_rounds_iff]

/-- A loop whose rounds all end normally comes to its close. -/
theorem count_closes (hfirst : (value first).Settles m (.ok a) m₁)
    (hlast : (value last).Settles m₁ (.ok b) m₂)
    (hbody : ∀ j m₃,
      Begins inFunction counter.name body (counters a b) (m₂.counting counter a b) j m₃ →
        ∃ m₄, (block inFunction body).Settles m₃ (.ok .normal) m₄) :
    ∃ m', (statement inFunction (.count counter first last body span)).Settles m
      (closing a b span) m' := by
  obtain ⟨m₃, hall⟩ := exists_forEach_atEnd (s := closing a b span) hbody
  exact ⟨m₃.popScope, (settles_count_iff hfirst hlast).2 ⟨m₃, hall, rfl⟩⟩

variable (counter span)

/-- **Loops from an integer on count exactly.** Up to a number whose integer part is not the
    largest one, the body runs once for each integer from the first on, in order, and begins
    with the variable at that integer, whatever it does to variables of this name. The
    loop ends normally after the last round, or else with the first result of a round
    that is not normal. If the first number exceeds the last one, there is no round. -/
theorem count_integers {k : Int} (hsee : m.chain.Sees)
    (hfirst : (value first).Settles m (.ok a) m₁) (hlast : (value last).Settles m₁ (.ok b) m₂)
    (hk : a.value = k) :
    (a.value ≤ b.value → ⌊b.value⌋ + 1 < capacity →
      ((counters a b).length : Int) = ⌊b.value⌋ - k + 1 ∧
      (∀ j m₃, Begins inFunction counter.name body (counters a b) (m₂.counting counter a b) j m₃ →
        ∃ v, v.value = a.value + j ∧
          m₃.pushScope.chain.lookup counter.name = some ⟨v, true⟩) ∧
      (∀ r m', (statement inFunction (.count counter first last body span)).Settles m r m' ↔
        ∃ m₃, ForEach inFunction counter.name body (.ok .normal) (counters a b)
          (m₂.counting counter a b) r m₃ ∧ m' = m₃.popScope) ∧
      ((∀ j m₃, Begins inFunction counter.name body (counters a b) (m₂.counting counter a b) j m₃ →
          ∃ m₄, (block inFunction body).Settles m₃ (.ok .normal) m₄) →
        ∃ m', (statement inFunction (.count counter first last body span)).Settles m
          (.ok .normal) m') ∧
      (∀ j m₃ r m₄,
        Begins inFunction counter.name body (counters a b) (m₂.counting counter a b) j m₃ →
        (block inFunction body).Settles m₃ r m₄ → r ≠ .ok .normal →
        (statement inFunction (.count counter first last body span)).Settles m r m₄.popScope)) ∧
    (b.value < a.value → ∀ r m',
      (statement inFunction (.count counter first last body span)).Settles m r m' ↔
        r = .ok .normal ∧ m' = (m₂.counting counter a b).popScope) := by
  have hholds : Holds counter.name (m₂.counting counter a b) :=
    .counting (value_sees hlast (value_sees hfirst hsee)) counter a b
  constructor
  · intro hle hb
    have hclosing : closing a b span = .ok .normal := closing_of_floor hb a span
    refine ⟨?_, fun j m₃ hj => ?_, fun r m' => ?_, fun hbody => ?_, fun j m₃ r m₄ hj hround hr => ?_⟩
    · have hk_le : k ≤ ⌊b.value⌋ := by
        rw [Int.le_floor, ← hk]
        exact hle
      rw [length_counters_of_integral hk hb]
      omega
    · obtain ⟨v, hv, hlookup⟩ := hj.lookup hholds
      exact ⟨v, by rw [value_of_getElem?_counters hk hb hv, hk], hlookup⟩
    · rw [settles_count_iff hfirst hlast, hclosing]
    · rw [← hclosing]
      exact count_closes hfirst hlast hbody
    · exact (settles_count_iff hfirst hlast).2 ⟨m₄, hj.leave hround hr, rfl⟩
  · intro hlt r m'
    have hle := (le_eq_false_iff a b).2 hlt
    rw [settles_count_iff hfirst hlast, counters_beyond hle, closing_beyond hle]
    simp only [forEach_nil]
    constructor
    · rintro ⟨m₃, ⟨rfl, rfl⟩, rfl⟩
      exact ⟨rfl, rfl⟩
    · rintro ⟨rfl, rfl⟩
      exact ⟨_, ⟨rfl, rfl⟩, rfl⟩

/-- Two rounds from 1.0 to 2.5. -/
theorem count_integers_scaled :
    let at0 : Span := .point 0
    let a : Decimal := ⟨10, 1, by decide, by decide⟩
    let b : Decimal := ⟨25, 1, by decide, by decide⟩
    let body : Block := ⟨[.output (.number .one at0) at0], at0⟩
    let m : Machine Script := .new (.ofInputs []) 128 false
    m.chain.Sees ∧ a.value = (1 : Int) ∧ a.value ≤ b.value ∧ ⌊b.value⌋ + 1 < capacity ∧
      ((counters a b).length : Int) = 2 ∧
      ∃ m', (statement false (.count ⟨"i", at0⟩ (.number a at0) (.number b at0) body at0)).Settles m
        (.ok .normal) m' := by
  intro at0 a b body m
  have hsee : m.chain.Sees := Nat.zero_le _
  have ha : (value (.number a at0)).Settles m (.ok a) m := ⟨1, rfl⟩
  have hb : (value (.number b at0)).Settles m (.ok b) m := ⟨1, rfl⟩
  have hk : a.value = (1 : Int) := by norm_num [a, Decimal.value, tenPow]
  have hle : a.value ≤ b.value := by norm_num [a, b, Decimal.value, tenPow]
  have hfloor : ⌊b.value⌋ = 2 := (floor_value b).trans (by decide)
  have hlt : ⌊b.value⌋ + 1 < capacity := by rw [hfloor]; decide
  have hlength : ((counters a b).length : Int) = 2 := by
    rw [length_counters_of_integral hk hlt, hfloor]
    rfl
  exact ⟨hsee, hk, hle, hlt, hlength,
    ((count_integers ⟨"i", at0⟩ at0 hsee ha hb hk).1 hle hlt).2.2.2.1 fun _ _ _ => ⟨_, 4, rfl⟩⟩

/-- **Only a loop up to the largest decimal overflows.** Its results are those of its rounds,
    but for the one after all rounds have been normal. This is a normal one, unless the
    last number is the largest decimal and there were rounds at all: then the loop fails,
    since the number after the last one is asked for before it is compared. -/
theorem count_overflows_at_largest (hfirst : (value first).Settles m (.ok a) m₁)
    (hlast : (value last).Settles m₁ (.ok b) m₂) :
    (∀ r m', (statement inFunction (.count counter first last body span)).Settles m r m' ↔
      ∃ m₃, ForEach inFunction counter.name body (closing a b span) (counters a b)
        (m₂.counting counter a b) r m₃ ∧ m' = m₃.popScope) ∧
    ((∀ j m₃, Begins inFunction counter.name body (counters a b) (m₂.counting counter a b) j m₃ →
        ∃ m₄, (block inFunction body).Settles m₃ (.ok .normal) m₄) →
      ∃ m', (statement inFunction (.count counter first last body span)).Settles m
        (if a.value ≤ b.value ∧ b.value = largest.value then
          .error ((Cause.overflow "again").at span)
        else .ok .normal) m') :=
  ⟨fun _ _ => settles_count_iff hfirst hlast, count_closes hfirst hlast⟩

/-- One below the largest decimal there is no overflow yet. -/
theorem count_overflows_at_largest_below :
    let at0 : Span := .point 0
    let b : Decimal := ⟨capacity - 2, 0, by decide, by decide⟩
    let body : Block := ⟨[.output (.number .one at0) at0], at0⟩
    let m : Machine Script := .new (.ofInputs []) 128 false
    b.value = largest.value - 1 ∧
      ∃ m', (statement false (.count ⟨"i", at0⟩ (.number b at0) (.number b at0) body at0)).Settles m
        (.ok .normal) m' := by
  intro at0 b body m
  have hvalue : b.value = largest.value - 1 := by
    rw [value_largest]
    simp only [b, Decimal.value, tenPow]
    push_cast
    ring
  have hb : (value (.number b at0)).Settles m (.ok b) m := ⟨1, rfl⟩
  have hne : ¬ (b.value ≤ b.value ∧ b.value = largest.value) := by
    rintro ⟨-, heq⟩
    rw [hvalue] at heq
    linarith
  have hround (m₁ : Machine Script) : ∃ m₂, (block false body).Settles m₁ (.ok .normal) m₂ :=
    ⟨_, 4, rfl⟩
  have hends := (count_overflows_at_largest ⟨"i", at0⟩ at0 hb hb).2 fun _ m₃ _ => hround m₃
  rw [if_neg hne] at hends
  exact ⟨hvalue, hends⟩

/-- A loop at the largest decimal has its round and fails. -/
theorem largest_overflows :
    let at0 : Span := .point 0
    let body : Block := ⟨[.output (.number .one at0) at0], at0⟩
    let m : Machine Script := .new (.ofInputs []) 128 false
    (∀ m₁ : Machine Script, ∃ m₂, (block false body).Settles m₁ (.ok .normal) m₂) ∧
      ∃ m', (statement false
        (.count ⟨"i", at0⟩ (.number largest at0) (.number largest at0) body at0)).Settles m
          (.error ((Cause.overflow "again").at at0)) m' ∧ m'.channel.outputs = [.one] := by
  intro at0 body m
  have hround (m₁ : Machine Script) : (block false body).Settles m₁ (.ok .normal)
      (final (inScope (executeAll 4 false body.statements)) m₁) := ⟨4, rfl⟩
  have hfirst : (value (.number largest at0)).Settles m (.ok largest) m := ⟨1, rfl⟩
  have hle : largest.le largest = true := (le_iff _ _).2 le_rfl
  have hnext := (add_one_eq_none_iff largest).2 rfl
  let m₁ := (m.counting ⟨"i", at0⟩ largest largest).assigned "i" largest
  let m₂ := final (inScope (executeAll 4 false body.statements)) m₁
  refine ⟨fun m₁ => ⟨_, hround m₁⟩, m₂.popScope, ?_, rfl⟩
  rw [← closing_last hle hnext, settles_count_iff hfirst hfirst, counters_last hle hnext]
  exact ⟨m₂, .round (hround m₁) (.done m₂), rfl⟩

/-- **Loops make progress.** The next number is larger by one half at least, so there are two
    rounds for each unit at most, and a loop comes to an end if each round that begins does. -/
theorem count_progresses (hfirst : (value first).Settles m (.ok a) m₁)
    (hlast : (value last).Settles m₁ (.ok b) m₂) :
    (∀ c c' : Decimal, c.add .one = some c' → c.value + 1 / 2 ≤ c'.value) ∧
    (∀ r m', (statement inFunction (.count counter first last body span)).Settles m r m' ↔
      ∃ m₃, ForEach inFunction counter.name body (closing a b span) (counters a b)
        (m₂.counting counter a b) r m₃ ∧ m' = m₃.popScope) ∧
    (a.value ≤ b.value → ((counters a b).length : ℚ) ≤ 2 * (b.value - a.value) + 1) ∧
    (∀ j m₃, Begins inFunction counter.name body (counters a b) (m₂.counting counter a b) j m₃ →
      j < (counters a b).length) ∧
    ((∀ j m₃, Begins inFunction counter.name body (counters a b) (m₂.counting counter a b) j m₃ →
        ∃ r m₄, (block inFunction body).Settles m₃ r m₄) →
      ∃ r m', (statement inFunction (.count counter first last body span)).Settles m r m') := by
  refine ⟨fun _ _ => half_le_add_one, fun _ _ => settles_count_iff hfirst hlast,
    length_counters_le, fun _ _ hj => hj.lt_length, fun hbody => ?_⟩
  obtain ⟨r, m₃, hall⟩ := exists_forEach (s := closing a b span) hbody
  exact ⟨r, m₃.popScope, (settles_count_iff hfirst hlast).2 ⟨m₃, hall, rfl⟩⟩

/-- From 0.5 to 2.75 there are five rounds at most, and an end. -/
theorem count_progresses_fractions :
    let at0 : Span := .point 0
    let a : Decimal := ⟨5, 1, by decide, by decide⟩
    let b : Decimal := ⟨275, 2, by decide, by decide⟩
    let body : Block := ⟨[.output (.number .one at0) at0], at0⟩
    let m : Machine Script := .new (.ofInputs []) 128 false
    ((counters a b).length : ℚ) ≤ 11 / 2 ∧
      ∃ r m', (statement false (.count ⟨"i", at0⟩ (.number a at0) (.number b at0) body at0)).Settles
        m r m' := by
  intro at0 a b body m
  have ha : (value (.number a at0)).Settles m (.ok a) m := ⟨1, rfl⟩
  have hb : (value (.number b at0)).Settles m (.ok b) m := ⟨1, rfl⟩
  have hvalue : a.value = 1 / 2 := by norm_num [a, Decimal.value, tenPow]
  have hvalue' : b.value = 11 / 4 := by norm_num [b, Decimal.value, tenPow]
  have hlength := length_counters_le (a := a) (b := b) (by rw [hvalue, hvalue']; norm_num)
  rw [hvalue, hvalue'] at hlength
  have hround (m₁ : Machine Script) : ∃ r m₂, (block false body).Settles m₁ r m₂ :=
    ⟨.ok .normal, _, 4, rfl⟩
  exact ⟨by linarith, (count_progresses ⟨"i", at0⟩ at0 ha hb).2.2.2.2 fun _ m₃ _ => hround m₃⟩

end Loop

end Bello.Exec
