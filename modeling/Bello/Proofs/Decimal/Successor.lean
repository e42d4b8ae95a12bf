import Bello.Decimal.Arithmetic
import Bello.Proofs.Decimal.Fitting

/- One more, and counting by ones.

   Adding one to a decimal can drop digits, so the sum need not be exact. It is larger by one
   half at least (`half_le_add_one`), it is exact for integers (`add_one_of_integral`), and
   it exists for every decimal but the largest one (`add_one_eq_none_iff`).

   `counters a b` are the decimals that are passed in counting from `a` as long as `b` is not
   exceeded. There are finitely many (`length_counters_le`), and from an integer on they are
   consecutive integers up to `b` (`map_value_counters`). -/
namespace Bello.Decimal

/-- The largest decimal. -/
def largest : Decimal := ⟨capacity - 1, 0, by decide, Nat.zero_le maxScale⟩

theorem value_largest : largest.value = capacity - 1 := by
  simp [value, largest, tenPow]

theorem abs_value_le_largest (d : Decimal) : |d.value| ≤ largest.value := by
  have hcap : (1 : ℚ) ≤ capacity := by exact_mod_cast (by decide : 1 ≤ capacity)
  rw [value_largest]
  exact d.abs_value_le.trans (div_le_self (by linarith) (one_le_cast_tenPow d.scale))

theorem value_le_largest (d : Decimal) : d.value ≤ largest.value :=
  (le_abs_self _).trans d.abs_value_le_largest

/-- A decimal with places after the point is far from the largest. -/
theorem scale_eq_zero_of_large {d : Decimal} (h : (capacity : ℚ) - 3 / 2 ≤ d.value) :
    d.scale = 0 := by
  have hcap : (100 : ℚ) ≤ capacity := by exact_mod_cast (by decide : 100 ≤ capacity)
  by_contra hpos
  have hten : (10 : ℚ) ≤ tenPow d.scale := by
    exact_mod_cast Nat.pow_le_pow_right (by decide : 0 < 10) (Nat.pos_of_ne_zero hpos)
  have hle : (capacity - 1) / tenPow d.scale ≤ ((capacity : ℚ) - 1) / 10 :=
    div_le_div_of_nonneg_left (by linarith) (by norm_num) hten
  have := (le_abs_self _).trans d.abs_value_le
  linarith

theorem isZero_one : one.isZero = false := rfl

/-- The exact sum, before it is brought within the bounds. -/
theorem add_one_eq {d : Decimal} (h : d.isZero = false) :
    d.add one = fit (d.mantissa + tenPow d.scale) d.scale := by
  have hmax : Nat.max d.scale one.scale = d.scale := Nat.max_eq_left (Nat.zero_le _)
  simp only [add, h, isZero_one, Bool.false_eq_true, if_false, hmax, Nat.sub_self]
  simp [one, tenPow]

theorem sum_one_div (d : Decimal) :
    ((d.mantissa + tenPow d.scale : Int) : ℚ) / tenPow d.scale = d.value + 1 := by
  have := cast_tenPow_pos d.scale
  push_cast
  rw [add_div, div_self this.ne']
  rfl

/-- The sum is larger by one half at least. -/
theorem half_le_add_one {d e : Decimal} (h : d.add one = some e) :
    d.value + 1 / 2 ≤ e.value := by
  cases hz : d.isZero with
  | true =>
    simp only [add, hz, if_true] at h
    cases h
    rw [value_of_isZero hz, value_one]
    norm_num
  | false =>
    rw [add_one_eq hz] at h
    have hnear := abs_fit_sub_le h
    have hhalf : (1 : ℚ) / 2 / tenPow e.scale ≤ 1 / 2 :=
      div_le_self (by norm_num) (one_le_cast_tenPow e.scale)
    rw [sum_one_div, abs_le] at hnear
    linarith

/-- The sum of an integer and one is exact, whatever the scale. -/
theorem add_one_of_integral {d : Decimal} {k : Int} (hk : d.value = k)
    (hlt : k + 1 < capacity) : ∃ e, d.add one = some e ∧ e.value = k + 1 := by
  cases hz : d.isZero with
  | true =>
    refine ⟨one, by simp only [add, hz, if_true], ?_⟩
    rw [← hk, value_of_isZero hz, value_one, zero_add]
  | false =>
    have hm : d.mantissa = k * tenPow d.scale := by
      have := d.value_mul_tenPow
      rw [hk] at this
      exact_mod_cast this.symm
    -- The integer itself is within the capacity, since it is the value of a decimal.
    have hlow : -(capacity : Int) < k := by
      have habs := (neg_le_abs _).trans d.abs_value_le_largest
      rw [hk, value_largest] at habs
      have : -(capacity : ℚ) < k := by linarith
      exact_mod_cast this
    have hsum : (d.mantissa + tenPow d.scale : Int).natAbs = (k + 1).natAbs * tenPow d.scale := by
      rw [hm, ← add_one_mul, Int.natAbs_mul, Int.natAbs_natCast]
    obtain ⟨e, he, hvalue⟩ := fit_of_dvd (x := d.mantissa + tenPow d.scale) (Nat.le_refl d.scale)
      (by omega) (by rw [hsum]; exact Nat.dvd_mul_left _ _)
      (by rw [hsum, Nat.mul_div_cancel _ (tenPow_pos _)]; omega)
    refine ⟨e, by rw [add_one_eq hz, he], ?_⟩
    rw [hvalue, sum_one_div, hk]

/-- Only the largest decimal has no successor. -/
theorem add_one_eq_none_iff (d : Decimal) : d.add one = none ↔ d.value = largest.value := by
  have hcap : (100 : ℚ) ≤ capacity := by exact_mod_cast (by decide : 100 ≤ capacity)
  have habs := abs_le.1 d.abs_value_le_largest
  rw [value_largest] at habs ⊢
  have hdiv : |((d.mantissa + tenPow d.scale : Int) : ℚ)| / tenPow d.scale = |d.value + 1| := by
    rw [← sum_one_div, abs_div, abs_of_pos (cast_tenPow_pos d.scale)]
  constructor
  · intro h
    have hz : d.isZero = false := by
      by_contra hz
      simp [add, Bool.eq_true_of_not_eq_false hz] at h
    rw [add_one_eq hz] at h
    have hle := le_of_fit_none h
    rw [hdiv] at hle
    -- A negative sum is smaller in size than the decimal itself.
    have hlarge : (capacity : ℚ) - 3 / 2 ≤ d.value := by
      rcases le_abs.1 hle with hpos | hneg
      · linarith
      · linarith
    -- So large a decimal is an integer, and there is only one in reach.
    have hscale := scale_eq_zero_of_large hlarge
    have hint : d.value = d.mantissa := by
      rw [value, hscale]
      simp [tenPow]
    have hge : (capacity : Int) - 1 ≤ d.mantissa := by
      have : ((capacity : Int) : ℚ) - 2 < d.mantissa := by
        rw [← hint]
        push_cast
        linarith
      have : (capacity : Int) - 2 < d.mantissa := by exact_mod_cast this
      omega
    have hge : (capacity : ℚ) - 1 ≤ d.mantissa := by exact_mod_cast hge
    linarith
  -- Conversely the sum would be the capacity, which is half a unit too large to fit.
  · intro h
    have hz : d.isZero = false := by
      by_contra hz
      rw [value_of_isZero (Bool.eq_true_of_not_eq_false hz)] at h
      linarith
    cases hsum : d.add one with
    | none => rfl
    | some e =>
      rw [add_one_eq hz] at hsum
      have hle := abs_le_of_fit_some hsum
      rw [hdiv, h, sub_add_cancel, abs_of_nonneg (by linarith)] at hle
      linarith

/-! ## Counting -/

/-- A bound on the number of counters. -/
def countBound (a b : Decimal) : Nat := (⌊2 * (b.value - a.value)⌋ + 1).toNat

theorem countBound_lt {a b next : Decimal} (hle : a.le b = true)
    (hnext : a.add one = some next) : countBound next b < countBound a b := by
  have hhalf := half_le_add_one hnext
  rw [le_iff] at hle
  have hpos : 0 ≤ ⌊2 * (b.value - a.value)⌋ := Int.floor_nonneg.2 (by linarith)
  -- Half a unit is a whole step of the doubled distance.
  have hstep : ⌊2 * (b.value - next.value)⌋ + 1 ≤ ⌊2 * (b.value - a.value)⌋ := by
    rw [← Int.floor_add_one]
    exact Int.floor_le_floor (by linarith)
  unfold countBound
  omega

/-- The numbers from the first one on, each time one more, that do not exceed the last one. -/
def counters (a b : Decimal) : List Decimal :=
  if _ : a.le b = true then
    match _ : a.add one with
    | some next => a :: counters next b
    | none => [a]
  else []
termination_by countBound a b
decreasing_by exact countBound_lt ‹_› ‹_›

theorem counters_beyond {a b : Decimal} (h : a.le b = false) : counters a b = [] := by
  rw [counters, dif_neg (by rw [h]; exact Bool.false_ne_true)]

theorem counters_next {a b next : Decimal} (h : a.le b = true) (hnext : a.add one = some next) :
    counters a b = a :: counters next b := by
  rw [counters, dif_pos h]
  split
  · next hsome =>
    cases hnext.symm.trans hsome
    rfl
  · next hnone =>
    rw [hnext] at hnone
    cases hnone

theorem counters_last {a b : Decimal} (h : a.le b = true) (hnext : a.add one = none) :
    counters a b = [a] := by
  rw [counters, dif_pos h]
  split
  · next hsome =>
    rw [hnext] at hsome
    cases hsome
  · rfl

/-- Counting from `a` to `b`, by what comes next. -/
theorem counters_induction {b : Decimal} {P : Decimal → Prop}
    (beyond : ∀ a, a.le b = false → P a)
    (next : ∀ a a', a.le b = true → a.add one = some a' → P a' → P a)
    (last : ∀ a, a.le b = true → a.add one = none → P a) (a : Decimal) : P a := by
  cases hle : a.le b with
  | false => exact beyond a hle
  | true =>
    cases hnext : a.add one with
    | none => exact last a hle hnext
    | some a' => exact next a a' hle hnext (counters_induction beyond next last a')
termination_by countBound a b
decreasing_by exact countBound_lt hle hnext

theorem length_counters_le_countBound (a b : Decimal) :
    (counters a b).length ≤ countBound a b := by
  induction a using counters_induction (b := b) with
  | beyond a h => simp [counters_beyond h]
  | next a a' h hnext ih =>
    have := countBound_lt h hnext
    rw [counters_next h hnext, List.length_cons]
    omega
  | last a h hnext =>
    rw [le_iff] at h
    have : 0 ≤ ⌊2 * (b.value - a.value)⌋ := Int.floor_nonneg.2 (by linarith)
    rw [counters_last ((le_iff a b).2 h) hnext, List.length_singleton, countBound]
    omega

/-- There are two counters for each unit at most. -/
theorem length_counters_le {a b : Decimal} (h : a.value ≤ b.value) :
    ((counters a b).length : ℚ) ≤ 2 * (b.value - a.value) + 1 := by
  have hpos : 0 ≤ ⌊2 * (b.value - a.value)⌋ := Int.floor_nonneg.2 (by linarith)
  have hle : ((counters a b).length : Int) ≤ ⌊2 * (b.value - a.value)⌋ + 1 := by
    have := length_counters_le_countBound a b
    unfold countBound at this
    omega
  have hle : ((counters a b).length : ℚ) ≤ (⌊2 * (b.value - a.value)⌋ : ℚ) + 1 := by
    exact_mod_cast hle
  have := Int.floor_le (2 * (b.value - a.value))
  linarith

/-- From an integer on, the counters are the integers up to the last number. -/
theorem map_value_counters {a b : Decimal} {k : Int} (hk : a.value = k)
    (hb : ⌊b.value⌋ + 1 < capacity) :
    (counters a b).map value =
      (List.range (⌊b.value⌋ - k + 1).toNat).map (fun j : Nat => (k : ℚ) + j) := by
  induction a using counters_induction (b := b) generalizing k with
  | beyond a h =>
    have hlt : ⌊b.value⌋ < k := by
      rw [Int.floor_lt, ← hk]
      exact (le_eq_false_iff a b).1 h
    rw [counters_beyond h, Int.toNat_of_nonpos (by omega)]
    rfl
  | next a a' h hnext ih =>
    have hle : k ≤ ⌊b.value⌋ := by
      rw [Int.le_floor, ← hk]
      exact (le_iff a b).1 h
    obtain ⟨e, he, hvalue⟩ := add_one_of_integral hk (by omega)
    cases hnext.symm.trans he
    have hcount : (⌊b.value⌋ - k + 1).toNat = (⌊b.value⌋ - (k + 1) + 1).toNat + 1 := by omega
    rw [counters_next h hnext, List.map_cons, ih (by exact_mod_cast hvalue), hcount,
      List.range_succ_eq_map, List.map_cons, List.map_map, hk, Nat.cast_zero, add_zero]
    congr 1
    refine List.map_congr_left (fun j _ => ?_)
    push_cast [Function.comp_apply]
    ring
  | last a h hnext =>
    have hle : k ≤ ⌊b.value⌋ := by
      rw [Int.le_floor, ← hk]
      exact (le_iff a b).1 h
    obtain ⟨e, he, -⟩ := add_one_of_integral hk (by omega)
    rw [hnext] at he
    cases he

theorem length_counters_of_integral {a b : Decimal} {k : Int} (hk : a.value = k)
    (hb : ⌊b.value⌋ + 1 < capacity) : (counters a b).length = (⌊b.value⌋ - k + 1).toNat := by
  rw [← List.length_map (f := value), map_value_counters hk hb, List.length_map, List.length_range]

theorem value_of_getElem?_counters {a b v : Decimal} {k : Int} {j : Nat} (hk : a.value = k)
    (hb : ⌊b.value⌋ + 1 < capacity) (hj : (counters a b)[j]? = some v) : v.value = k + j := by
  have hmap : ((counters a b).map value)[j]? = some v.value := by
    rw [List.getElem?_map, hj, Option.map_some]
  rw [map_value_counters hk hb, List.getElem?_map] at hmap
  obtain ⟨i, hi, hv⟩ := Option.map_eq_some_iff.1 hmap
  obtain ⟨hlt, rfl⟩ := List.getElem?_eq_some_iff.1 hi
  rw [← hv, List.getElem_range]

end Bello.Decimal
