import Mathlib.Algebra.Order.Field.Rat
import Mathlib.Data.Nat.Prime.Basic
import Mathlib.Data.Rat.Floor
import Mathlib.Tactic.FieldSimp
import Mathlib.Tactic.Linarith
import Bello.Decimal.Basic

/- The numbers that decimals stand for.

   A decimal stands for a rational number, whatever the scale that it is held at. Order is
   by value (`le_iff`), and every value lies below the capacity (`abs_value_le`).

   Taking zeros off the end of a mantissa leaves the value as it is (`value_normalize`) and
   ends at the least scale that can hold it: a number with `p` places after the point is
   never held at a larger one (`normalize_scale_le`).

   `Representable x` says that some decimal has the value `x`. Powers of one base use up
   mantissa and scale alike, so a base with a representable power has all lower powers
   representable too (`representable_pow_of_le`): in lowest terms a power of `a / 10 ^ t` is
   `a ^ n / 10 ^ (t * n)`, and this is in lowest terms again. -/
namespace Bello

theorem cast_tenPow_pos (n : Nat) : (0 : ℚ) < tenPow n := by
  exact_mod_cast tenPow_pos n

theorem one_le_cast_tenPow (n : Nat) : (1 : ℚ) ≤ tenPow n := by
  exact_mod_cast tenPow_pos n

theorem cast_tenPow_add (m n : Nat) : (tenPow (m + n) : ℚ) = tenPow m * tenPow n := by
  exact_mod_cast tenPow_add m n

theorem cast_natAbs (x : Int) : (x.natAbs : ℚ) = |(x : ℚ)| := by
  rw [Nat.cast_natAbs, Int.cast_abs]

namespace Decimal

/-- The number that a decimal stands for. -/
def value (d : Decimal) : ℚ := d.mantissa / tenPow d.scale

theorem value_mul_tenPow (d : Decimal) : d.value * tenPow d.scale = d.mantissa := by
  have := cast_tenPow_pos d.scale
  unfold value
  field_simp

@[simp] theorem value_one : one.value = 1 := by
  simp [value, one, tenPow]

theorem value_of_isZero {d : Decimal} (h : d.isZero = true) : d.value = 0 := by
  have hm : d.mantissa = 0 := by simpa [isZero] using h
  simp [value, hm]

/-- Order is by value. -/
theorem le_iff (a b : Decimal) : a.le b = true ↔ a.value ≤ b.value := by
  have ha := cast_tenPow_pos a.scale
  have hb := cast_tenPow_pos b.scale
  have hle : a.le b = true ↔ a.mantissa * tenPow b.scale ≤ b.mantissa * tenPow a.scale := by
    unfold le cmp
    rw [bne_iff_ne, ne_eq, compare_gt_iff_gt, not_lt]
  rw [hle, value, value, div_le_div_iff₀ ha hb]
  exact_mod_cast Iff.rfl

theorem le_eq_false_iff (a b : Decimal) : a.le b = false ↔ b.value < a.value := by
  rw [← not_le, ← le_iff, Bool.not_eq_true]

theorem abs_mantissa_le (d : Decimal) : |(d.mantissa : ℚ)| ≤ capacity - 1 := by
  have hlt : (d.mantissa.natAbs : ℚ) + 1 ≤ capacity := by exact_mod_cast d.mantissa_lt
  rw [cast_natAbs] at hlt
  linarith

/-- All values are within the capacity, the more so the larger the scale. -/
theorem abs_value_le (d : Decimal) : |d.value| ≤ (capacity - 1) / tenPow d.scale := by
  have hpos := cast_tenPow_pos d.scale
  rw [value, abs_div, abs_of_pos hpos]
  exact div_le_div_of_nonneg_right d.abs_mantissa_le hpos.le

theorem floor_value (d : Decimal) : ⌊d.value⌋ = d.mantissa / tenPow d.scale :=
  Rat.floor_intCast_div_natCast d.mantissa (tenPow d.scale)

/-! ## Trailing zeros -/

theorem value_stripZeros (m : Int) (s : Nat) :
    ((stripZeros m s).1 : ℚ) / tenPow (stripZeros m s).2 = m / tenPow s := by
  induction s generalizing m with
  | zero => rfl
  | succ s ih =>
    unfold stripZeros
    split
    · next hzero =>
      have hm : m = m / 10 * 10 := by omega
      have hcast : (m : ℚ) = (m / 10 : Int) * 10 := by exact_mod_cast hm
      have hpos := cast_tenPow_pos s
      rw [ih, hcast, tenPow_succ]
      push_cast
      field_simp
    · rfl

/-- What is left has no trailing zero after the point. -/
theorem stripZeros_least (m : Int) (s : Nat) :
    (stripZeros m s).2 = 0 ∨ ¬ (10 : Int) ∣ (stripZeros m s).1 := by
  induction s generalizing m with
  | zero => exact .inl rfl
  | succ s ih =>
    unfold stripZeros
    split
    · exact ih (m / 10)
    · next hne => exact .inr (fun hdvd => hne (Int.emod_eq_zero_of_dvd hdvd))

theorem value_normalize (d : Decimal) : d.normalize.value = d.value :=
  value_stripZeros d.mantissa d.scale

theorem normalize_least (d : Decimal) :
    d.normalize.scale = 0 ∨ ¬ (10 : Int) ∣ d.normalize.mantissa :=
  stripZeros_least d.mantissa d.scale

/-- The same number with more places: zeros are put to the end of the mantissa. -/
theorem eq_mul_of_div_eq {a m : Int} {t s : Nat} (hle : t ≤ s)
    (h : (a : ℚ) / tenPow t = m / tenPow s) : m = a * tenPow (s - t) := by
  have ht := cast_tenPow_pos t
  have hs := cast_tenPow_pos s
  have hpow : (tenPow s : ℚ) = tenPow (s - t) * tenPow t := by
    rw [← cast_tenPow_add, Nat.sub_add_cancel hle]
  rw [div_eq_div_iff ht.ne' hs.ne', hpow, ← mul_assoc] at h
  have hm : (m : ℚ) = a * tenPow (s - t) := (mul_right_cancel₀ ht.ne' h).symm
  exact_mod_cast hm

/-- A fraction in lowest terms needs all its places. -/
theorem places_le {a k : Int} {t p : Nat} (hleast : t = 0 ∨ ¬ (10 : Int) ∣ a)
    (h : (a : ℚ) / tenPow t = k / tenPow p) : t ≤ p := by
  by_contra hlt
  have ha := eq_mul_of_div_eq (by omega) h.symm
  -- The places in excess would all be trailing zeros.
  have hten : (10 : Int) ∣ tenPow (t - p) := by
    obtain ⟨i, hi⟩ : ∃ i, t - p = i + 1 := ⟨t - p - 1, by omega⟩
    exact ⟨tenPow i, by rw [hi, tenPow_succ]; push_cast; ring⟩
  rcases hleast with h0 | hnot
  · omega
  · exact hnot (ha ▸ Dvd.dvd.mul_left hten k)

/-- The least scale of a decimal is the number of places that its value has. -/
theorem normalize_scale_le {d : Decimal} {p : Nat} {k : Int} (h : d.value = k / tenPow p) :
    d.normalize.scale ≤ p := by
  rw [← value_normalize] at h
  exact places_le d.normalize_least h

/-- A value has as many places as its scale says, or more. -/
theorem value_places {d : Decimal} {p : Nat} (h : d.scale ≤ p) :
    ∃ k : Int, d.value = k / tenPow p := by
  have hs := cast_tenPow_pos d.scale
  have hpow : (tenPow p : ℚ) = tenPow (p - d.scale) * tenPow d.scale := by
    rw [← cast_tenPow_add, Nat.sub_add_cancel h]
  have hrest := cast_tenPow_pos (p - d.scale)
  refine ⟨d.mantissa * tenPow (p - d.scale), ?_⟩
  rw [value, hpow]
  push_cast
  field_simp

/-! ## Values that decimals have -/

/-- Some decimal has this value. -/
def Representable (x : ℚ) : Prop :=
  ∃ (m : Int) (s : Nat), m.natAbs < capacity ∧ s ≤ maxScale ∧ x = m / tenPow s

theorem representable_iff {x : ℚ} : Representable x ↔ ∃ d : Decimal, d.value = x := by
  constructor
  · rintro ⟨m, s, hm, hs, rfl⟩
    exact ⟨⟨m, s, hm, hs⟩, rfl⟩
  · rintro ⟨d, rfl⟩
    exact ⟨d.mantissa, d.scale, d.mantissa_lt, d.scale_le, rfl⟩

theorem not_ten_dvd_pow {a : Int} (h : ¬ (10 : Int) ∣ a) (n : Nat) : ¬ (10 : Int) ∣ a ^ n := by
  intro hdvd
  have hdvd : 10 ∣ a.natAbs ^ n := by
    rw [← Int.natAbs_pow]
    exact Int.natCast_dvd.1 hdvd
  have htwo : 2 ∣ a.natAbs := Nat.prime_two.dvd_of_dvd_pow (Nat.dvd_trans (by decide) hdvd)
  have hfive : 5 ∣ a.natAbs := Nat.prime_five.dvd_of_dvd_pow (Nat.dvd_trans (by decide) hdvd)
  have hten : 2 * 5 ∣ a.natAbs := Nat.Coprime.mul_dvd_of_dvd_of_dvd (by decide) htwo hfive
  exact h (Int.natCast_dvd.2 hten)

theorem div_tenPow_pow (a : Int) (t n : Nat) :
    ((a : ℚ) / tenPow t) ^ n = (a ^ n : Int) / tenPow (t * n) := by
  have hpow : (tenPow (t * n) : ℚ) = (tenPow t : ℚ) ^ n := by
    exact_mod_cast Nat.pow_mul 10 t n
  rw [div_pow, hpow]
  push_cast
  rfl

theorem representable_pow {d : Decimal} {k : Nat} (hm : d.magnitude ^ k < capacity)
    (hs : d.scale * k ≤ maxScale) : Representable (d.value ^ k) :=
  ⟨d.mantissa ^ k, d.scale * k, by rwa [Int.natAbs_pow], hs, div_tenPow_pow _ _ _⟩

/-- Where a power can be held, the lower powers of the same base can be held too. -/
theorem representable_pow_of_le (d : Decimal) {k n : Nat} (hk : k ≤ n)
    (h : Representable (d.value ^ n)) : Representable (d.value ^ k) := by
  obtain ⟨m, s, hm, hs, hpow⟩ := h
  have hleast := d.normalize_least
  rw [← value_normalize, value] at hpow ⊢
  generalize d.normalize.mantissa = a at hleast hpow ⊢
  generalize d.normalize.scale = t at hleast hpow ⊢
  rw [div_tenPow_pow] at hpow ⊢
  have hleast' : t * n = 0 ∨ ¬ (10 : Int) ∣ a ^ n :=
    hleast.imp (fun ht => by rw [ht, Nat.zero_mul]) (fun ha => not_ten_dvd_pow ha n)
  have hplaces : t * n ≤ s := places_le hleast' hpow
  have hmantissa : m.natAbs = a.natAbs ^ n * tenPow (s - t * n) := by
    rw [eq_mul_of_div_eq hplaces hpow, Int.natAbs_mul, Int.natAbs_pow, Int.natAbs_natCast]
  have hlt : a.natAbs ^ n < capacity :=
    Nat.lt_of_le_of_lt (by rw [hmantissa]; exact Nat.le_mul_of_pos_right _ (tenPow_pos _)) hm
  have hscale : t * k ≤ maxScale :=
    Nat.le_trans (Nat.mul_le_mul_left t hk) (Nat.le_trans hplaces hs)
  refine ⟨a ^ k, t * k, ?_, hscale, rfl⟩
  rw [Int.natAbs_pow]
  rcases Nat.eq_zero_or_pos a.natAbs with h0 | hpos
  · -- The powers of zero are zero and one.
    rw [h0]
    exact Nat.lt_of_le_of_lt (Nat.pow_le_pow_left (Nat.zero_le 1) k) (by rw [Nat.one_pow]; decide)
  · exact Nat.lt_of_le_of_lt (Nat.pow_le_pow_right hpos hk) hlt

end Decimal

end Bello
