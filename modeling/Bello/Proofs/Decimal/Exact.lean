import Mathlib.Data.Nat.Cast.Field
import Bello.Decimal.Arithmetic
import Bello.Proofs.Decimal.Fitting
import Bello.Proofs.Decimal.Value

/- Exact products and quotients.

   A result that can be held is not rounded: the digits that go are zeros. This is so for
   products (`mul_exact`), whatever the scales of the factors, and for quotients
   (`div_exact`), where long division may draw more digits than it has to but never loses one.
   Integers whose product reaches the capacity have none (`mul_eq_none`). -/
namespace Bello.Decimal

/-! ## Products -/

/-- What can be held fits as it is. -/
theorem fit_exact {x : Int} {scale : Nat} (h : Representable ((x : ℚ) / tenPow scale)) :
    ∃ d, fit x scale = some d ∧ d.value = x / tenPow scale := by
  obtain ⟨m, s, hm, hs, heq⟩ := h
  rcases Nat.le_total s scale with hle | hle
  · have hx : x.natAbs = m.natAbs * tenPow (scale - s) := by
      rw [eq_mul_of_div_eq hle heq.symm, Int.natAbs_mul, Int.natAbs_natCast]
    refine fit_of_dvd (Nat.sub_le scale s) (by omega) (by rw [hx]; exact Nat.dvd_mul_left _ _) ?_
    rwa [hx, Nat.mul_div_cancel _ (tenPow_pos _)]
  · have hx : m.natAbs = x.natAbs * tenPow (s - scale) := by
      rw [eq_mul_of_div_eq hle heq, Int.natAbs_mul, Int.natAbs_natCast]
    have hlt : x.natAbs < capacity :=
      Nat.lt_of_le_of_lt (by rw [hx]; exact Nat.le_mul_of_pos_right _ (tenPow_pos _)) hm
    have hone : tenPow 0 = 1 := rfl
    exact fit_of_dvd (Nat.zero_le scale) (by omega) (by rw [hone]; exact Nat.one_dvd _)
      (by rwa [hone, Nat.div_one])

theorem isZero_iff (d : Decimal) : d.isZero = true ↔ d.value = 0 := by
  refine ⟨value_of_isZero, fun h => ?_⟩
  have hm : (d.mantissa : ℚ) = 0 := by rw [← value_mul_tenPow, h, zero_mul]
  have hm : d.mantissa = 0 := by exact_mod_cast hm
  simp [isZero, hm]

theorem value_zero : zero.value = 0 := by simp [value, zero]

/-- The exact product, before it is brought within the bounds. -/
theorem mul_eq_fit {a b : Decimal} (ha : a.value ≠ 0) (hb : b.value ≠ 0) :
    a.mul b = fit (a.mantissa * b.mantissa) (a.scale + b.scale) := by
  rw [ne_eq, ← isZero_iff] at ha hb
  simp [mul, ha, hb]

theorem product_div (a b : Decimal) :
    ((a.mantissa * b.mantissa : Int) : ℚ) / tenPow (a.scale + b.scale) = a.value * b.value := by
  rw [cast_tenPow_add, Int.cast_mul, mul_div_mul_comm]
  rfl

theorem mul_of_eq_zero {a b : Decimal} (h : a.value * b.value = 0) : a.mul b = some zero := by
  rw [mul_eq_zero, ← isZero_iff, ← isZero_iff] at h
  simp [mul, h]

/-- A product that can be held is exact. -/
theorem mul_exact {a b : Decimal} (h : Representable (a.value * b.value)) :
    ∃ c, a.mul b = some c ∧ c.value = a.value * b.value := by
  by_cases hzero : a.value * b.value = 0
  · exact ⟨zero, mul_of_eq_zero hzero, by rw [hzero, value_zero]⟩
  · obtain ⟨ha, hb⟩ := mul_ne_zero_iff.1 hzero
    rw [mul_eq_fit ha hb, ← product_div]
    rw [← product_div] at h
    exact fit_exact h

/-- Numbers that reach the capacity have no product. -/
theorem mul_eq_none {a b : Decimal} (h : (capacity : ℚ) ≤ |a.value * b.value|) :
    a.mul b = none := by
  have hcap : (0 : ℚ) < capacity := by exact_mod_cast (by decide : 0 < capacity)
  have hpos := cast_tenPow_pos (a.scale + b.scale)
  have hne : a.value * b.value ≠ 0 := abs_pos.1 (hcap.trans_le h)
  obtain ⟨ha, hb⟩ := mul_ne_zero_iff.1 hne
  rw [mul_eq_fit ha hb]
  refine fit_eq_none ((Nat.le_div_iff_mul_le (tenPow_pos _)).2 ?_)
  rw [← product_div, abs_div, abs_of_pos hpos, ← cast_natAbs, le_div_iff₀ hpos] at h
  exact_mod_cast h

/-! ## Long division -/

theorem stretch_le (q most : Nat) : stretch q most ≤ most := by
  induction most with
  | zero => exact Nat.le_refl 0
  | succ p ih =>
    unfold stretch
    split
    · exact Nat.le_refl _
    · exact Nat.le_succ_of_le ih

theorem stretch_lt {q : Nat} (hq : q < capacity) (most : Nat) :
    q * tenPow (stretch q most) < capacity := by
  induction most with
  | zero => simpa [stretch, tenPow] using hq
  | succ p ih =>
    unfold stretch
    split
    · assumption
    · exact ih

/-- There is a next digit if the quotient has room for one. -/
theorem stretch_pos {q most : Nat} (hmost : 0 < most) (h : q * tenPow 1 < capacity) :
    0 < stretch q most := by
  induction most with
  | zero => cases hmost
  | succ p ih =>
    unfold stretch
    split
    · exact Nat.succ_pos p
    · next hfull =>
      cases p with
      | zero => exact absurd h hfull
      | succ p => exact ih (Nat.succ_pos p)

/-- A quotient with room for one digit more than `i` is not filled by `i` digits. -/
theorem succ_mul_tenPow_le {q i : Nat} (hi : i ≤ longestStretch)
    (h : q * tenPow (i + 1) < capacity) : (q + 1) * tenPow i ≤ capacity := by
  cases q with
  | zero =>
    have hle : tenPow i ≤ tenPow longestStretch := Nat.pow_le_pow_right (by decide) hi
    have hcap : tenPow longestStretch ≤ capacity := by decide
    omega
  | succ q =>
    have hten : (q + 1) * tenPow (i + 1) = (q + 1) * 10 * tenPow i := by rw [tenPow_succ]; ring
    have hle : (q + 1 + 1) * tenPow i ≤ (q + 1) * 10 * tenPow i :=
      Nat.mul_le_mul_right _ (by omega)
    omega

section

variable {num den : Nat}

theorem dvd_mul_tenPow {i j : Nat} (h : i ≤ j) (hdvd : den ∣ num * tenPow i) :
    den ∣ num * tenPow j :=
  Nat.dvd_trans hdvd (Nat.mul_dvd_mul_left num (Nat.pow_dvd_pow 10 h))

theorem quotient_mono (num den : Nat) {i j : Nat} (h : i ≤ j) :
    num * tenPow i / den ≤ num * tenPow j / den :=
  Nat.div_le_div_right (Nat.mul_le_mul_left num (Nat.pow_le_pow_right (by decide) h))

theorem quotient_mul_le (num den k i : Nat) :
    num * tenPow k / den * tenPow i ≤ num * tenPow (k + i) / den := by
  rw [tenPow_add, ← Nat.mul_assoc, Nat.mul_comm _ (tenPow i), Nat.mul_comm _ (tenPow i)]
  exact Nat.mul_div_le_mul_div_assoc _ _ _

/-- The digits that follow make less than one unit of the digit before them. -/
theorem quotient_lt (num : Nat) (hden : 0 < den) (k i : Nat) :
    num * tenPow (k + i) / den < (num * tenPow k / den + 1) * tenPow i := by
  have hlt : num * tenPow k < den * (num * tenPow k / den + 1) := Nat.lt_mul_div_succ _ hden
  rw [Nat.div_lt_iff_lt_mul hden, tenPow_add, ← Nat.mul_assoc]
  calc num * tenPow k * tenPow i
      < den * (num * tenPow k / den + 1) * tenPow i :=
        Nat.mul_lt_mul_of_pos_right hlt (tenPow_pos i)
    _ = (num * tenPow k / den + 1) * tenPow i * den := by ring

/-- The quotient is exact with `k` digits after the integer part, and it can be held. -/
structure Ends (num den needed most k : Nat) : Prop where
  needed_le : needed ≤ k
  le_most : k ≤ most
  dvd : den ∣ num * tenPow k
  lt : num * tenPow k / den < capacity

/-- If the quotient is exact at some digit, long division stops at one where it is. It may be
    a later one, since digits come in stretches. -/
theorem Ends.lastDigit {needed most last : Nat} (hden : 0 < den)
    (h : Ends num den needed most last) (stretches : Nat) :
    ∀ k, k ≤ most → most < stretches + k → num * tenPow k / den < capacity →
      Ends num den needed most (Decimal.lastDigit num den needed most stretches k) := by
  induction stretches with
  | zero => intro k hk hfuel; omega
  | succ stretches ih =>
    intro k hk hfuel hlt
    unfold Decimal.lastDigit
    split
    · next hrem =>
      have hdvd : den ∣ num * tenPow k := Nat.dvd_of_mod_eq_zero hrem
      rcases Nat.le_total needed k with hle | hle
      · rw [show Nat.max k needed = k from Nat.max_eq_left hle]
        exact ⟨hle, hk, hdvd, hlt⟩
      · rw [show Nat.max k needed = needed from Nat.max_eq_right hle]
        exact ⟨Nat.le_refl _, Nat.le_trans h.needed_le h.le_most, dvd_mul_tenPow hle hdvd,
          Nat.lt_of_le_of_lt (quotient_mono num den h.needed_le) h.lt⟩
    · next hrem =>
      have hbefore : k < last := by
        by_contra hge
        exact hrem (Nat.mod_eq_zero_of_dvd (dvd_mul_tenPow (Nat.le_of_not_lt hge) h.dvd))
      have hroom : num * tenPow k / den * tenPow 1 < capacity :=
        Nat.lt_of_le_of_lt (Nat.le_trans (quotient_mul_le num den k 1)
          (quotient_mono num den hbefore)) h.lt
      have hmost : 0 < Nat.min longestStretch (most - k) :=
        Nat.lt_min.2 ⟨by decide, by have := h.le_most; omega⟩
      have hpos := stretch_pos hmost hroom
      have hfits := stretch_lt hlt (Nat.min longestStretch (most - k))
      have hle := stretch_le (num * tenPow k / den) (Nat.min longestStretch (most - k))
      have hlong : Nat.min longestStretch (most - k) ≤ longestStretch := Nat.min_le_left _ _
      have hshort : Nat.min longestStretch (most - k) ≤ most - k := Nat.min_le_right _ _
      generalize stretch (num * tenPow k / den) (Nat.min longestStretch (most - k)) = p at *
      simp only
      rw [if_neg (by omega)]
      split
      · next hnext => exact ih (k + p) (by omega) (by omega) hnext
      · next hfull =>
        -- The stretch went too far, so it has passed the digit where nothing remains.
        have hpassed : last ≤ k + p - 1 := by
          by_contra hgt
          exact hfull (Nat.lt_of_le_of_lt (quotient_mono num den (by omega)) h.lt)
        refine ⟨Nat.le_trans h.needed_le hpassed, by omega, dvd_mul_tenPow hpassed h.dvd, ?_⟩
        obtain ⟨i, rfl⟩ : ∃ i, p = i + 1 := ⟨p - 1, by omega⟩
        have hdigits := quotient_lt num hden k i
        exact Nat.lt_of_lt_of_le hdigits (succ_mul_tenPow_le (by omega) hfits)

end

/-! ## Zeros that go -/

/-- The second pair is the same number with no more digits and no more places. -/
structure Trimmed (p q : Nat × Nat) : Prop where
  value : (q.1 : ℚ) / tenPow q.2 = p.1 / tenPow p.2
  le : q.1 ≤ p.1
  scale_le : q.2 ≤ p.2

theorem Trimmed.refl (p : Nat × Nat) : Trimmed p p := ⟨rfl, Nat.le_refl _, Nat.le_refl _⟩

theorem Trimmed.trans {p q r : Nat × Nat} (h : Trimmed p q) (h' : Trimmed q r) : Trimmed p r :=
  ⟨h'.value.trans h.value, Nat.le_trans h'.le h.le, Nat.le_trans h'.scale_le h.scale_le⟩

theorem dropZeros_trimmed (count : Nat) (p : Nat × Nat) : Trimmed p (dropZeros count p) := by
  obtain ⟨n, scale⟩ := p
  simp only [dropZeros]
  split
  · next h =>
    obtain ⟨hle, hmod⟩ := h
    refine ⟨?_, Nat.div_le_self _ _, Nat.sub_le _ _⟩
    obtain ⟨q, rfl⟩ := Nat.dvd_of_mod_eq_zero hmod
    have hcount := cast_tenPow_pos count
    have hscale := cast_tenPow_pos (scale - count)
    have hpow : (tenPow scale : ℚ) = tenPow count * tenPow (scale - count) := by
      rw [← cast_tenPow_add, Nat.add_sub_cancel' hle]
    rw [Nat.mul_div_cancel_left q (tenPow_pos count), hpow]
    push_cast
    field_simp
  · exact .refl _

theorem dropEightZeros_trimmed (p : Nat × Nat) : Trimmed p (dropEightZeros p) := by
  unfold dropEightZeros
  split
  · exact dropZeros_trimmed 8 p
  · exact .refl p

theorem trimZeros_trimmed (p : Nat × Nat) : Trimmed p (trimZeros p) :=
  (dropEightZeros_trimmed p).trans <| (dropEightZeros_trimmed _).trans <|
    (dropEightZeros_trimmed _).trans <| (dropZeros_trimmed 4 _).trans <|
      (dropZeros_trimmed 2 _).trans (dropZeros_trimmed 1 _)

/-! ## Quotients -/

theorem abs_value_eq (d : Decimal) : |d.value| = (d.magnitude : ℚ) / tenPow d.scale := by
  rw [value, abs_div, abs_of_pos (cast_tenPow_pos d.scale), ← cast_natAbs]
  rfl

theorem magnitude_pos {d : Decimal} (h : d.value ≠ 0) : 0 < d.magnitude := by
  refine Int.natAbs_pos.2 (fun hm => h ?_)
  rw [value, hm, Int.cast_zero, zero_div]

/-- The digit at which the quotient of two decimals is exact, if it can be held. -/
theorem ends_of_representable {a b : Decimal} (hb : b.value ≠ 0)
    (h : Representable (a.value / b.value)) :
    ∃ last, Ends a.magnitude b.magnitude (b.scale - a.scale) (maxScale + b.scale - a.scale)
      last := by
  obtain ⟨m, s, hm, hs, heq⟩ := h
  have hden := magnitude_pos hb
  have hcross : a.magnitude * tenPow (b.scale + s) = m.natAbs * b.magnitude * tenPow a.scale := by
    have habs : |a.value / b.value| = |(m : ℚ) / tenPow s| := by rw [heq]
    rw [abs_div, abs_value_eq, abs_value_eq, abs_div, abs_of_pos (cast_tenPow_pos s),
      ← cast_natAbs] at habs
    have hden' : (0 : ℚ) < b.magnitude := by exact_mod_cast hden
    have hposa := cast_tenPow_pos a.scale
    have hposb := cast_tenPow_pos b.scale
    have hposs := cast_tenPow_pos s
    field_simp at habs
    have hcast : (a.magnitude : ℚ) * tenPow (b.scale + s) =
        m.natAbs * b.magnitude * tenPow a.scale := by
      rw [cast_tenPow_add]
      linarith
    exact_mod_cast hcast
  refine ⟨b.scale + s - a.scale, ?_⟩
  rcases Nat.le_total a.scale (b.scale + s) with hle | hle
  · have hquotient : a.magnitude * tenPow (b.scale + s - a.scale) = m.natAbs * b.magnitude := by
      refine Nat.eq_of_mul_eq_mul_right (tenPow_pos a.scale) ?_
      rw [Nat.mul_assoc, ← tenPow_add, Nat.sub_add_cancel hle, hcross]
    refine ⟨by omega, by omega, by rw [hquotient]; exact Nat.dvd_mul_left _ _, ?_⟩
    rwa [hquotient, Nat.mul_div_cancel _ hden]
  · have hnum : a.magnitude = b.magnitude * (m.natAbs * tenPow (a.scale - (b.scale + s))) := by
      refine Nat.eq_of_mul_eq_mul_right (tenPow_pos (b.scale + s)) ?_
      have hpow : tenPow a.scale = tenPow (a.scale - (b.scale + s)) * tenPow (b.scale + s) := by
        rw [← tenPow_add, Nat.sub_add_cancel hle]
      rw [hcross, hpow]
      ring
    rw [Nat.sub_eq_zero_of_le hle]
    refine ⟨by omega, by omega, ?_, ?_⟩
    · exact Nat.dvd_trans ⟨_, hnum⟩ (Nat.dvd_mul_right _ _)
    · rw [show tenPow 0 = 1 from rfl, Nat.mul_one]
      exact Nat.lt_of_le_of_lt (Nat.div_le_self _ _) a.mantissa_lt

/-- How many digits beyond the integer quotient of the mantissas are drawn. -/
def drawnDigits (a b : Decimal) : Nat :=
  lastDigit a.magnitude b.magnitude (b.scale - a.scale) (maxScale + b.scale - a.scale)
    (maxScale + b.scale - a.scale + 1) 0

/-- The quotient rounded at its last digit, before zeros are taken off. -/
def rawQuotient (a b : Decimal) : Nat × Nat :=
  (roundDiv .toEven (a.magnitude * tenPow (drawnDigits a b)) b.magnitude,
    a.scale + drawnDigits a b - b.scale)

theorem div_eq {a : Decimal} (ha : a.value ≠ 0) (b : Decimal) :
    a.div b = if drawnDigits a b < b.scale - a.scale then none
      else
        let p := if a.magnitude % b.magnitude = 0 then rawQuotient a b
          else trimZeros (rawQuotient a b)
        settle (a.isNegative != b.isNegative) p.1 p.2 := by
  rw [ne_eq, ← isZero_iff] at ha
  unfold div
  rw [if_neg ha]
  rfl

/-- Zeros at the end may go, but they do not matter. -/
theorem div_eq_settle {a b : Decimal} (ha : a.value ≠ 0)
    (h : b.scale - a.scale ≤ drawnDigits a b) :
    ∃ p, Trimmed (rawQuotient a b) p ∧
      a.div b = settle (a.isNegative != b.isNegative) p.1 p.2 := by
  rw [div_eq ha, if_neg (Nat.not_lt.2 h)]
  split
  · exact ⟨_, .refl _, rfl⟩
  · exact ⟨_, trimZeros_trimmed _, rfl⟩

/-- A quotient is negative if one of its operands is, and as far off as its size. -/
theorem abs_signed_quotient_sub (s t : Bool) (m n k : Nat) (p q r : ℚ) :
    |(signed (s != t) k : ℚ) / r - signed s m / p / (signed t n / q)| =
      |(k : ℚ) / r - m / p / (n / q)| := by
  have hneg : ∀ x y : ℚ, |-x + y| = |x - y| := by
    intro x y
    rw [← abs_neg]
    congr 1
    ring
  cases s <;> cases t <;> simp [signed, neg_div, div_neg, hneg]

/-- The quotient of the mantissas with `k` digits more, at the scale that the operands give. -/
theorem quotient_value {a b : Decimal} {k : Nat} (hb : 0 < b.magnitude)
    (h : b.scale - a.scale ≤ k) :
    (a.magnitude : ℚ) * tenPow k / b.magnitude / tenPow (a.scale + k - b.scale) =
      a.magnitude / tenPow a.scale / (b.magnitude / tenPow b.scale) := by
  have hpow : (tenPow (a.scale + k - b.scale) : ℚ) * tenPow b.scale =
      tenPow a.scale * tenPow k := by
    rw [← cast_tenPow_add, ← cast_tenPow_add, Nat.sub_add_cancel (by omega)]
  have hden : (0 : ℚ) < b.magnitude := by exact_mod_cast hb
  have hposa := cast_tenPow_pos a.scale
  have hposb := cast_tenPow_pos b.scale
  have hposk := cast_tenPow_pos k
  have hposr := cast_tenPow_pos (a.scale + k - b.scale)
  field_simp
  rw [mul_assoc, mul_assoc, hpow, mul_comm (tenPow k : ℚ)]

theorem Ends.value {a b : Decimal} {most k : Nat} (hb : 0 < b.magnitude)
    (h : Ends a.magnitude b.magnitude (b.scale - a.scale) most k) :
    ((a.magnitude * tenPow k / b.magnitude : Nat) : ℚ) / tenPow (a.scale + k - b.scale) =
      a.magnitude / tenPow a.scale / (b.magnitude / tenPow b.scale) := by
  have hden : (b.magnitude : ℚ) ≠ 0 := by exact_mod_cast hb.ne'
  rw [Nat.cast_div h.dvd hden, Nat.cast_mul, quotient_value hb h.needed_le]

/-- A quotient that can be held is exact. -/
theorem div_exact {a b : Decimal} (hb : b.value ≠ 0) (h : Representable (a.value / b.value)) :
    ∃ c, a.div b = some c ∧ c.value = a.value / b.value := by
  by_cases ha : a.value = 0
  · refine ⟨zero, ?_, by rw [ha, zero_div, value_zero]⟩
    unfold div
    rw [if_pos ((isZero_iff a).2 ha)]
  have hden := magnitude_pos hb
  obtain ⟨last, hlast⟩ := ends_of_representable hb h
  have hstart : a.magnitude * tenPow 0 / b.magnitude < capacity := by
    rw [show tenPow 0 = 1 from rfl, Nat.mul_one]
    exact Nat.lt_of_le_of_lt (Nat.div_le_self _ _) a.mantissa_lt
  have hends : Ends _ _ _ _ (drawnDigits a b) :=
    hlast.lastDigit hden _ 0 (Nat.zero_le _) (Nat.lt_succ_self _) hstart
  obtain ⟨⟨n, scale⟩, htrim, hdiv⟩ := div_eq_settle ha hends.needed_le
  rw [rawQuotient, roundDiv_of_dvd .toEven hden hends.dvd] at htrim
  have hn : n < capacity := Nat.lt_of_le_of_lt htrim.le hends.lt
  have hscale : scale ≤ maxScale := by
    have := htrim.scale_le
    have := hends.le_most
    have := a.scale_le
    omega
  obtain ⟨c, hc, hmantissa, hcs⟩ := settle_of_lt (a.isNegative != b.isNegative) hn hscale
  refine ⟨c, hdiv.trans hc, ?_⟩
  rw [← sub_eq_zero, ← abs_eq_zero, value_eq_signed a, value_eq_signed b, value, hmantissa, hcs,
    abs_signed_quotient_sub, htrim.value, hends.value hden, sub_self, abs_zero]

end Bello.Decimal
