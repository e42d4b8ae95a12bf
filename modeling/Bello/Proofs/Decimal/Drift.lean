import Mathlib.Data.Nat.Cast.Order.Field
import Bello.Proofs.Decimal.Exact
import Bello.Proofs.Decimal.Power

/- How far rounded products, quotients and powers are off.

   A product that leaves room for `p` places below the capacity is off by half a unit of the
   last of them at most (`mul_near`). Where there is room for all places, long division draws
   its digits to the last place unless nothing remains before, so a quotient is as near as
   that (`div_near`).

   The powers of a number are exact up to some exponent. From there on every product is
   rounded, and it also takes over what its factors are off by. `drift` bounds what comes of
   it, whichever products lead to a power (`powNat_drift`). A number that is off by little
   enough still has the same reciprocal, once that is rounded (`one_div_exact`). -/
namespace Bello.Decimal

/-! ## Products -/

/-- A number with room for `p` places keeps them. -/
theorem fit_near {x : Int} {scale p : Nat} (hp : p ≤ maxScale)
    (h : |(x : ℚ) / tenPow scale| * tenPow p ≤ capacity - 1) :
    ∃ d, fit x scale = some d ∧ |d.value - x / tenPow scale| ≤ 1 / 2 / tenPow p := by
  have hpos := cast_tenPow_pos scale
  have hposp := cast_tenPow_pos p
  rw [abs_div, abs_of_pos hpos, ← cast_natAbs] at h
  rcases Nat.lt_or_ge scale p with hlt | hge
  · -- There are fewer places than that, and all of them fit.
    have hpow : (tenPow p : ℚ) = tenPow (p - scale) * tenPow scale := by
      rw [← cast_tenPow_add, Nat.sub_add_cancel hlt.le]
    have hx : (x.natAbs : ℚ) ≤ capacity - 1 := by
      rw [hpow, div_mul_eq_mul_div, ← mul_assoc, mul_div_cancel_right₀ _ hpos.ne'] at h
      exact (le_mul_of_one_le_right (Nat.cast_nonneg _) (one_le_cast_tenPow _)).trans h
    have hx : x.natAbs < capacity := by
      have : (x.natAbs : ℚ) < capacity := by linarith
      exact_mod_cast this
    obtain ⟨d, hd, hvalue⟩ := fit_exact ⟨x, scale, hx, by omega, rfl⟩
    exact ⟨d, hd, by rw [hvalue, sub_self, abs_zero]; positivity⟩
  · have hpow : (tenPow scale : ℚ) = tenPow (scale - p) * tenPow p := by
      rw [← cast_tenPow_add, Nat.sub_add_cancel hge]
    have hroom : (x.natAbs : ℚ) / tenPow (scale - p) ≤ capacity - 1 := by
      rwa [hpow, ← div_div, div_mul_cancel₀ _ hposp.ne'] at h
    have hlt : x.natAbs / tenPow (scale - p) < capacity := by
      have hfloor : ((x.natAbs / tenPow (scale - p) : Nat) : ℚ) < capacity :=
        lt_of_le_of_lt Nat.cast_div_le (by linarith)
      exact_mod_cast hfloor
    obtain ⟨k, hk, hs, hfits, heq⟩ := fit_eq_settle (Nat.sub_le scale p) (by omega) hlt
    -- Only a number with more places than `p` can be rounded up to the capacity.
    have hcap : roundDiv .toEven x.natAbs (tenPow k) = capacity → p < scale - k := by
      intro hcap
      by_contra hle
      obtain rfl : k = scale - p := by omega
      have hround := abs_roundDiv_sub_le .toEven x.natAbs (tenPow_pos (scale - p))
      rw [hcap, abs_le] at hround
      linarith
    have hle : roundDiv .toEven x.natAbs (tenPow k) ≤ capacity :=
      Nat.le_trans (roundDiv_le_succ _ _ _) hfits
    have hscale : ∃ d, fit x scale = some d ∧ p ≤ d.scale := by
      rcases settle_cases (x < 0) hle hs with
        ⟨d, hd, -, hds⟩ | ⟨hfull, d, hd, hds, -⟩ | ⟨hfull, h0, -⟩
      · exact ⟨d, heq.trans hd, by omega⟩
      · have := hcap hfull
        exact ⟨d, heq.trans hd, by omega⟩
      · have := hcap hfull
        omega
    obtain ⟨d, hd, hds⟩ := hscale
    have hmono : (tenPow p : ℚ) ≤ tenPow d.scale := by
      exact_mod_cast Nat.pow_le_pow_right (by decide) hds
    exact ⟨d, hd, (abs_fit_sub_le hd).trans (div_le_div_of_nonneg_left (by norm_num) hposp hmono)⟩

theorem mul_near {a b : Decimal} {p : Nat} (hp : p ≤ maxScale)
    (h : |a.value * b.value| * tenPow p ≤ capacity - 1) :
    ∃ c, a.mul b = some c ∧ |c.value - a.value * b.value| ≤ 1 / 2 / tenPow p := by
  have hposp := cast_tenPow_pos p
  by_cases hzero : a.value * b.value = 0
  · refine ⟨zero, mul_of_eq_zero hzero, ?_⟩
    rw [hzero, value_zero, sub_zero, abs_zero]
    positivity
  · obtain ⟨ha, hb⟩ := mul_ne_zero_iff.1 hzero
    rw [mul_eq_fit ha hb, ← product_div]
    rw [← product_div] at h
    exact fit_near hp h

/-! ## Quotients -/

/-- With room for all digits, long division ends at the last one or where nothing remains. -/
theorem lastDigit_cases {num den needed most : Nat} (hneeded : needed ≤ most)
    (hroom : num * tenPow most / den < capacity) (stretches : Nat) :
    ∀ k, k ≤ most → most < stretches + k →
      needed ≤ lastDigit num den needed most stretches k ∧
      lastDigit num den needed most stretches k ≤ most ∧
      (den ∣ num * tenPow (lastDigit num den needed most stretches k) ∨
        lastDigit num den needed most stretches k = most) := by
  induction stretches with
  | zero => intro k hk hfuel; omega
  | succ stretches ih =>
    intro k hk hfuel
    unfold lastDigit
    split
    · next hrem =>
      have hdvd : den ∣ num * tenPow k := Nat.dvd_of_mod_eq_zero hrem
      exact ⟨Nat.le_max_right _ _, Nat.max_le.2 ⟨hk, hneeded⟩,
        .inl (dvd_mul_tenPow (Nat.le_max_left _ _) hdvd)⟩
    · rcases Nat.lt_or_eq_of_le hk with hlt | rfl
      · have hnext : num * tenPow k / den * tenPow 1 < capacity :=
          Nat.lt_of_le_of_lt (Nat.le_trans (quotient_mul_le num den k 1)
            (quotient_mono num den hlt)) hroom
        have hmost : 0 < Nat.min longestStretch (most - k) :=
          Nat.lt_min.2 ⟨by decide, by omega⟩
        have hpos := stretch_pos hmost hnext
        have hle := stretch_le (num * tenPow k / den) (Nat.min longestStretch (most - k))
        have hshort : Nat.min longestStretch (most - k) ≤ most - k := Nat.min_le_right _ _
        generalize stretch (num * tenPow k / den) (Nat.min longestStretch (most - k)) = p at *
        simp only
        rw [if_neg (by omega),
          if_pos (Nat.lt_of_le_of_lt (quotient_mono num den (by omega)) hroom)]
        exact ih (k + p) (by omega) (by omega)
      · have hstop : stretch (num * tenPow k / den) (Nat.min longestStretch (k - k)) = 0 := by
          rw [Nat.sub_self]
          rfl
        simp only [hstop, if_true]
        exact ⟨hneeded, Nat.le_refl _, .inr trivial⟩

/-- A quotient with room for all places is off by half a unit of the last one at most. -/
theorem div_near {a b : Decimal} (hb : b.value ≠ 0)
    (h : |a.value / b.value| * tenPow maxScale ≤ capacity - 1) :
    ∃ c, a.div b = some c ∧ |c.value - a.value / b.value| ≤ 1 / 2 / tenPow maxScale := by
  have hpos28 := cast_tenPow_pos maxScale
  by_cases ha : a.value = 0
  · refine ⟨zero, ?_, ?_⟩
    · unfold div
      rw [if_pos ((isZero_iff a).2 ha)]
    · rw [ha, zero_div, value_zero, sub_zero, abs_zero]
      positivity
  have hden := magnitude_pos hb
  have hscale := a.scale_le
  have hden' : (0 : ℚ) < b.magnitude := by exact_mod_cast hden
  -- The quotient of the mantissas with all its digits is below the capacity.
  have hquotient : (a.magnitude : ℚ) * tenPow (maxScale + b.scale - a.scale) / b.magnitude ≤
      capacity - 1 := by
    have hvalue := quotient_value (a := a) (k := maxScale + b.scale - a.scale) hden (by omega)
    rw [show a.scale + (maxScale + b.scale - a.scale) - b.scale = maxScale by omega,
      div_eq_iff hpos28.ne'] at hvalue
    rw [hvalue, ← abs_value_eq, ← abs_value_eq, ← abs_div]
    exact h
  have hroom : a.magnitude * tenPow (maxScale + b.scale - a.scale) / b.magnitude < capacity := by
    have hfloor : ((a.magnitude * tenPow (maxScale + b.scale - a.scale) / b.magnitude : Nat) : ℚ) <
        capacity := by
      refine lt_of_le_of_lt Nat.cast_div_le ?_
      push_cast
      linarith
    exact_mod_cast hfloor
  obtain ⟨hneeded, hmost, hends⟩ : b.scale - a.scale ≤ drawnDigits a b ∧
      drawnDigits a b ≤ maxScale + b.scale - a.scale ∧
      (b.magnitude ∣ a.magnitude * tenPow (drawnDigits a b) ∨
        drawnDigits a b = maxScale + b.scale - a.scale) :=
    lastDigit_cases (by omega) hroom _ 0 (Nat.zero_le _) (Nat.lt_succ_self _)
  obtain ⟨⟨n, scale⟩, htrim, hdiv⟩ := div_eq_settle ha hneeded
  have hround := abs_roundDiv_sub_le .toEven (a.magnitude * tenPow (drawnDigits a b)) hden
  push_cast at hround
  have hn : n < capacity := by
    refine Nat.lt_of_le_of_lt htrim.le ?_
    have hmono : (a.magnitude : ℚ) * tenPow (drawnDigits a b) / b.magnitude ≤
        a.magnitude * tenPow (maxScale + b.scale - a.scale) / b.magnitude := by
      have hpow : (tenPow (drawnDigits a b) : ℚ) ≤ tenPow (maxScale + b.scale - a.scale) := by
        exact_mod_cast Nat.pow_le_pow_right (by decide) hmost
      gcongr
    have hlt : ((rawQuotient a b).1 : ℚ) < capacity := by
      rw [abs_le] at hround
      show (roundDiv .toEven (a.magnitude * tenPow (drawnDigits a b)) b.magnitude : ℚ) < capacity
      linarith
    exact_mod_cast hlt
  have hs : scale ≤ maxScale := by
    have hle : scale ≤ a.scale + drawnDigits a b - b.scale := htrim.scale_le
    omega
  obtain ⟨c, hc, hmantissa, hcs⟩ := settle_of_lt (a.isNegative != b.isNegative) hn hs
  refine ⟨c, hdiv.trans hc, ?_⟩
  rw [value_eq_signed a, value_eq_signed b, value, hmantissa, hcs, abs_signed_quotient_sub,
    htrim.value, ← quotient_value hden hneeded]
  rcases hends with hdvd | hlast
  · rw [rawQuotient, roundDiv_of_dvd .toEven hden hdvd, Nat.cast_div hdvd hden'.ne', Nat.cast_mul,
      sub_self, abs_zero]
    positivity
  · rw [rawQuotient, hlast]
    rw [hlast] at hround
    rw [show a.scale + (maxScale + b.scale - a.scale) - b.scale = maxScale by omega]
    exact abs_div_sub_div_le hpos28 hround

/-! ## Powers that drift -/

/-- How far the power with exponent `k` of a number of size `y` may be off, if the powers below
    `first` are exact and every other product is rounded to `p` places. That is half a unit
    for each product, and one hundredth of it for the product of two errors. -/
def drift (y : ℚ) (first p k : Nat) : ℚ :=
  if k < first then 0
  else 51 / 100 / tenPow p * ((k - first : Nat) * y ^ (k - first) + 1)

section

variable {y : ℚ} {first p : Nat}

theorem drift_of_lt {k : Nat} (h : k < first) : drift y first p k = 0 := if_pos h

theorem drift_first_add (y : ℚ) (first p i : Nat) :
    drift y first p (first + i) = 51 / 100 / tenPow p * (i * y ^ i + 1) := by
  rw [drift, if_neg (by omega), Nat.add_sub_cancel_left]

theorem unit_le_drift (hy : 1 ≤ y) {k : Nat} (hk : first ≤ k) :
    51 / 100 / tenPow p ≤ drift y first p k := by
  obtain ⟨i, rfl⟩ := Nat.exists_eq_add_of_le hk
  have hpos := cast_tenPow_pos p
  have hy0 : 0 ≤ y := by linarith
  have hrest : 0 ≤ (i : ℚ) * y ^ i := by positivity
  rw [drift_first_add]
  exact le_mul_of_one_le_right (by positivity) (by linarith)

theorem drift_nonneg (hy : 1 ≤ y) (k : Nat) : 0 ≤ drift y first p k := by
  have hpos := cast_tenPow_pos p
  rcases Nat.lt_or_ge k first with hk | hk
  · rw [drift_of_lt hk]
  · exact le_trans (by positivity) (unit_le_drift hy hk)

theorem drift_mono (hy : 1 ≤ y) {k n : Nat} (h : k ≤ n) :
    drift y first p k ≤ drift y first p n := by
  rcases Nat.lt_or_ge k first with hk | hk
  · rw [drift_of_lt hk]
    exact drift_nonneg hy n
  · obtain ⟨i, rfl⟩ := Nat.exists_eq_add_of_le hk
    obtain ⟨j, rfl⟩ := Nat.exists_eq_add_of_le (hk.trans h)
    have hij : i ≤ j := by omega
    have hcast : (i : ℚ) ≤ j := by exact_mod_cast hij
    have hpow : y ^ i ≤ y ^ j := pow_le_pow_right₀ hy hij
    have hpos := cast_tenPow_pos p
    have hy0 : 0 ≤ y := by linarith
    rw [drift_first_add, drift_first_add]
    gcongr

/-- An exact factor multiplies what the other one is off by. -/
theorem drift_mul_exact (hy : 1 ≤ y) {i j : Nat} (hi : 0 < i) (hj : first ≤ j) :
    y ^ i * drift y first p j + 51 / 100 / tenPow p ≤ drift y first p (i + j) := by
  obtain ⟨b, rfl⟩ := Nat.exists_eq_add_of_le hj
  have hpos := cast_tenPow_pos p
  have hone : (1 : ℚ) ≤ i := by exact_mod_cast hi
  have hmono : y ^ i ≤ y ^ (i + b) := pow_le_pow_right₀ hy (Nat.le_add_right i b)
  have hy0 : 0 ≤ y := by linarith
  rw [show i + (first + b) = first + (i + b) by omega, drift_first_add, drift_first_add]
  have hsum : y ^ i * (b * y ^ b + 1) ≤ (i + b : Nat) * y ^ (i + b) := by
    calc y ^ i * (b * y ^ b + 1) = b * y ^ (i + b) + y ^ i := by ring
      _ ≤ b * y ^ (i + b) + i * y ^ (i + b) :=
          add_le_add_right (hmono.trans (le_mul_of_one_le_left (by positivity) hone)) _
      _ = (i + b : Nat) * y ^ (i + b) := by push_cast; ring
  calc y ^ i * (51 / 100 / tenPow p * (b * y ^ b + 1)) + 51 / 100 / tenPow p
      = 51 / 100 / tenPow p * (y ^ i * (b * y ^ b + 1) + 1) := by ring
    _ ≤ 51 / 100 / tenPow p * ((i + b : Nat) * y ^ (i + b) + 1) := by gcongr

/-- What the factors are off by and the rounding of their product stay within the bound. -/
theorem drift_mul (hy : 1 ≤ y) (hfirst : 2 ≤ first) {i j : Nat} (hi : 0 < i) (hj : 0 < j)
    (hk : first ≤ i + j)
    (hsmall : drift y first p i * drift y first p j ≤ 1 / 100 / tenPow p) :
    drift y first p i * y ^ j + y ^ i * drift y first p j +
      drift y first p i * drift y first p j + 1 / 2 / tenPow p ≤ drift y first p (i + j) := by
  have hpos := cast_tenPow_pos p
  have hhalf : (1 : ℚ) / 2 / tenPow p ≤ 51 / 100 / tenPow p :=
    div_le_div_of_nonneg_right (by norm_num) hpos.le
  rcases Nat.lt_or_ge i first with hil | hil <;> rcases Nat.lt_or_ge j first with hjl | hjl
  · have hunit := unit_le_drift (p := p) hy hk
    rw [drift_of_lt hil, drift_of_lt hjl]
    linarith
  · have hexact := drift_mul_exact (p := p) hy hi hjl
    rw [drift_of_lt hil]
    linarith
  · have hexact := drift_mul_exact (p := p) hy hj hil
    rw [Nat.add_comm j i] at hexact
    rw [drift_of_lt hjl]
    linarith
  · -- Both are rounded: `first` is 2 at least, and so there is room for two powers.
    obtain ⟨a, rfl⟩ := Nat.exists_eq_add_of_le hil
    obtain ⟨b, rfl⟩ := Nat.exists_eq_add_of_le hjl
    have hy0 : 0 ≤ y := by linarith
    have htwo : (2 : ℚ) ≤ first := by exact_mod_cast hfirst
    have hsum : (a * y ^ a + 1) * y ^ (first + b) + y ^ (first + a) * (b * y ^ b + 1) ≤
        (first + (a + b) : Nat) * y ^ (first + (a + b)) := by
      have ha : y ^ (first + a) ≤ y ^ (first + (a + b)) := pow_le_pow_right₀ hy (by omega)
      have hb : y ^ (first + b) ≤ y ^ (first + (a + b)) := pow_le_pow_right₀ hy (by omega)
      calc (a * y ^ a + 1) * y ^ (first + b) + y ^ (first + a) * (b * y ^ b + 1)
          = (a + b) * y ^ (first + (a + b)) + (y ^ (first + a) + y ^ (first + b)) := by ring
        _ ≤ (a + b) * y ^ (first + (a + b)) + first * y ^ (first + (a + b)) := by
            have hpow := mul_le_mul_of_nonneg_right htwo
              (show 0 ≤ y ^ (first + (a + b)) by positivity)
            linarith
        _ = (first + (a + b) : Nat) * y ^ (first + (a + b)) := by push_cast; ring
    have hunit : (0 : ℚ) ≤ 51 / 100 / tenPow p := by positivity
    have hscaled := mul_le_mul_of_nonneg_left hsum hunit
    have hsplit : (51 : ℚ) / 100 / tenPow p = 1 / 100 / tenPow p + 1 / 2 / tenPow p := by ring
    rw [show first + a + (first + b) = first + (first + (a + b)) by omega,
      drift_first_add y first p (first + (a + b))]
    rw [drift_first_add y first p a, drift_first_add y first p b] at hsmall ⊢
    linarith

end

theorem abs_mul_sub_mul_le {a b x y e f : ℚ} (ha : |a - x| ≤ e) (hb : |b - y| ≤ f) :
    |a * b - x * y| ≤ e * |y| + |x| * f + e * f := by
  have he : 0 ≤ e := (abs_nonneg _).trans ha
  calc |a * b - x * y| = |(a - x) * y + x * (b - y) + (a - x) * (b - y)| := by congr 1; ring
    _ ≤ |(a - x) * y| + |x * (b - y)| + |(a - x) * (b - y)| := abs_add_three _ _ _
    _ ≤ e * |y| + |x| * f + e * f := by
        rw [abs_mul, abs_mul, abs_mul]
        gcongr

/-- The powers of a number of size `y` up to the exponent `n` can be rounded to `p` places, and
    in the end the reciprocal is nearer than half a unit of the last place. -/
structure Margin (y : ℚ) (n first p : Nat) : Prop where
  room : (y ^ n + 1) * tenPow p ≤ capacity - 1
  small : drift y first p n ^ 2 ≤ 1 / 100 / tenPow p
  drift_le : drift y first p n ≤ 1 / 100
  close : 2 * tenPow maxScale * drift y first p n < (y ^ n - 1 / 100) * y ^ n

/-- A product of powers stays within the bound for its exponent. -/
theorem mul_drift {x : ℚ} {n first p : Nat} (hx : 1 ≤ |x|) (hp : p ≤ maxScale)
    (hfirst : 2 ≤ first) (hexact : ∀ k < first, Representable (x ^ k))
    (hmargin : Margin |x| n first p) {i j : Nat} {a b : Decimal} (hle : i + j ≤ n)
    (ha : |a.value - x ^ i| ≤ drift |x| first p i) (hb : |b.value - x ^ j| ≤ drift |x| first p j) :
    ∃ c, a.mul b = some c ∧ |c.value - x ^ (i + j)| ≤ drift |x| first p (i + j) := by
  have hexactly : ∀ {k : Nat} {d : Decimal}, k < first →
      |d.value - x ^ k| ≤ drift |x| first p k → d.value = x ^ k := by
    intro k d hk hd
    rw [drift_of_lt hk, abs_nonpos_iff, sub_eq_zero] at hd
    exact hd
  -- A factor of one changes nothing.
  rcases Nat.eq_zero_or_pos i with rfl | hi
  · have hvalue : a.value * b.value = b.value := by
      rw [hexactly (by omega) ha, pow_zero, one_mul]
    obtain ⟨c, hc, hcb⟩ := mul_exact (a := a) (b := b) (representable_iff.2 ⟨b, hvalue.symm⟩)
    exact ⟨c, hc, by rwa [hcb, hvalue, Nat.zero_add]⟩
  rcases Nat.eq_zero_or_pos j with rfl | hj
  · have hvalue : a.value * b.value = a.value := by
      rw [hexactly (by omega) hb, pow_zero, mul_one]
    obtain ⟨c, hc, hca⟩ := mul_exact (a := a) (b := b) (representable_iff.2 ⟨a, hvalue.symm⟩)
    exact ⟨c, hc, by rwa [hca, hvalue]⟩
  rcases Nat.lt_or_ge (i + j) first with hk | hk
  · have hvalue : a.value * b.value = x ^ (i + j) := by
      rw [hexactly (by omega) ha, hexactly (by omega) hb, pow_add]
    obtain ⟨c, hc, hcv⟩ := mul_exact (a := a) (b := b) (by rw [hvalue]; exact hexact _ hk)
    refine ⟨c, hc, ?_⟩
    rw [hcv, hvalue, sub_self, abs_zero]
    exact drift_nonneg hx _
  · have hpos := cast_tenPow_pos p
    have hmono : ∀ {k}, k ≤ n → drift |x| first p k ≤ drift |x| first p n := drift_mono hx
    have hsmall : drift |x| first p i * drift |x| first p j ≤ 1 / 100 / tenPow p := by
      refine le_trans ?_ hmargin.small
      rw [pow_two]
      exact mul_le_mul (hmono (by omega)) (hmono (by omega)) (drift_nonneg hx _) (drift_nonneg hx _)
    have hbound := drift_mul hx hfirst hi hj hk hsmall
    have hproduct := abs_mul_sub_mul_le ha hb
    rw [← pow_add, abs_pow, abs_pow] at hproduct
    have hhalf : (0 : ℚ) ≤ 1 / 2 / tenPow p := by positivity
    have hroom : |a.value * b.value| * tenPow p ≤ capacity - 1 := by
      refine le_trans (mul_le_mul_of_nonneg_right ?_ hpos.le) hmargin.room
      have hpow : |x| ^ (i + j) ≤ |x| ^ n := pow_le_pow_right₀ hx hle
      have hsize := abs_sub_abs_le_abs_sub (a.value * b.value) (x ^ (i + j))
      rw [abs_pow] at hsize
      have := hmono hle
      have := hmargin.drift_le
      linarith
    obtain ⟨c, hc, hnear⟩ := mul_near hp hroom
    have htriangle := abs_sub_le c.value (a.value * b.value) (x ^ (i + j))
    exact ⟨c, hc, by linarith⟩

theorem powNat_drift {base : Decimal} {n first p : Nat} (hx : 1 ≤ |base.value|)
    (hp : p ≤ maxScale) (hfirst : 2 ≤ first) (hexact : ∀ k < first, Representable (base.value ^ k))
    (hmargin : Margin |base.value| n first p) :
    ∃ r, base.powNat n = some r ∧
      |r.value - base.value ^ n| ≤ drift |base.value| first p n := by
  have hcomes : Comes (fun k r => |r.value - base.value ^ k| ≤ drift |base.value| first p k) False n
      (base.powNat n) := by
    refine powNat_comes (fun i j a b hle ha hb => .inl ?_) ?_ ?_
    · exact mul_drift hx hp hfirst hexact hmargin hle ha hb
    · rw [value_one, pow_zero, sub_self, abs_zero]
      exact drift_nonneg hx 0
    · rw [pow_one, sub_self, abs_zero]
      exact drift_nonneg hx 1
  rcases hcomes with h | ⟨-, h⟩
  · exact h
  · exact h.elim

/-! ## Reciprocals of rounded numbers -/

/-- Numbers with `p` places that are less than a unit apart are equal. -/
theorem eq_of_abs_sub_lt {p : Nat} {k l : Int}
    (h : |(k : ℚ) / tenPow p - l / tenPow p| < 1 / tenPow p) : k = l := by
  have hpos := cast_tenPow_pos p
  rw [← sub_div, abs_div, abs_of_pos hpos, div_lt_div_iff_of_pos_right hpos] at h
  have hlt : |k - l| < 1 := by exact_mod_cast h
  exact sub_eq_zero.1 (Int.abs_lt_one_iff.1 hlt)

/-- A number that is off by little enough has the same reciprocal, once it is rounded. -/
theorem one_div_exact {d : Decimal} {x e : ℚ} (hx : 1 ≤ |x|) (hrep : Representable (1 / x))
    (hnear : |d.value - x| ≤ e) (he : e ≤ 1 / 100)
    (hclose : 2 * tenPow maxScale * e < (|x| - 1 / 100) * |x|) :
    d.value ≠ 0 ∧ ∃ r, one.div d = some r ∧ r.value = 1 / x := by
  have hpos := cast_tenPow_pos maxScale
  have hsize : |x| - 1 / 100 ≤ |d.value| := by
    have := abs_sub_abs_le_abs_sub x d.value
    rw [abs_sub_comm] at this
    linarith
  have hd : 0 < |d.value| := by linarith
  have hx0 : x ≠ 0 := abs_pos.1 (by linarith)
  have hd0 : d.value ≠ 0 := abs_pos.1 hd
  have hroom : |one.value / d.value| * tenPow maxScale ≤ capacity - 1 := by
    have hinv : |one.value / d.value| ≤ 2 := by
      rw [value_one, abs_div, abs_one, div_le_iff₀ hd]
      linarith
    have hcap : (2 : ℚ) * tenPow maxScale ≤ capacity - 1 := by
      have : 2 * tenPow maxScale + 1 ≤ capacity := by decide
      have : (2 : ℚ) * tenPow maxScale + 1 ≤ capacity := by exact_mod_cast this
      linarith
    exact (mul_le_mul_of_nonneg_right hinv hpos.le).trans hcap
  obtain ⟨r, hr, hrnear⟩ := div_near hd0 hroom
  have hoff : |1 / d.value - 1 / x| < 1 / 2 / tenPow maxScale := by
    rw [div_sub_div _ _ hd0 hx0, abs_div, abs_mul, one_mul, mul_one, abs_sub_comm,
      div_lt_div_iff₀ (by positivity) hpos]
    have hden : (|x| - 1 / 100) * |x| ≤ |d.value| * |x| := by gcongr
    have hnum := mul_le_mul_of_nonneg_right hnear hpos.le
    linarith
  obtain ⟨c, hc⟩ := representable_iff.1 hrep
  obtain ⟨k, hk⟩ := value_places (d := r) r.scale_le
  obtain ⟨l, hl⟩ := value_places (d := c) c.scale_le
  refine ⟨hd0, r, hr, ?_⟩
  have htriangle := abs_sub_le r.value (1 / d.value) (1 / x)
  rw [value_one] at hrnear
  have hlt : |r.value - c.value| < 1 / tenPow maxScale := by
    rw [hc]
    have hhalf : (1 : ℚ) / tenPow maxScale = 1 / 2 / tenPow maxScale + 1 / 2 / tenPow maxScale := by
      ring
    linarith
  rw [hk, hl] at hlt
  rw [← hc, hk, hl, eq_of_abs_sub_lt hlt]

end Bello.Decimal
