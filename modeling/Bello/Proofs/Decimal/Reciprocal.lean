import Bello.Proofs.Decimal.Drift

/- Reciprocals of powers.

   A negative exponent takes the reciprocal of the power, as it was found. If the power can be
   held, it is exact and so is its reciprocal. If not, the power was rounded, and what was
   lost comes back in the reciprocal when that has few places: the power of one half with
   exponent -29 is not the integer that it should be (`pow_half_inexact`).

   This happens to bases below one only. A larger base whose power needs too many places, but
   whose reciprocal does not, is a power of five over a lower power of ten (`base_cases`).
   There are few such bases and exponents, and what their powers are off by never shows in
   the last place of the reciprocal (`passes_of_rounded`): it is rounded to the exact one
   (`pow_reciprocal_exact`). -/
namespace Bello.Decimal

/-! ## Bases whose powers have reciprocals -/

/-- An integer power whose reciprocal can be held can be held itself. -/
theorem representable_pow_of_reciprocal {x : Int} {n : Nat} (hx : x ≠ 0)
    (h : Representable (1 / (x : ℚ) ^ n)) : Representable ((x : ℚ) ^ n) := by
  obtain ⟨m, s, hm, hs, heq⟩ := h
  have hpow : (x : ℚ) ^ n ≠ 0 := pow_ne_zero n (by exact_mod_cast hx)
  have hpos := cast_tenPow_pos s
  have hprod : x ^ n * m = tenPow s := by
    rw [div_eq_div_iff hpow hpos.ne', one_mul] at heq
    have : (x : ℚ) ^ n * m = tenPow s := by rw [heq, mul_comm]
    exact_mod_cast this
  have hdvd : (x ^ n).natAbs ∣ tenPow s := by
    have := Int.natAbs_dvd_natAbs.2 (Dvd.intro m hprod)
    rwa [Int.natAbs_natCast] at this
  refine ⟨x ^ n, 0, ?_, Nat.zero_le _, by simp [tenPow]⟩
  calc (x ^ n).natAbs ≤ tenPow s := Nat.le_of_dvd (tenPow_pos s) hdvd
    _ ≤ tenPow maxScale := Nat.pow_le_pow_right (by decide) hs
    _ < capacity := by decide

/-- The divisors of powers of ten that are not divisible by ten. -/
theorem eq_pow_of_dvd_tenPow {a n : Nat} (h : a ∣ tenPow n) (hten : ¬ 10 ∣ a) :
    (∃ i, a = 2 ^ i) ∨ ∃ i, a = 5 ^ i := by
  have hsplit : tenPow n = 2 ^ n * 5 ^ n := Nat.mul_pow 2 5 n
  rw [hsplit, Nat.dvd_mul] at h
  obtain ⟨b, c, hb, hc, rfl⟩ := h
  obtain ⟨i, -, rfl⟩ := (Nat.dvd_prime_pow Nat.prime_two).1 hb
  obtain ⟨j, -, rfl⟩ := (Nat.dvd_prime_pow Nat.prime_five).1 hc
  rcases Nat.eq_zero_or_pos i with rfl | hi
  · exact .inr ⟨j, by rw [pow_zero, one_mul]⟩
  rcases Nat.eq_zero_or_pos j with rfl | hj
  · exact .inl ⟨i, by rw [pow_zero, mul_one]⟩
  · exact absurd (Nat.mul_dvd_mul (dvd_pow_self 2 hi.ne') (dvd_pow_self 5 hj.ne')) hten

/-- The places of the reciprocal of `(u ^ i / 10 ^ t) ^ n`, where `u` is one of the factors
    of ten and `v` the other. -/
theorem places_of_reciprocal {u v i t n s m : Nat} (huv : u * v = 10)
    (hv : ¬ (10 : Int) ∣ v) (ht : t ≤ i) (h : tenPow (t * n) * tenPow s = m * (u ^ i) ^ n) :
    (i - t) * n ≤ s := by
  have hpow : tenPow (i * n) = tenPow (t * n) * tenPow ((i - t) * n) := by
    rw [← tenPow_add, ← Nat.add_mul, Nat.add_sub_cancel' ht]
  have hten : (u ^ i) ^ n * v ^ (i * n) = tenPow (i * n) := by
    rw [← pow_mul, ← mul_pow, huv]
    rfl
  have hcross : v ^ (i * n) * tenPow s = m * tenPow ((i - t) * n) := by
    refine Nat.eq_of_mul_eq_mul_left (tenPow_pos (t * n)) ?_
    calc tenPow (t * n) * (v ^ (i * n) * tenPow s)
        = tenPow (t * n) * tenPow s * v ^ (i * n) := by ring
      _ = m * ((u ^ i) ^ n * v ^ (i * n)) := by rw [h]; ring
      _ = tenPow (t * n) * (m * tenPow ((i - t) * n)) := by rw [hten, hpow]; ring
  have hs := cast_tenPow_pos s
  have hd := cast_tenPow_pos ((i - t) * n)
  refine places_le (a := (v : Int) ^ (i * n)) (k := m) (.inr (not_ten_dvd_pow hv _)) ?_
  rw [div_eq_div_iff hd.ne' hs.ne']
  exact_mod_cast hcross

/-- A base of size one or more that has a power with a reciprocal: either the power can be
    held too, or the base is a power of five over a lower power of ten. -/
theorem base_cases {base : Decimal} {n : Nat} (hn : 0 < n) (hx : 1 ≤ |base.value|)
    (hrep : Representable (1 / base.value ^ n)) :
    Representable (base.value ^ n) ∨
      ∃ d, 0 < base.normalize.scale ∧ base.normalize.magnitude = 5 ^ (d + base.normalize.scale) ∧
        d * n ≤ maxScale := by
  have hleast := base.normalize_least
  have hx0 : base.value ≠ 0 := abs_pos.1 (by linarith)
  rw [← value_normalize] at hx hrep hx0 ⊢
  generalize base.normalize = b at *
  by_cases h0 : b.scale = 0
  · have hint : b.value = b.mantissa := by
      rw [value, h0]
      simp [tenPow]
    have hne : b.mantissa ≠ 0 := by
      rintro h
      rw [hint, h] at hx0
      exact hx0 rfl
    rw [hint] at hrep ⊢
    exact .inl (representable_pow_of_reciprocal hne hrep)
  have hten : ¬ 10 ∣ b.magnitude := fun hdvd => hleast.resolve_left h0 (Int.natCast_dvd.2 hdvd)
  obtain ⟨m, s, hm, hs, heq⟩ := hrep
  have hpos := cast_tenPow_pos b.scale
  have hcross : tenPow (b.scale * n) * tenPow s = m.natAbs * b.magnitude ^ n := by
    have hden : (0 : ℚ) < b.magnitude := by exact_mod_cast magnitude_pos hx0
    have habs : |1 / b.value ^ n| = |(m : ℚ) / tenPow s| := by rw [heq]
    have hpow : (tenPow (b.scale * n) : ℚ) = (tenPow b.scale : ℚ) ^ n := by
      exact_mod_cast Nat.pow_mul 10 b.scale n
    rw [abs_div, abs_one, abs_pow, abs_value_eq, abs_div, abs_of_pos (cast_tenPow_pos s),
      ← cast_natAbs, div_pow, one_div_div, div_eq_div_iff (by positivity) (cast_tenPow_pos s).ne',
      ← hpow] at habs
    exact_mod_cast habs
  have hle : tenPow b.scale ≤ b.magnitude := by
    rw [abs_value_eq, one_le_div hpos] at hx
    exact_mod_cast hx
  have hdvd : b.magnitude ∣ tenPow (b.scale * n + s) := by
    rw [tenPow_add, hcross]
    exact (dvd_pow_self _ hn.ne').mul_left _
  rcases eq_pow_of_dvd_tenPow hdvd hten with ⟨i, hi⟩ | ⟨i, hi⟩
  · -- A power of two is large only if its reciprocal has many places.
    rw [hi] at hle hcross
    have hfour : 2 * b.scale ≤ i := by
      refine (Nat.pow_le_pow_iff_right (by decide : 1 < 2)).1 (le_trans ?_ hle)
      rw [pow_mul]
      exact Nat.pow_le_pow_left (by decide) _
    have hplaces := places_of_reciprocal (v := 5) rfl (by decide) (by omega) hcross
    have hscale : b.scale * n ≤ (i - b.scale) * n := Nat.mul_le_mul_right n (by omega)
    have hexponent : i * n ≤ 56 := by
      have hsum : i * n = b.scale * n + (i - b.scale) * n := by
        rw [← Nat.add_mul, Nat.add_sub_cancel' (by omega)]
      unfold maxScale at hs
      omega
    refine .inl (representable_pow ?_ (by omega))
    rw [hi, ← pow_mul]
    exact Nat.lt_of_le_of_lt (Nat.pow_le_pow_right (by decide) hexponent) (by decide)
  · rw [hi] at hle hcross
    have hscale : b.scale ≤ i :=
      (Nat.pow_le_pow_iff_right (by decide : 1 < 5)).1
        (le_trans (Nat.pow_le_pow_left (by decide) _) hle)
    have hplaces := places_of_reciprocal (v := 2) rfl (by decide) hscale hcross
    exact .inr ⟨i - b.scale, by omega, by rw [hi, Nat.sub_add_cancel hscale], by omega⟩

/-! ## Margins -/

/-- The first power of `5 ^ (d + t) / 10 ^ t` that cannot be held: `5 ^ 41` is below the
    capacity and `5 ^ 42` is not. -/
def firstRounded (d t : Nat) : Nat := Nat.min (41 / (d + t)) (maxScale / t) + 1

theorem representable_of_lt_firstRounded {b : Decimal} {d k : Nat} (ht : 0 < b.scale)
    (hb : b.magnitude = 5 ^ (d + b.scale)) (hk : k < firstRounded d b.scale) :
    Representable (b.value ^ k) := by
  have hmin : k ≤ Nat.min (41 / (d + b.scale)) (maxScale / b.scale) := Nat.le_of_lt_succ hk
  have hfive : k * (d + b.scale) ≤ 41 :=
    (Nat.le_div_iff_mul_le (by omega)).1 (hmin.trans (Nat.min_le_left _ _))
  have hten : k * b.scale ≤ maxScale :=
    (Nat.le_div_iff_mul_le ht).1 (hmin.trans (Nat.min_le_right _ _))
  refine representable_pow ?_ (by rwa [Nat.mul_comm])
  rw [hb, ← pow_mul, Nat.mul_comm]
  exact Nat.lt_of_le_of_lt (Nat.pow_le_pow_right (by decide) hfive) (by decide)

/-- A decimal itself can be held, and so can its first power. -/
theorem two_le_firstRounded {b : Decimal} {d : Nat} (ht : 0 < b.scale)
    (hb : b.magnitude = 5 ^ (d + b.scale)) : 2 ≤ firstRounded d b.scale := by
  have hexponent : d + b.scale ≤ 41 := by
    by_contra hlarge
    have hlt : 5 ^ (d + b.scale) < capacity := hb ▸ b.mantissa_lt
    have hle : 5 ^ 42 ≤ 5 ^ (d + b.scale) := Nat.pow_le_pow_right (by decide) (by omega)
    exact absurd (hle.trans_lt hlt) (by decide)
  have hfive : 1 ≤ 41 / (d + b.scale) := (Nat.one_le_div_iff (by omega)).2 hexponent
  have hten : 1 ≤ maxScale / b.scale := (Nat.one_le_div_iff ht).2 b.scale_le
  exact Nat.succ_le_succ (Nat.le_min.2 ⟨hfive, hten⟩)

theorem abs_value_of_fives {b : Decimal} {d : Nat} (hb : b.magnitude = 5 ^ (d + b.scale)) :
    |b.value| = (5 ^ d : Nat) / (2 ^ b.scale : Nat) := by
  have hpow : (tenPow b.scale : ℚ) = 2 ^ b.scale * 5 ^ b.scale := by
    exact_mod_cast Nat.mul_pow 2 5 b.scale
  rw [abs_value_eq, hb, hpow]
  push_cast
  rw [pow_add]
  field_simp

/-- The places that are left for the powers of `a / c` up to the exponent `n`. -/
def placesLeft (a c n : Nat) : Nat := stretch (a ^ n / c ^ n + 2) maxScale

/-- What the margin of `a / c` takes, in whole numbers. The exponent `n` is `m` above the first
    rounded one, where `drift` is `51 / 100 * (m * a ^ m + c ^ m) / c ^ m` units of place `p`. -/
def Checked (a c n m p : Nat) : Prop :=
  2 ≤ p ∧
  2601 * (m * a ^ m + c ^ m) ^ 2 ≤ 100 * tenPow p * (c ^ m) ^ 2 ∧
  102 * tenPow maxScale * (m * a ^ m + c ^ m) * c ^ n * c ^ n + tenPow p * c ^ m * c ^ n * a ^ n <
    tenPow p * c ^ m * (100 * a ^ n * a ^ n)

instance (a c n m p : Nat) : Decidable (Checked a c n m p) :=
  inferInstanceAs (Decidable (_ ∧ _ ∧ _))

theorem sq_le_of_checked {w t c : ℚ} (ht : 0 < t) (hc : 0 < c)
    (h : 2601 * w ^ 2 ≤ 100 * t * c ^ 2) : (51 / 100 / t * (w / c)) ^ 2 ≤ 1 / 100 / t := by
  calc (51 / 100 / t * (w / c)) ^ 2 = 2601 * w ^ 2 / (10000 * t ^ 2 * c ^ 2) := by
        field_simp
        ring
    _ ≤ 100 * t * c ^ 2 / (10000 * t ^ 2 * c ^ 2) := div_le_div_of_nonneg_right h (by positivity)
    _ = 1 / 100 / t := by
        field_simp
        norm_num

theorem lt_of_checked {u w t c x y : ℚ} (ht : 0 < t) (hc : 0 < c) (hy : 0 < y)
    (h : 102 * u * w * y * y + t * c * y * x < t * c * (100 * x * x)) :
    2 * u * (51 / 100 / t * (w / c)) < (x / y - 1 / 100) * (x / y) := by
  have hleft : 2 * u * (51 / 100 / t * (w / c)) =
      102 * u * w * y * y / (100 * t * c * (y * y)) := by
    field_simp
    ring
  have hright : (x / y - 1 / 100) * (x / y) =
      (t * c * (100 * x * x) - t * c * y * x) / (100 * t * c * (y * y)) := by
    field_simp
  rw [hleft, hright, div_lt_div_iff_of_pos_right (by positivity)]
  linarith

theorem margin_of_checked {a c n first p : Nat} (hc : 0 < c) (hfirst : first ≤ n)
    (hroom : (a ^ n / c ^ n + 2) * tenPow p < capacity) (h : Checked a c n (n - first) p) :
    Margin ((a : ℚ) / c) n first p := by
  obtain ⟨htwo, hsmall, hclose⟩ := h
  obtain ⟨m, rfl⟩ := Nat.exists_eq_add_of_le hfirst
  rw [Nat.add_sub_cancel_left] at hsmall hclose
  have ht := cast_tenPow_pos p
  have hc' : (0 : ℚ) < c := by exact_mod_cast hc
  have hpow : (0 : ℚ) < (c : ℚ) ^ (first + m) := pow_pos hc' _
  have hdrift : drift ((a : ℚ) / c) first p (first + m) =
      51 / 100 / tenPow p * ((m * a ^ m + c ^ m) / c ^ m) := by
    rw [drift_first_add, div_pow]
    field_simp
  have hsquare : drift ((a : ℚ) / c) first p (first + m) ^ 2 ≤ 1 / 100 / tenPow p := by
    rw [hdrift]
    exact sq_le_of_checked ht (pow_pos hc' m) (by exact_mod_cast hsmall)
  refine ⟨?_, hsquare, ?_, ?_⟩
  · have hfloor : (a : ℚ) ^ (first + m) <
        (a ^ (first + m) / c ^ (first + m) + 1 : Nat) * c ^ (first + m) := by
      exact_mod_cast Nat.lt_mul_of_div_lt (Nat.lt_succ_self _) (Nat.pow_pos hc)
    have hroom : ((a ^ (first + m) / c ^ (first + m) + 2 : Nat) : ℚ) * tenPow p + 1 ≤ capacity := by
      exact_mod_cast hroom
    rw [← div_lt_iff₀ hpow, ← div_pow] at hfloor
    push_cast at hfloor hroom
    have hsum := mul_le_mul_of_nonneg_right hfloor.le ht.le
    linarith
  · have hhundred : (100 : ℚ) ≤ tenPow p := by
      exact_mod_cast (Nat.pow_le_pow_right (by decide) htwo : tenPow 2 ≤ tenPow p)
    have hsq : drift ((a : ℚ) / c) first p (first + m) ^ 2 ≤ (1 / 100) ^ 2 := by
      refine hsquare.trans ?_
      rw [div_le_iff₀ ht]
      linarith
    exact le_of_sq_le_sq hsq (by norm_num)
  · rw [hdrift, div_pow]
    exact lt_of_checked ht (pow_pos hc' m) hpow (by exact_mod_cast hclose)

/-- A power that has to be rounded though its reciprocal can be held. -/
def Rounded (d t n : Nat) : Prop := 0 < t ∧ 2 ^ t ≤ 5 ^ d ∧ firstRounded d t ≤ n

instance (d t n : Nat) : Decidable (Rounded d t n) := inferInstanceAs (Decidable (_ ∧ _ ∧ _))

/-- The margin of the base `5 ^ d / 2 ^ t`, with all the places that there is room for. -/
def Passes (d t n : Nat) : Prop :=
  Checked (5 ^ d) (2 ^ t) n (n - firstRounded d t) (placesLeft (5 ^ d) (2 ^ t) n)

instance (d t n : Nat) : Decidable (Passes d t n) := inferInstanceAs (Decidable (Checked _ _ _ _ _))

/-- There are few such powers, and each of them leaves a margin. The least one is that of the
    base 1.1920928955078125 with exponent 4. -/
theorem passes_of_rounded :
    ∀ d < 15, ∀ n < maxScale / d + 1, ∀ t < maxScale + 1, Rounded d t n → Passes d t n := by
  decide +kernel

/-- The margin of a base that is a power of five over a power of ten. -/
theorem exists_margin {d t n : Nat} (hd : d < 15) (hdn : d * n ≤ maxScale) (ht : t ≤ maxScale)
    (h : Rounded d t n) :
    ∃ p ≤ maxScale, Margin ((5 ^ d : Nat) / (2 ^ t : Nat)) n (firstRounded d t) p := by
  obtain ⟨ht0, hle, hfirst⟩ := h
  have hd0 : 0 < d := by
    by_contra hd0
    obtain rfl : d = 0 := by omega
    exact absurd hle (Nat.not_le.2 (Nat.one_lt_two_pow ht0.ne'))
  have hn : n ≤ maxScale / d := (Nat.le_div_iff_mul_le hd0).2 (by rwa [Nat.mul_comm])
  have hpasses := passes_of_rounded d hd n (by omega) t (by omega) ⟨ht0, hle, hfirst⟩
  have hsize : (5 ^ d) ^ n / (2 ^ t) ^ n + 2 < capacity := by
    have hpow : (5 ^ d) ^ n / (2 ^ t) ^ n ≤ 5 ^ maxScale := by
      refine (Nat.div_le_self _ _).trans ?_
      rw [← pow_mul]
      exact Nat.pow_le_pow_right (by decide) hdn
    exact Nat.lt_of_le_of_lt (Nat.add_le_add_right hpow 2) (by decide)
  exact ⟨_, stretch_le _ _, margin_of_checked (Nat.pow_pos (by decide)) hfirst
    (stretch_lt hsize maxScale) hpasses⟩

/-! ## Reciprocals of powers -/

/-- The power of a base of size one or more can be rounded on the way, but not so much that
    its reciprocal shows it. -/
theorem powNat_reciprocal_of_one_le {base : Decimal} {n : Nat} (hn : 0 < n)
    (hx : 1 ≤ |base.value|) (hrep : Representable (1 / base.value ^ n))
    (hnot : ¬ Representable (base.value ^ n)) :
    ∃ p, base.powNat n = some p ∧ p.value ≠ 0 ∧
      ∃ r, one.div p = some r ∧ r.value = 1 / base.value ^ n := by
  obtain ⟨d, ht, hfives, hdn⟩ := (base_cases hn hx hrep).resolve_left hnot
  have hheld : ∀ k < firstRounded d base.normalize.scale, Representable (base.value ^ k) := by
    intro k hk
    rw [← value_normalize]
    exact representable_of_lt_firstRounded ht hfives hk
  have htwo := two_le_firstRounded ht hfives
  have hfirst : firstRounded d base.normalize.scale ≤ n := by
    by_contra hlt
    exact hnot (hheld n (by omega))
  have hsize : |base.value| = (5 ^ d : Nat) / (2 ^ base.normalize.scale : Nat) := by
    rw [← value_normalize]
    exact abs_value_of_fives hfives
  have hle : 2 ^ base.normalize.scale ≤ 5 ^ d := by
    have hpos : (0 : ℚ) < (2 ^ base.normalize.scale : Nat) := by
      exact_mod_cast Nat.pow_pos (by decide)
    rw [hsize, one_le_div hpos] at hx
    exact_mod_cast hx
  have hd : d < 15 := by
    have : d * 2 ≤ d * n := Nat.mul_le_mul_left d (htwo.trans hfirst)
    unfold maxScale at hdn
    omega
  obtain ⟨p, hp, hmargin⟩ := exists_margin hd hdn base.normalize.scale_le ⟨ht, hle, hfirst⟩
  rw [← hsize] at hmargin
  obtain ⟨r, hr, hnear⟩ := powNat_drift hx hp htwo hheld hmargin
  have hone : 1 ≤ |base.value ^ n| := by
    rw [abs_pow]
    exact one_le_pow₀ hx
  have hclose := hmargin.close
  rw [← abs_pow] at hclose
  exact ⟨r, hr, one_div_exact hone hrep hnear hmargin.drift_le hclose⟩

theorem powNat_reciprocal {base : Decimal} {n : Nat} (hn : 0 < n) (hbase : base.value ≠ 0)
    (hrep : Representable (1 / base.value ^ n))
    (h : Representable (base.value ^ n) ∨ 1 ≤ |base.value|) :
    ∃ p, base.powNat n = some p ∧ p.value ≠ 0 ∧
      ∃ r, one.div p = some r ∧ r.value = 1 / base.value ^ n := by
  by_cases hheld : Representable (base.value ^ n)
  · obtain ⟨p, hp, hvalue⟩ := powNat_exact hheld
    have hne : p.value ≠ 0 := by
      rw [hvalue]
      exact pow_ne_zero n hbase
    obtain ⟨r, hr, hrvalue⟩ := div_exact (a := one) hne (by rwa [value_one, hvalue])
    exact ⟨p, hp, hne, r, hr, by rw [hrvalue, value_one, hvalue]⟩
  · exact powNat_reciprocal_of_one_le hn (h.resolve_left hheld) hrep hheld

/-- **Reciprocals of powers are exact for bases of size one or more.** A negative exponent gives
    the exact reciprocal of the power, if that can be held, for every such base, and for a
    smaller one if the power can be held too. -/
theorem pow_reciprocal_exact {base exponent : Decimal} {n : Nat} (hpos : 0 < n)
    (hn : n < wholeLimit) (he : exponent.value = -n) (hbase : base.value ≠ 0)
    (hreciprocal : Representable (1 / base.value ^ n))
    (hpower : Representable (base.value ^ n) ∨ 1 ≤ |base.value|) :
    ∃ r, BinaryOp.pow.apply base exponent = .ok r ∧ r.value = 1 / base.value ^ n := by
  obtain ⟨p, hp, hne, r, hr, hvalue⟩ := powNat_reciprocal hpos hbase hreciprocal hpower
  have hnonzero : ¬ p.isZero = true := fun hz => hne ((isZero_iff p).1 hz)
  refine ⟨r, ?_, hvalue⟩
  simp only [BinaryOp.apply]
  rw [pow_of_negative hpos hn he hbase hp, if_neg hnonzero, hr]
  rfl

/-- The power of one half with exponent -28 is 2 ^ 28, and the power of 5 ^ 23 / 10 ^ 16 with
    exponent -4 has 28 places, although its reciprocal has 64. -/
theorem pow_reciprocal_exact_fifths :
    let half : Decimal := ⟨5, 1, by decide, by decide⟩
    let few : Decimal := ⟨-28, 0, by decide, by decide⟩
    let fifths : Decimal := ⟨11920928955078125, 16, by decide, by decide⟩
    let four : Decimal := ⟨-40, 1, by decide, by decide⟩
    (few.value = -(28 : Nat) ∧ Representable (1 / half.value ^ 28) ∧
      Representable (half.value ^ 28) ∧
      ∃ r, BinaryOp.pow.apply half few = .ok r ∧ r.value = 2 ^ 28) ∧
    (four.value = -(4 : Nat) ∧ Representable (1 / fifths.value ^ 4) ∧ 1 ≤ |fifths.value| ∧
      ∃ r, BinaryOp.pow.apply fifths four = .ok r ∧ r.value = 2 ^ 92 / 10 ^ 28) := by
  intro half few fifths four
  have hfew : few.value = -(28 : Nat) := by norm_num [few, value, tenPow]
  have hhalf : half.value = 1 / 2 := by norm_num [half, value, tenPow]
  have hrecHalf : Representable (1 / half.value ^ 28) :=
    ⟨2 ^ 28, 0, by decide, by decide, by norm_num [hhalf, tenPow]⟩
  have hpower : Representable (half.value ^ 28) :=
    ⟨5 ^ 28, 28, by decide, by decide, by norm_num [hhalf, tenPow]⟩
  have hfour : four.value = -(4 : Nat) := by norm_num [four, value, tenPow]
  have hfifths : fifths.value = 5 ^ 7 / 2 ^ 16 := by norm_num [fifths, value, tenPow]
  have hrecFifths : Representable (1 / fifths.value ^ 4) :=
    ⟨2 ^ 92, 28, by decide, by decide, by norm_num [hfifths, tenPow]⟩
  have hone : 1 ≤ |fifths.value| := by rw [hfifths]; norm_num
  obtain ⟨r, hr, hvalue⟩ := pow_reciprocal_exact (by decide) (by decide) hfew
    (by rw [hhalf]; norm_num) hrecHalf (.inl hpower)
  obtain ⟨q, hq, hqvalue⟩ := pow_reciprocal_exact (by decide) (by decide) hfour
    (by rw [hfifths]; norm_num) hrecFifths (.inr hone)
  exact ⟨⟨hfew, hrecHalf, hpower, r, hr, by rw [hvalue, hhalf]; norm_num⟩,
    hfour, hrecFifths, hone, q, hq, by rw [hqvalue, hfifths]; norm_num⟩

/-- With one more place the power of one half is rounded, and its reciprocal is no longer the
    integer 2 ^ 29. -/
theorem pow_half_inexact :
    let half : Decimal := ⟨5, 1, by decide, by decide⟩
    let exponent : Decimal := ⟨-29, 0, by decide, by decide⟩
    exponent.value = -(29 : Nat) ∧ Representable (1 / half.value ^ 29) ∧
      ∃ r, BinaryOp.pow.apply half exponent = .ok r ∧ r.value ≠ 1 / half.value ^ 29 := by
  intro half exponent
  have he : exponent.value = -(29 : Nat) := by norm_num [exponent, value, tenPow]
  have hhalf : half.value = 1 / 2 := by norm_num [half, value, tenPow]
  have hpower : powNat ⟨5, 1, by decide, by decide⟩ 29 =
      some ⟨18626451492309570312, 28, by decide, by decide⟩ := by
    simp only [powNat, powFrom_step, ne_eq, OfNat.ofNat_ne_zero, one_ne_zero, not_false_eq_true,
      Nat.reduceMod, Nat.reduceDiv, reduceIte]
    rfl
  have hquotient : one.div ⟨18626451492309570312, 28, by decide, by decide⟩ =
      some ⟨53687091200000000001441151881, 20, by decide, by decide⟩ := by decide
  have hreciprocal : Representable (1 / half.value ^ 29) :=
    ⟨2 ^ 29, 0, by decide, by decide, by norm_num [hhalf, tenPow]⟩
  refine ⟨he, hreciprocal, ⟨53687091200000000001441151881, 20, by decide, by decide⟩, ?_, ?_⟩
  · simp only [BinaryOp.apply]
    rw [pow_of_negative (by decide) (by decide) he (by rw [hhalf]; norm_num) hpower,
      if_neg (by decide), hquotient]
    rfl
  · rw [hhalf]
    norm_num [value, tenPow]

end Bello.Decimal
