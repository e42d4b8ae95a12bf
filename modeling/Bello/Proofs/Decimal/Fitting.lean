import Bello.Proofs.Decimal.Value

/- How far `fit` is from the exact number.

   An exact result that does not fit loses as few digits as possible, and what is left is
   rounded to the nearest. So the result is off by half a unit of its last digit at most
   (`abs_fit_sub_le`), also where rounding up reaches the capacity and one more digit is
   dropped. There is no result only when the exact number is as large as the capacity, up
   to half a unit (`le_of_fit_none`), and nothing is lost when the digits that go are zeros
   (`fit_of_dvd`). -/
namespace Bello

/-! ## Rounded quotients -/

theorem roundDiv_le_succ (tie : Tie) (n d : Nat) : roundDiv tie n d ≤ n / d + 1 := by
  have hodd : n / d % 2 < 2 := Nat.mod_lt _ (by decide)
  simp only [roundDiv]
  split
  · exact Nat.le_refl _
  · split
    · cases tie with
      | toEven => exact Nat.add_le_add_left (by omega) _
      | awayFromZero => exact Nat.le_refl _
    · exact Nat.le_succ _

/-- Nothing is rounded when there is no remainder. -/
theorem roundDiv_of_dvd (tie : Tie) {n d : Nat} (hd : 0 < d) (h : d ∣ n) :
    roundDiv tie n d = n / d := by
  have hr : n % d = 0 := Nat.mod_eq_zero_of_dvd h
  simp only [roundDiv, hr]
  rw [if_neg (by omega), if_neg (by omega)]

/-- A rounded quotient is off by one half at most. -/
theorem roundDiv_error (tie : Tie) (n : Nat) {d : Nat} (hd : 0 < d) :
    2 * n ≤ 2 * (d * roundDiv tie n d) + d ∧ 2 * (d * roundDiv tie n d) ≤ 2 * n + d := by
  have hdiv := Nat.div_add_mod n d
  have hmod := Nat.mod_lt n hd
  have hup : d * (n / d + 1) = d * (n / d) + d := Nat.mul_succ d (n / d)
  simp only [roundDiv]
  split
  · rw [hup]
    omega
  · split
    · cases tie with
      | toEven =>
        -- The tie goes to one side or the other, and both are half a divisor away.
        rcases Nat.mod_two_eq_zero_or_one (n / d) with hq | hq
        · simp only [hq, Nat.add_zero]
          omega
        · simp only [hq, hup]
          omega
      | awayFromZero =>
        simp only [hup]
        omega
    · omega

theorem abs_roundDiv_sub_le (tie : Tie) (n : Nat) {d : Nat} (hd : 0 < d) :
    |(roundDiv tie n d : ℚ) - n / d| ≤ 1 / 2 := by
  obtain ⟨hlow, hhigh⟩ := roundDiv_error tie n hd
  have hd' : (0 : ℚ) < d := by exact_mod_cast hd
  have hlow : 2 * (n : ℚ) ≤ 2 * (d * roundDiv tie n d) + d := by exact_mod_cast hlow
  have hhigh : 2 * (d * (roundDiv tie n d : ℚ)) ≤ 2 * n + d := by exact_mod_cast hhigh
  have hn : (n : ℚ) = n / d * d := by field_simp
  rw [abs_le]
  constructor
  · by_contra hlt
    nlinarith
  · by_contra hlt
    nlinarith

namespace Decimal

/-! ## Digits that go -/

theorem div_tenPow_succ (n k : Nat) : n / tenPow (k + 1) = n / 10 / tenPow k := by
  rw [tenPow_succ, Nat.mul_comm, Nat.div_div_eq_div_mul]

/-- With these digits gone the rest fits, and with fewer it does not. -/
theorem surplusDigits?_some {n most k : Nat} (h : surplusDigits? n most = some k) :
    k ≤ most ∧ n / tenPow k < capacity ∧ ∀ i < k, capacity ≤ n / tenPow i := by
  induction most generalizing n k with
  | zero =>
    unfold surplusDigits? at h
    split at h
    · next hn => cases h; exact ⟨Nat.le_refl _, by simpa [tenPow] using hn, by omega⟩
    · cases h
  | succ most ih =>
    unfold surplusDigits? at h
    split at h
    · next hn => cases h; exact ⟨by omega, by simpa [tenPow] using hn, by omega⟩
    · next hn =>
      obtain ⟨j, hj, rfl⟩ := Option.map_eq_some_iff.1 h
      obtain ⟨hle, hlt, hmin⟩ := ih hj
      refine ⟨by omega, by rwa [div_tenPow_succ], fun i hi => ?_⟩
      cases i with
      | zero => simpa [tenPow] using hn
      | succ i => rw [div_tenPow_succ]; exact hmin i (by omega)

theorem surplusDigits?_none {n most : Nat} (h : surplusDigits? n most = none) :
    capacity ≤ n / tenPow most := by
  induction most generalizing n with
  | zero =>
    unfold surplusDigits? at h
    split at h
    · cases h
    · next hn => simpa [tenPow] using hn
  | succ most ih =>
    unfold surplusDigits? at h
    split at h
    · cases h
    · rw [div_tenPow_succ]
      exact ih (Option.map_eq_none_iff.1 h)

theorem div_tenPow_anti (n : Nat) {i j : Nat} (h : i ≤ j) : n / tenPow j ≤ n / tenPow i :=
  Nat.div_le_div_left (Nat.pow_le_pow_right (by decide) h) (tenPow_pos i)

/-- A number that fits when `j` of its places are dropped loses no more than these. -/
theorem fit_eq_settle {x : Int} {scale j : Nat} (hj : j ≤ scale) (hscale : scale - j ≤ maxScale)
    (hlt : x.natAbs / tenPow j < capacity) :
    ∃ k, k ≤ j ∧ scale - k ≤ maxScale ∧ x.natAbs / tenPow k < capacity ∧
      fit x scale =
        settle (x < 0) (roundDiv .toEven x.natAbs (tenPow k)) (scale - k) := by
  cases hs : surplusDigits? x.natAbs scale with
  | none =>
    have hle := surplusDigits?_none hs
    have := div_tenPow_anti x.natAbs hj
    omega
  | some surplus =>
    obtain ⟨hle, hfits, hmin⟩ := surplusDigits?_some hs
    have hsurplus : surplus ≤ j := by
      by_contra hgt
      have := hmin j (by omega)
      omega
    refine ⟨Nat.max (scale - maxScale) surplus, Nat.max_le.2 ⟨by omega, hsurplus⟩, ?_, ?_, ?_⟩
    · have hmax : scale - maxScale ≤ Nat.max (scale - maxScale) surplus := Nat.le_max_left _ _
      omega
    · exact Nat.lt_of_le_of_lt (div_tenPow_anti _ (Nat.le_max_right _ _)) hfits
    · simp only [fit, hs, Option.bind_some]

/-! ## Rounded mantissas -/

theorem ofParts?_signed (negative : Bool) {n s : Nat} (hn : n < capacity) (hs : s ≤ maxScale) :
    ∃ d, ofParts? (signed negative n) s = some d ∧ d.mantissa = signed negative n ∧
      d.scale = s :=
  ⟨⟨signed negative n, s, by rwa [natAbs_signed], hs⟩,
    dif_pos ⟨by rwa [natAbs_signed], hs⟩, rfl, rfl⟩

theorem settle_of_lt (negative : Bool) {n s : Nat} (hn : n < capacity) (hs : s ≤ maxScale) :
    ∃ d, settle negative n s = some d ∧ d.mantissa = signed negative n ∧ d.scale = s := by
  unfold settle
  rw [if_pos hn]
  exact ofParts?_signed negative hn hs

/-- The capacity without its last digit, which is rounded up. -/
theorem roundDiv_capacity : roundDiv .toEven capacity 10 * 10 = capacity + 4 := by decide

theorem settle_capacity (negative : Bool) {s : Nat} (hs : s + 1 ≤ maxScale) :
    ∃ d, settle negative capacity (s + 1) = some d ∧
      d.mantissa = signed negative (roundDiv .toEven capacity 10) ∧ d.scale = s := by
  unfold settle
  rw [if_neg (Nat.lt_irrefl capacity)]
  exact ofParts?_signed negative (by decide) (by omega)

/-- What becomes of a number that can be held without its last digits. -/
theorem settle_cases (negative : Bool) {n s : Nat} (hn : n ≤ capacity) (hs : s ≤ maxScale) :
    (∃ d, settle negative n s = some d ∧ d.mantissa = signed negative n ∧ d.scale = s) ∨
    (n = capacity ∧ ∃ d, settle negative n s = some d ∧ d.scale + 1 = s ∧
      d.mantissa = signed negative (roundDiv .toEven capacity 10)) ∨
    (n = capacity ∧ s = 0 ∧ settle negative n s = none) := by
  rcases Nat.lt_or_eq_of_le hn with hlt | rfl
  · exact .inl (settle_of_lt negative hlt hs)
  · cases s with
    | zero => exact .inr (.inr ⟨rfl, rfl, by unfold settle; rw [if_neg (Nat.lt_irrefl _)]⟩)
    | succ s =>
      obtain ⟨d, hd, hm, hscale⟩ := settle_capacity negative hs
      exact .inr (.inl ⟨rfl, d, hd, by rw [hscale], hm⟩)

/-! ## How far off -/

theorem signed_natAbs (x : Int) : signed (x < 0) x.natAbs = x := by
  by_cases hx : x < 0
  · simp only [signed, hx, decide_true, if_true]
    omega
  · simp only [signed, hx, decide_false, Bool.false_eq_true, if_false]
    omega

theorem value_eq_signed (d : Decimal) :
    d.value = (signed d.isNegative d.magnitude : ℚ) / tenPow d.scale := by
  rw [isNegative, magnitude, signed_natAbs]
  rfl

/-- Numbers of one sign are as far apart as their sizes. -/
theorem abs_signed_sub (negative : Bool) (m n : Nat) (p q : ℚ) :
    |(signed negative m : ℚ) / p - (signed negative n : ℚ) / q| = |(m : ℚ) / p - n / q| := by
  cases negative with
  | false => simp [signed]
  | true =>
    simp only [signed, if_true, Int.cast_neg, Int.cast_natCast]
    rw [← abs_neg]
    congr 1
    ring

theorem abs_div_sub_div_le {a y p : ℚ} (hp : 0 < p) (h : |a - y| ≤ 1 / 2) :
    |a / p - y / p| ≤ 1 / 2 / p := by
  rw [← sub_div, abs_div, abs_of_pos hp]
  exact div_le_div_of_nonneg_right h hp.le

/-- A number whose integer part is too large does not fit. -/
theorem fit_eq_none {x : Int} {scale : Nat} (h : capacity ≤ x.natAbs / tenPow scale) :
    fit x scale = none := by
  cases hs : surplusDigits? x.natAbs scale with
  | none => simp only [fit, hs, Option.bind_none]
  | some surplus =>
    obtain ⟨hle, hfits, -⟩ := surplusDigits?_some hs
    have := div_tenPow_anti x.natAbs hle
    omega

/-- What fits is off by half a unit of its last digit at most. -/
theorem abs_fit_sub_le {x : Int} {scale : Nat} {d : Decimal} (h : fit x scale = some d) :
    |d.value - x / tenPow scale| ≤ 1 / 2 / tenPow d.scale := by
  have hlt : x.natAbs / tenPow scale < capacity := by
    by_contra hge
    rw [fit_eq_none (Nat.le_of_not_lt hge)] at h
    cases h
  obtain ⟨k, hk, hscale, hfits, heq⟩ := fit_eq_settle (Nat.le_refl scale) (by omega) hlt
  rw [heq] at h
  have hround := abs_roundDiv_sub_le .toEven x.natAbs (tenPow_pos k)
  have hle : roundDiv .toEven x.natAbs (tenPow k) ≤ capacity :=
    Nat.le_trans (roundDiv_le_succ _ _ _) hfits
  -- The exact number over the scale that is left, before any rounding.
  have hexact : ∀ t, t + k = scale →
      |d.value - x / tenPow scale| = |d.value - signed (x < 0) x.natAbs / (tenPow k * tenPow t)| := by
    intro t ht
    rw [signed_natAbs, ← ht, cast_tenPow_add, mul_comm]
  rcases settle_cases (x < 0) hle hscale with
    ⟨d', hd', hm, hs⟩ | ⟨hcap, d', hd', hs, hm⟩ | ⟨-, -, hnone⟩
  · rw [h] at hd'
    cases hd'
    rw [hexact d.scale (by omega), value, hm, abs_signed_sub, ← div_div]
    exact abs_div_sub_div_le (cast_tenPow_pos d.scale) hround
  · rw [h] at hd'
    cases hd'
    -- One digit more goes, and it is a six.
    have hten : (roundDiv .toEven capacity 10 : ℚ) * 10 = capacity + 4 := by
      exact_mod_cast roundDiv_capacity
    have hpow : (tenPow (d.scale + 1) : ℚ) = 10 * tenPow d.scale := by
      rw [Nat.add_comm, cast_tenPow_add]
      rfl
    rw [hcap] at hround
    rw [hexact (d.scale + 1) (by omega), value, hm, abs_signed_sub, hpow, ← div_div, ← div_div]
    refine abs_div_sub_div_le (cast_tenPow_pos d.scale) ?_
    rw [abs_le] at hround ⊢
    constructor
    · linarith
    · linarith
  · rw [h] at hnone
    cases hnone

/-- What fits is below the capacity, up to half a unit. -/
theorem abs_le_of_fit_some {x : Int} {scale : Nat} {d : Decimal} (h : fit x scale = some d) :
    |(x : ℚ)| / tenPow scale ≤ capacity - 1 / 2 := by
  have hpos := cast_tenPow_pos scale
  have hone := one_le_cast_tenPow d.scale
  have hnear := abs_fit_sub_le h
  have hcap : (1 : ℚ) ≤ capacity := by exact_mod_cast (by decide : 1 ≤ capacity)
  calc |(x : ℚ)| / tenPow scale
      = |d.value - (d.value - x / tenPow scale)| := by
        rw [sub_sub_cancel, abs_div, abs_of_pos hpos]
    _ ≤ |d.value| + |d.value - x / tenPow scale| := abs_sub _ _
    _ ≤ (capacity - 1) / tenPow d.scale + 1 / 2 / tenPow d.scale := add_le_add d.abs_value_le hnear
    _ = (capacity - 1 / 2) / tenPow d.scale := by ring
    _ ≤ capacity - 1 / 2 := div_le_self (by linarith) hone

/-- What does not fit reaches the capacity, up to half a unit. -/
theorem le_of_fit_none {x : Int} {scale : Nat} (h : fit x scale = none) :
    (capacity : ℚ) - 1 / 2 ≤ |(x : ℚ)| / tenPow scale := by
  have hpos := cast_tenPow_pos scale
  rw [← cast_natAbs]
  by_cases hlt : x.natAbs / tenPow scale < capacity
  · obtain ⟨k, hk, hscale, hfits, heq⟩ := fit_eq_settle (Nat.le_refl scale) (by omega) hlt
    rw [heq] at h
    have hle : roundDiv .toEven x.natAbs (tenPow k) ≤ capacity :=
      Nat.le_trans (roundDiv_le_succ _ _ _) hfits
    rcases settle_cases (x < 0) hle hscale with
      ⟨d, hd, -⟩ | ⟨-, d, hd, -⟩ | ⟨hcap, hzero, -⟩
    · rw [h] at hd
      cases hd
    · rw [h] at hd
      cases hd
    · obtain rfl : k = scale := by omega
      have hround := abs_roundDiv_sub_le .toEven x.natAbs (tenPow_pos k)
      rw [hcap, abs_le] at hround
      linarith
  · have hle : capacity * tenPow scale ≤ x.natAbs :=
      (Nat.le_div_iff_mul_le (tenPow_pos scale)).1 (Nat.le_of_not_lt hlt)
    have hle : (capacity : ℚ) * tenPow scale ≤ x.natAbs := by exact_mod_cast hle
    have := (le_div_iff₀ hpos).2 hle
    linarith

/-- Nothing is lost when the digits that go are zeros. -/
theorem fit_of_dvd {x : Int} {scale j : Nat} (hj : j ≤ scale) (hscale : scale - j ≤ maxScale)
    (hdvd : tenPow j ∣ x.natAbs) (hlt : x.natAbs / tenPow j < capacity) :
    ∃ d, fit x scale = some d ∧ d.value = x / tenPow scale := by
  obtain ⟨k, hk, hs, hfits, heq⟩ := fit_eq_settle hj hscale hlt
  have hdvd : tenPow k ∣ x.natAbs := Nat.dvd_trans (Nat.pow_dvd_pow 10 hk) hdvd
  rw [roundDiv_of_dvd .toEven (tenPow_pos k) hdvd] at heq
  obtain ⟨d, hd, hm, hds⟩ := settle_of_lt (x < 0) hfits hs
  refine ⟨d, heq.trans hd, ?_⟩
  obtain ⟨q, hq⟩ := hdvd
  have hpos := cast_tenPow_pos k
  have hpos' := cast_tenPow_pos d.scale
  have hpow : (tenPow scale : ℚ) = tenPow d.scale * tenPow k := by
    rw [← cast_tenPow_add]
    congr 2
    omega
  rw [← sub_eq_zero, ← abs_eq_zero, ← signed_natAbs x, value, hm, abs_signed_sub, hpow, hq,
    Nat.mul_div_cancel_left q (tenPow_pos k)]
  push_cast
  field_simp
  simp

end Decimal

end Bello
