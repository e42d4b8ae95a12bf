import Bello.Operation
import Bello.Proofs.Decimal.Exact
import Bello.Proofs.Decimal.Successor

/- Powers with whole exponents.

   A power is found by squaring again and again, and each product on the way is a lower power
   of the same base. What holds of the results follows from what holds of products
   (`powNat_comes`). If the power itself can be held, so can all of these, and nothing is
   rounded (`powNat_exact`). A power of an integer that cannot be held is too large, and then
   some product is refused (`powNat_eq_none`). -/
namespace Bello.Decimal

/-! ## Repeated squaring -/

theorem powFrom_zero (accumulated square : Decimal) :
    powFrom accumulated square 0 = some accumulated := by
  rw [powFrom, dif_pos rfl]

theorem powFrom_step (accumulated square : Decimal) {n : Nat} (hn : n ≠ 0) :
    powFrom accumulated square n =
      (if n % 2 = 1 then accumulated.mul square else some accumulated).bind fun next =>
        if n / 2 = 0 then some next
        else (square.mul square).bind fun square => powFrom next square (n / 2) := by
  rw [powFrom, dif_neg hn]
  rcases Nat.mod_two_eq_zero_or_one n with hmod | hmod
  · rw [hmod]
    rfl
  · rw [hmod]
    rfl

/-- The result is as asked for the exponent `k`, or there is none, for some reason. -/
def Comes (P : Nat → Decimal → Prop) (reason : Prop) (k : Nat) (result : Option Decimal) : Prop :=
  (∃ r, result = some r ∧ P k r) ∨ (result = none ∧ reason)

section

variable {P : Nat → Decimal → Prop} {reason : Prop}

theorem Comes.bind {i k : Nat} {result : Option Decimal} {f : Decimal → Option Decimal}
    (h : Comes P reason i result) (hf : ∀ r, P i r → Comes P reason k (f r)) :
    Comes P reason k (result.bind f) := by
  rcases h with ⟨r, rfl, hr⟩ | ⟨rfl, hreason⟩
  · exact hf r hr
  · exact .inr ⟨rfl, hreason⟩

/-- Repeated squaring yields what its products yield: exponents add up with each of them. -/
theorem powFrom_comes {limit : Nat}
    (hmul : ∀ i j a b, i + j ≤ limit → P i a → P j b → Comes P reason (i + j) (a.mul b)) (n : Nat) :
    ∀ (i j : Nat) (accumulated square : Decimal), P i accumulated → P j square →
      i + j * n ≤ limit → Comes P reason (i + j * n) (powFrom accumulated square n) := by
  induction n using Nat.strong_induction_on with
  | h n ih =>
    intro i j accumulated square hacc hsquare hle
    by_cases hn : n = 0
    · subst hn
      exact .inl ⟨accumulated, powFrom_zero _ _, hacc⟩
    -- The lowest binary digit is dealt with, and the square takes the place of two bases.
    have hdigit : i + j * n = i + j * (n % 2) + (j + j) * (n / 2) := by
      have hdiv : j * n = j * (2 * (n / 2) + n % 2) := by rw [Nat.div_add_mod]
      rw [hdiv]
      ring
    have hnext : Comes P reason (i + j * (n % 2))
        (if n % 2 = 1 then accumulated.mul square else some accumulated) := by
      rcases Nat.mod_two_eq_zero_or_one n with hmod | hmod
      · rw [hmod]
        exact .inl ⟨accumulated, rfl, hacc⟩
      · rw [hmod, Nat.mul_one, if_pos rfl]
        rw [hmod, Nat.mul_one] at hdigit
        exact hmul i j _ _ (by omega) hacc hsquare
    rw [powFrom_step _ _ hn, hdigit]
    refine hnext.bind (fun next hvalue => ?_)
    by_cases hlast : n / 2 = 0
    · rw [if_pos hlast, hlast]
      exact .inl ⟨next, rfl, hvalue⟩
    · have hdouble : j + j ≤ (j + j) * (n / 2) :=
        Nat.le_mul_of_pos_right _ (Nat.pos_of_ne_zero hlast)
      rw [if_neg hlast]
      refine (hmul j j _ _ (by omega) hsquare hsquare).bind (fun c hc => ?_)
      exact ih (n / 2) (by omega) _ _ next c hvalue hc (by omega)

theorem powNat_comes {base : Decimal} {n : Nat}
    (hmul : ∀ i j a b, i + j ≤ n → P i a → P j b → Comes P reason (i + j) (a.mul b))
    (hone : P 0 one) (hbase : P 1 base) : Comes P reason n (base.powNat n) := by
  have hall := powFrom_comes hmul n 0 1 one base hone hbase (by omega)
  rwa [Nat.zero_add, Nat.one_mul] at hall

end

/-! ## Exact powers -/

/-- A number can be held, or no product yields it. -/
def HeldOrRefused (x : ℚ) : Prop :=
  Representable x ∨ ∀ a b : Decimal, a.value * b.value = x → a.mul b = none

/-- Where each power up to the exponent can be held or is refused, the result is the exact
    power, or there is none since one of them cannot be held. -/
theorem powNat_cases {base : Decimal} {n : Nat}
    (h : ∀ k ≤ n, HeldOrRefused (base.value ^ k)) :
    Comes (fun k r => r.value = base.value ^ k) (∃ k ≤ n, ¬ Representable (base.value ^ k)) n
      (base.powNat n) := by
  refine powNat_comes (fun i j a b hle ha hb => ?_) (by rw [value_one, pow_zero]) (pow_one _).symm
  have hab : a.value * b.value = base.value ^ (i + j) := by rw [ha, hb, pow_add]
  by_cases hrep : Representable (base.value ^ (i + j))
  · rw [← hab] at hrep
    obtain ⟨c, hc, hvalue⟩ := mul_exact hrep
    exact .inl ⟨c, hc, hvalue.trans hab⟩
  · exact .inr ⟨((h _ hle).resolve_left hrep) a b hab, i + j, hle, hrep⟩

/-- A power that can be held is exact. -/
theorem powNat_exact {base : Decimal} {n : Nat} (h : Representable (base.value ^ n)) :
    ∃ r, base.powNat n = some r ∧ r.value = base.value ^ n := by
  have hall : ∀ k ≤ n, Representable (base.value ^ k) :=
    fun k hk => representable_pow_of_le base hk h
  rcases powNat_cases (fun k hk => .inl (hall k hk)) with hr | ⟨-, k, hk, hnot⟩
  · exact hr
  · exact absurd (hall k hk) hnot

/-- An integer that cannot be held is too large. -/
theorem heldOrRefused_intCast (k : Int) : HeldOrRefused k := by
  by_cases hk : k.natAbs < capacity
  · exact .inl ⟨k, 0, hk, Nat.zero_le _, by simp [tenPow]⟩
  · refine .inr (fun a b hab => mul_eq_none ?_)
    rw [hab, ← cast_natAbs]
    exact_mod_cast Nat.le_of_not_lt hk

/-- A power of an integer that reaches the capacity is refused. -/
theorem powNat_eq_none {base : Decimal} {k : Int} {n : Nat} (hk : base.value = k)
    (h : (capacity : ℚ) ≤ |base.value| ^ n) : base.powNat n = none := by
  have hclear : ∀ i ≤ n, HeldOrRefused (base.value ^ i) := by
    intro i _
    rw [hk, ← Int.cast_pow]
    exact heldOrRefused_intCast _
  rcases powNat_cases hclear with ⟨r, -, hr⟩ | ⟨hnone, -⟩
  · have hle := r.abs_value_le_largest
    rw [hr, abs_pow, value_largest] at hle
    linarith
  · exact hnone

/-! ## Exponents -/

theorem isNegative_iff (d : Decimal) : d.isNegative = true ↔ d.value < 0 := by
  have hpos := cast_tenPow_pos d.scale
  rw [value, div_lt_iff₀ hpos, zero_mul, Int.cast_lt_zero, isNegative, decide_eq_true_iff]

/-- A whole exponent is recognized at any scale. -/
theorem whole_of_abs_value {d : Decimal} {n : Nat} (h : |d.value| = n) :
    d.isIntegral = true ∧ d.whole = n := by
  have hpos := cast_tenPow_pos d.scale
  have hm : d.magnitude = n * tenPow d.scale := by
    rw [value, abs_div, abs_of_pos hpos, ← cast_natAbs, div_eq_iff hpos.ne'] at h
    exact_mod_cast h
  rw [isIntegral, whole, hm, Nat.mul_mod_left, Nat.mul_div_cancel _ (tenPow_pos _)]
  exact ⟨rfl, rfl⟩

theorem pow_of_natural {base exponent : Decimal} {n : Nat} (hn : n < wholeLimit)
    (he : exponent.value = n) : base.pow exponent = orOverflow (base.powNat n) := by
  have hnonneg : (0 : ℚ) ≤ exponent.value := by rw [he]; exact Nat.cast_nonneg n
  obtain ⟨hintegral, hwhole⟩ := whole_of_abs_value (by rw [abs_of_nonneg hnonneg, he])
  have hsign : ¬ exponent.isNegative = true := by
    rw [isNegative_iff]
    exact not_lt.2 hnonneg
  simp [pow, hintegral, hwhole, hn, hsign]

/-- A negative exponent takes the reciprocal of the power, if there is one. -/
theorem pow_of_negative {base exponent power : Decimal} {n : Nat} (hpos : 0 < n)
    (hn : n < wholeLimit) (he : exponent.value = -n) (hbase : base.value ≠ 0)
    (hpower : base.powNat n = some power) :
    base.pow exponent = orOverflow (if power.isZero then none else one.div power) := by
  have hneg : exponent.value < 0 := by
    rw [he]
    exact neg_lt_zero.2 (Nat.cast_pos.2 hpos)
  obtain ⟨hintegral, hwhole⟩ := whole_of_abs_value (by rw [abs_of_neg hneg, he, neg_neg])
  have hsign : exponent.isNegative = true := (isNegative_iff exponent).2 hneg
  have hzero : ¬ base.isZero = true := fun hz => hbase ((isZero_iff base).1 hz)
  simp [pow, hintegral, hwhole, hn, hsign, hzero, hpower]

/-- **Powers with whole exponents are exact.** The power of any base, at any scale, is exact
    wherever it can be held. For an integer whose power reaches the capacity there is an
    error. -/
theorem pow_whole_exact {base exponent : Decimal} {n : Nat} (hn : n < wholeLimit)
    (he : exponent.value = n) :
    (Representable (base.value ^ n) →
      ∃ r, BinaryOp.pow.apply base exponent = .ok r ∧ r.value = base.value ^ n) ∧
    ((∃ k : Int, base.value = k) → (capacity : ℚ) ≤ |base.value| ^ n →
      BinaryOp.pow.apply base exponent = .error (.overflow "beedo")) := by
  simp only [BinaryOp.apply, pow_of_natural hn he]
  constructor
  · intro h
    obtain ⟨r, hr, hvalue⟩ := powNat_exact h
    exact ⟨r, by rw [hr]; rfl, hvalue⟩
  · rintro ⟨k, hk⟩ hlarge
    rw [powNat_eq_none hk hlarge]
    rfl

/-- The third power of -1.10 is -1.331, with an exponent that is written as 3.0, and the 29th
    power of ten is too large. -/
theorem pow_whole_exact_scaled :
    let base : Decimal := ⟨-110, 2, by decide, by decide⟩
    let three : Decimal := ⟨30, 1, by decide, by decide⟩
    let ten : Decimal := ⟨10, 0, by decide, by decide⟩
    let many : Decimal := ⟨29, 0, by decide, by decide⟩
    (3 < wholeLimit ∧ three.value = (3 : Nat) ∧ Representable (base.value ^ 3) ∧
      ∃ r, BinaryOp.pow.apply base three = .ok r ∧ r.value = base.value ^ 3) ∧
    (29 < wholeLimit ∧ many.value = (29 : Nat) ∧ (capacity : ℚ) ≤ |ten.value| ^ 29 ∧
      BinaryOp.pow.apply ten many = .error (.overflow "beedo")) := by
  intro base three ten many
  have hthree : three.value = (3 : Nat) := by norm_num [three, value, tenPow]
  have hmany : many.value = (29 : Nat) := by norm_num [many, value, tenPow]
  have hten : ten.value = (10 : Int) := by norm_num [ten, value, tenPow]
  have hpower : Representable (base.value ^ 3) :=
    ⟨-1331, 3, by decide, by decide, by norm_num [base, value, tenPow]⟩
  have hlarge : (capacity : ℚ) ≤ |ten.value| ^ 29 := by
    rw [hten]
    norm_num [capacity]
  exact ⟨⟨by decide, hthree, hpower, (pow_whole_exact (by decide) hthree).1 hpower⟩,
    by decide, hmany, hlarge, (pow_whole_exact (by decide) hmany).2 ⟨10, hten⟩ hlarge⟩

end Bello.Decimal
