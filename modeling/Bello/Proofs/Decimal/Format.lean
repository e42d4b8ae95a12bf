import Bello.Proofs.Decimal.Fitting
import Bello.Proofs.Decimal.Value
import Bello.Proofs.Decimal.Plain

/- Numbers as they are shown.

   A number is shown rounded to a number of places and without trailing zeros. `RoundsTo`
   says what rounding means without a computation: of the numbers with that many places it
   takes the nearest, and of two nearest ones that farther from zero. There is one such
   number (`RoundsTo.unique`), so what is shown depends on the value alone and not on the
   scale (`shown_congr`). `Canonical` is the form of the text (`canonical_shown`): with the
   least scale there is no zero to end on, and zero has no sign. -/
namespace Bello

/-- A half is not rounded down. -/
theorem lt_roundDiv_away (n : Nat) {d : Nat} (hd : 0 < d) :
    2 * n < 2 * (d * roundDiv .awayFromZero n d) + d := by
  have hdiv := Nat.div_add_mod n d
  have hmod := Nat.mod_lt n hd
  have hup : d * (n / d + 1) = d * (n / d) + d := Nat.mul_succ d (n / d)
  simp only [roundDiv]
  split
  · rw [hup]
    omega
  · split
    · rw [hup]
      omega
    · omega

namespace Decimal

/-! ## Rounding to places -/

/-- `y` is `x` rounded to `p` places, a half away from zero: no number with `p` places is
    nearer to `x`, and none that is as near is farther from zero. -/
structure RoundsTo (p : Nat) (x y : ℚ) : Prop where
  places : ∃ k : Int, y = k / tenPow p
  nearest : ∀ k : Int, |y - x| ≤ |k / tenPow p - x|
  away : ∀ k : Int, |k / tenPow p - x| = |y - x| → |(k : ℚ) / tenPow p| ≤ |y|

namespace RoundsTo

variable {p : Nat} {x y z : ℚ}

/-- What has no more places is left as it is. -/
theorem refl (h : ∃ k : Int, x = k / tenPow p) : RoundsTo p x x where
  places := h
  nearest k := by
    rw [sub_self, abs_zero]
    exact abs_nonneg _
  away k hk := by
    rw [sub_self, abs_zero, abs_eq_zero, sub_eq_zero] at hk
    rw [hk]

theorem neg (h : RoundsTo p x y) : RoundsTo p (-x) (-y) := by
  have hflip : ∀ k : Int, |(k : ℚ) / tenPow p - -x| = |((-k : Int) : ℚ) / tenPow p - x| := by
    intro k
    rw [← abs_neg]
    congr 1
    push_cast
    ring
  have hdist : |-y - -x| = |y - x| := by
    rw [← abs_neg]
    congr 1
    ring
  obtain ⟨k, hk⟩ := h.places
  refine ⟨⟨-k, ?_⟩, fun k => ?_, fun k heq => ?_⟩
  · rw [hk, Int.cast_neg, neg_div]
  · rw [hdist, hflip]
    exact h.nearest (-k)
  · rw [hdist, hflip] at heq
    have hle := h.away (-k) heq
    rwa [Int.cast_neg, neg_div, abs_neg, ← abs_neg y] at hle

theorem signed {m n : Nat} {a b : ℚ} (h : RoundsTo p (m / a) (n / b)) (negative : Bool) :
    RoundsTo p (Decimal.signed negative m / a) (Decimal.signed negative n / b) := by
  cases negative with
  | false => exact h
  | true =>
    have hneg := h.neg
    rw [← neg_div, ← neg_div] at hneg
    simpa only [Decimal.signed, if_true, Int.cast_neg, Int.cast_natCast] using hneg

theorem unique (hy : RoundsTo p x y) (hz : RoundsTo p x z) : y = z := by
  obtain ⟨i, hi⟩ := hy.places
  obtain ⟨j, hj⟩ := hz.places
  have hdist : |y - x| = |z - x| :=
    le_antisymm (by rw [hj]; exact hy.nearest j) (by rw [hi]; exact hz.nearest i)
  have hsize : |y| = |z| := by
    refine le_antisymm ?_ ?_
    · have := hz.away i (by rw [← hi]; exact hdist)
      rwa [← hi] at this
    · have := hy.away j (by rw [← hj]; exact hdist.symm)
      rwa [← hj] at this
  rcases abs_eq_abs.1 hsize with h | h
  · exact h
  · -- Opposite numbers are equally far from zero only.
    have hzero : x = 0 ∨ z = 0 := by
      rcases abs_eq_abs.1 hdist with hd | hd
      · exact .inr (by linarith)
      · exact .inl (by linarith)
    rcases hzero with rfl | rfl
    · have hnear := hy.nearest 0
      simp only [Int.cast_zero, zero_div, sub_zero, abs_zero] at hnear
      have hy0 := abs_nonpos_iff.1 hnear
      rw [hy0] at h
      rw [hy0]
      linarith
    · rw [h, neg_zero]

end RoundsTo

/-- Of the whole numbers, the one within a half is nearest, and only the one below can be
    as near. -/
theorem nearest_whole {t : ℚ} {q : Nat} (ht : 0 ≤ t) (hlow : |(q : ℚ) - t| ≤ 1 / 2)
    (hhigh : t < q + 1 / 2) (k : Int) :
    |(q : ℚ) - t| ≤ |(k : ℚ) - t| ∧ (|(k : ℚ) - t| = |(q : ℚ) - t| → |(k : ℚ)| ≤ q) := by
  rcases lt_trichotomy k q with hk | rfl | hk
  · have hk' : (k : ℚ) + 1 ≤ q := by exact_mod_cast hk
    obtain ⟨h1, h2⟩ := abs_le.1 hlow
    have hdist : 1 / 2 ≤ |(k : ℚ) - t| := by
      rw [abs_sub_comm]
      exact le_trans (by linarith) (le_abs_self _)
    refine ⟨hlow.trans hdist, fun heq => abs_le.2 ⟨?_, by linarith⟩⟩
    have hsub : t - k ≤ 1 / 2 := by
      rw [← heq, abs_sub_comm] at hlow
      exact (le_abs_self _).trans hlow
    have hq : (0 : ℚ) ≤ q := Nat.cast_nonneg q
    have hk0 : (-1 : ℚ) < k := by linarith
    have hk0 : -1 < k := by exact_mod_cast hk0
    have hk0 : (0 : ℚ) ≤ k := by exact_mod_cast (by omega : 0 ≤ k)
    linarith
  · exact ⟨le_of_eq rfl, fun _ => le_of_eq (abs_of_nonneg (Nat.cast_nonneg q))⟩
  · have hk' : (q : ℚ) + 1 ≤ k := by exact_mod_cast hk
    have hdist : 1 / 2 < |(k : ℚ) - t| := lt_of_lt_of_le (by linarith) (le_abs_self _)
    exact ⟨(hlow.trans_lt hdist).le, fun heq => absurd heq (hlow.trans_lt hdist).ne'⟩

theorem roundsTo_quotient (p n : Nat) {d : Nat} (hd : 0 < d) :
    RoundsTo p ((n : ℚ) / d / tenPow p) ((roundDiv .awayFromZero n d : ℚ) / tenPow p) := by
  have hd' : (0 : ℚ) < d := by exact_mod_cast hd
  have hpos := cast_tenPow_pos p
  have hhigh : (n : ℚ) / d < (roundDiv .awayFromZero n d : ℚ) + 1 / 2 := by
    have hlt : 2 * (n : ℚ) < 2 * (d * roundDiv .awayFromZero n d) + d := by
      exact_mod_cast lt_roundDiv_away n hd
    rw [div_lt_iff₀ hd']
    linarith
  have hnear := nearest_whole (by positivity) (abs_roundDiv_sub_le .awayFromZero n hd) hhigh
  refine ⟨⟨roundDiv .awayFromZero n d, by push_cast; rfl⟩, fun k => ?_, fun k heq => ?_⟩
  · rw [← sub_div, ← sub_div, abs_div, abs_div]
    exact div_le_div_of_nonneg_right (hnear k).1 (abs_nonneg _)
  · rw [← sub_div, ← sub_div, abs_div, abs_div, div_left_inj' (abs_pos.2 hpos.ne').ne'] at heq
    have hq : (0 : ℚ) ≤ roundDiv .awayFromZero n d := Nat.cast_nonneg _
    rw [abs_div, abs_div, abs_of_nonneg hq]
    exact div_le_div_of_nonneg_right ((hnear k).2 heq) (abs_nonneg _)

/-- Rounding a decimal rounds its value. -/
theorem roundTo_value (p : Nat) (d : Decimal) : RoundsTo p d.value (d.roundTo p).value := by
  unfold roundTo
  split
  · next hp =>
    have hpow : (tenPow d.scale : ℚ) = tenPow (d.scale - p) * tenPow p := by
      rw [← cast_tenPow_add, Nat.sub_add_cancel hp.le]
    have hround := roundsTo_quotient p d.magnitude (tenPow_pos (d.scale - p))
    rw [div_div, ← hpow] at hround
    rw [value_eq_signed d]
    exact hround.signed d.isNegative
  · next hp => exact .refl (value_places (by omega))

/-! ## One text for one value -/

theorem normalize_congr {a b : Decimal} (h : a.value = b.value) : a.normalize = b.normalize := by
  have hvalue : a.normalize.value = b.normalize.value := by
    rw [value_normalize, value_normalize, h]
  have hscale : a.normalize.scale = b.normalize.scale :=
    Nat.le_antisymm (places_le a.normalize_least hvalue) (places_le b.normalize_least hvalue.symm)
  have hmantissa : a.normalize.mantissa = b.normalize.mantissa := by
    have hm := eq_mul_of_div_eq hscale.ge hvalue.symm
    rw [hscale, Nat.sub_self] at hm
    simpa [tenPow] using hm
  generalize a.normalize = c at hscale hmantissa
  generalize b.normalize = d at hscale hmantissa
  cases c
  cases d
  cases hscale
  cases hmantissa
  rfl

/-- The decimal that is shown for `d` with `p` places. -/
def shown (p : Nat) (d : Decimal) : Decimal := (d.roundTo p).normalize

theorem format_eq_plain (d : Decimal) (p : Nat) : d.format p = (d.shown p).plain := rfl

theorem shown_value (p : Nat) (d : Decimal) : RoundsTo p d.value (d.shown p).value := by
  rw [shown, value_normalize]
  exact roundTo_value p d

theorem shown_congr (p : Nat) {a b : Decimal} {x : ℚ} (ha : RoundsTo p a.value x)
    (hb : RoundsTo p b.value x) : a.shown p = b.shown p := by
  refine normalize_congr ?_
  rw [(roundTo_value p a).unique ha, (roundTo_value p b).unique hb]

theorem shown_scale_le (p : Nat) (d : Decimal) : (d.shown p).scale ≤ p := by
  obtain ⟨k, hk⟩ := (roundTo_value p d).places
  exact normalize_scale_le hk

/-! ## The form of the text -/

/-- Digits with no needless zero in front. -/
structure WholePart (cs : List Char) : Prop where
  nonempty : cs ≠ []
  digits : ∀ c ∈ cs, c.isDigit = true
  lead : cs.head? = some '0' → cs = ['0']

/-- Nothing, or a point and at most `p` digits that do not end on zero. -/
def FractionPart (p : Nat) (cs : List Char) : Prop :=
  cs = [] ∨ ∃ ds, cs = '.' :: ds ∧ ds ≠ [] ∧ ds.length ≤ p ∧
    (∀ c ∈ ds, c.isDigit = true) ∧ ds.getLast? ≠ some '0'

/-- The form in which numbers are shown with at most `p` places. A minus sign stands only
    before a number with a digit other than zero. -/
def Canonical (p : Nat) (cs : List Char) : Prop :=
  ∃ sign whole fraction, cs = sign ++ (whole ++ fraction) ∧
    WholePart whole ∧ FractionPart p fraction ∧
    (sign = [] ∨ sign = ['-'] ∧ ∃ c ∈ whole ++ fraction, c.isDigit = true ∧ c ≠ '0')

theorem digitChar_ne_zero {n : Nat} (hn : n < 10) (h0 : n ≠ 0) : n.digitChar ≠ '0' := by
  have hall : ∀ n < 10, n ≠ 0 → n.digitChar ≠ '0' := by decide
  exact hall n hn h0

theorem head?_digits {n : Nat} (h : n ≠ 0) : (digits n).head? ≠ some '0' := by
  induction n using Nat.strongRecOn with
  | ind n ih =>
    rw [digits, Nat.toDigits_eq_if (by decide)]
    split
    · next hlt => exact fun heq => digitChar_ne_zero hlt h (Option.some.inj heq)
    · next hge =>
      rw [List.head?_append_of_ne_nil _ Nat.toDigits_ne_nil]
      exact ih (n / 10) (by omega) (by omega)

theorem getLast?_digits (n : Nat) : (digits n).getLast? = some (n % 10).digitChar := by
  rw [digits, Nat.toDigits_eq_if (by decide)]
  split
  · next hlt => rw [Nat.mod_eq_of_lt hlt]; rfl
  · exact List.getLast?_concat

theorem getLast?_paddedDigits (width n : Nat) :
    (paddedDigits width n).getLast? = some (n % 10).digitChar := by
  have hne : digits n ≠ [] := Nat.toDigits_ne_nil
  rw [paddedDigits, List.getLast?_append_of_ne_nil _ hne, getLast?_digits]

theorem wholePart_digits (n : Nat) : WholePart (digits n) where
  nonempty := Nat.toDigits_ne_nil
  digits _ := isDigit_digits
  lead h := by
    by_cases h0 : n = 0
    · rw [h0]
      exact Nat.toDigits_zero 10
    · exact absurd h (head?_digits h0)

/-- The fraction ends on the last digit of the mantissa. -/
theorem getLast?_fraction {n s : Nat} (hs : s ≠ 0) (h : ¬ 10 ∣ n) :
    (paddedDigits s (n % tenPow s)).getLast? ≠ some '0' := by
  have hten : 10 ∣ tenPow s := dvd_pow_self 10 hs
  rw [getLast?_paddedDigits, Nat.mod_mod_of_dvd n hten]
  exact fun heq => digitChar_ne_zero (Nat.mod_lt n (by decide))
    (fun h0 => h (Nat.dvd_of_mod_eq_zero h0)) (Option.some.inj heq)

theorem fractionPart_fractionChars {n s p : Nat} (hs : s ≤ p) (h : s = 0 ∨ ¬ 10 ∣ n) :
    FractionPart p (fractionChars n s) := by
  unfold fractionChars
  split
  · exact .inl rfl
  · next hs0 =>
    have hlen := length_paddedDigits (Nat.pos_of_ne_zero hs0) (Nat.mod_lt n (tenPow_pos s))
    refine .inr ⟨_, rfl, ?_, ?_, fun c hc => isDigit_paddedDigits hc, ?_⟩
    · exact List.ne_nil_of_length_pos (by omega)
    · omega
    · exact getLast?_fraction hs0 (h.resolve_left hs0)

/-- A number other than zero has a digit other than zero: the first one of a whole number,
    the last one of any other. -/
theorem exists_digit_ne_zero {n s : Nat} (h0 : n ≠ 0) (h : s = 0 ∨ ¬ 10 ∣ n) :
    ∃ c ∈ digits (n / tenPow s) ++ fractionChars n s, c.isDigit = true ∧ c ≠ '0' := by
  by_cases hs : s = 0
  · obtain ⟨c, cs, hcs⟩ := digits_cons n
    have hmem : c ∈ digits n := by rw [hcs]; exact List.mem_cons_self
    refine ⟨c, List.mem_append_left _ ?_, isDigit_digits hmem, ?_⟩
    · rwa [hs, show tenPow 0 = 1 from rfl, Nat.div_one]
    · rintro rfl
      exact head?_digits h0 (by rw [hcs]; rfl)
  · have hlast := getLast?_fraction hs (h.resolve_left hs)
    rw [getLast?_paddedDigits] at hlast
    have hmem := List.mem_of_getLast? (getLast?_paddedDigits s (n % tenPow s))
    refine ⟨_, List.mem_append_right _ ?_, isDigit_paddedDigits hmem,
      fun heq => hlast (by rw [heq])⟩
    rw [fractionChars, if_neg hs]
    exact List.mem_cons_of_mem _ hmem

theorem canonical_plain {d : Decimal} {p : Nat} (hp : d.scale ≤ p)
    (h : d.scale = 0 ∨ ¬ (10 : Int) ∣ d.mantissa) : Canonical p d.plain.toList := by
  have h : d.scale = 0 ∨ ¬ 10 ∣ d.mantissa.natAbs :=
    h.imp_right (fun hnot hdvd => hnot (Int.natCast_dvd.2 hdvd))
  rw [plain, String.toList_ofList, plainChars_eq]
  refine ⟨_, _, _, rfl, wholePart_digits _, fractionPart_fractionChars hp h, ?_⟩
  split
  · exact .inr ⟨rfl, exists_digit_ne_zero (by omega) h⟩
  · exact .inl rfl

theorem canonical_shown (p : Nat) (d : Decimal) : Canonical p (d.shown p).plain.toList :=
  canonical_plain (shown_scale_le p d) (d.roundTo p).normalize_least

end Decimal

end Bello
