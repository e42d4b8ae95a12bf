/- Decimal numbers of limited size, the only values of the language.

   A decimal is a signed mantissa below 2 ^ 96 over a power of ten of at most 28.
   The same value can be held at several scales (1.5 and 1.50), so comparison is
   by value and not by the parts. The two bounds are part of the type: whatever an
   operation returns can be held.

   An exact result is an integer over a power of ten. `fit` brings it back within the
   bounds: it drops as few of its last digits as they ask for and rounds what is left; a
   result whose integer part is too large has no decimal. -/
namespace Bello

/-- The power of ten with exponent `n`. -/
def tenPow (n : Nat) : Nat := Nat.pow 10 n

theorem tenPow_succ (n : Nat) : tenPow (n + 1) = tenPow n * 10 := rfl

theorem tenPow_add (m n : Nat) : tenPow (m + n) = tenPow m * tenPow n := Nat.pow_add 10 m n

theorem tenPow_pos : ∀ n, 0 < tenPow n
  | 0 => by decide
  | n + 1 => by rw [tenPow_succ]; exact Nat.mul_pos (tenPow_pos n) (by decide)

namespace Decimal

/-- Mantissas stay below this bound. -/
def capacity : Nat := Nat.pow 2 96

/-- The largest number of fractional digits. -/
def maxScale : Nat := 28

end Decimal

/-- The number `mantissa / 10 ^ scale`. -/
structure Decimal where
  mantissa : Int
  scale : Nat
  mantissa_lt : mantissa.natAbs < Decimal.capacity
  scale_le : scale ≤ Decimal.maxScale
deriving DecidableEq

namespace Decimal

/-- The decimal with the given parts, if they are within the bounds. -/
def ofParts? (mantissa : Int) (scale : Nat) : Option Decimal :=
  if h : mantissa.natAbs < capacity ∧ scale ≤ maxScale then
    some ⟨mantissa, scale, h.1, h.2⟩
  else none

def zero : Decimal := ⟨0, 0, by decide, by decide⟩

def one : Decimal := ⟨1, 0, by decide, by decide⟩

instance : Inhabited Decimal := ⟨zero⟩

/-- Truth as a number: one or zero. -/
def ofBool (b : Bool) : Decimal := if b then one else zero

def isZero (d : Decimal) : Bool := d.mantissa == 0

def isNegative (d : Decimal) : Bool := d.mantissa < 0

/-- A number counts as true unless it is zero. -/
def isTruthy (d : Decimal) : Bool := !d.isZero

/-- The size of the mantissa, without its sign. -/
def magnitude (d : Decimal) : Nat := d.mantissa.natAbs

def neg (d : Decimal) : Decimal :=
  ⟨-d.mantissa, d.scale, by rw [Int.natAbs_neg]; exact d.mantissa_lt, d.scale_le⟩

def abs (d : Decimal) : Decimal :=
  ⟨d.mantissa.natAbs, d.scale, by rw [Int.natAbs_natCast]; exact d.mantissa_lt, d.scale_le⟩

/-- Order by value: both mantissas are brought over one power of ten. -/
def cmp (a b : Decimal) : Ordering :=
  compare (a.mantissa * tenPow b.scale) (b.mantissa * tenPow a.scale)

def eq (a b : Decimal) : Bool := a.cmp b == .eq

def lt (a b : Decimal) : Bool := a.cmp b == .lt

def le (a b : Decimal) : Bool := a.cmp b != .gt

/-- The smaller of two numbers; the first of two equal ones. -/
def min (a b : Decimal) : Decimal := if b.lt a then b else a

/-- The larger of two numbers; the second of two equal ones. -/
def max (a b : Decimal) : Decimal := if b.lt a then a else b

/-- No digits after the point but zeros. -/
def isIntegral (d : Decimal) : Bool := d.magnitude % tenPow d.scale == 0

/-- The integer part, without its sign. -/
def whole (d : Decimal) : Nat := d.magnitude / tenPow d.scale

/-! ## Trailing zeros -/

/-- Takes zeros off the end of a mantissa, at most as many as the scale allows. -/
def stripZeros : Int → Nat → Int × Nat
  | m, 0 => (m, 0)
  | m, s + 1 => if m % 10 = 0 then stripZeros (m / 10) s else (m, s + 1)

theorem stripZeros_le (m : Int) (s : Nat) :
    (stripZeros m s).1.natAbs ≤ m.natAbs ∧ (stripZeros m s).2 ≤ s := by
  induction s generalizing m with
  | zero => simp [stripZeros]
  | succ s ih =>
    simp only [stripZeros]
    split
    · obtain ⟨hm, hs⟩ := ih (m / 10)
      omega
    · simp

/-- The same value at the least scale that can hold it. -/
def normalize (d : Decimal) : Decimal :=
  have h := stripZeros_le d.mantissa d.scale
  ⟨(stripZeros d.mantissa d.scale).1, (stripZeros d.mantissa d.scale).2,
    Nat.lt_of_le_of_lt h.1 d.mantissa_lt, Nat.le_trans h.2 d.scale_le⟩

end Decimal

/-! ## Rounding -/

/-- Where a value half-way between two neighbours goes. -/
inductive Tie where
  | toEven
  | awayFromZero
deriving DecidableEq

/-- The quotient rounded to the nearest integer, a tie as `tie` says. -/
def roundDiv (tie : Tie) (n d : Nat) : Nat :=
  let q := n / d
  let r := n % d
  if d < 2 * r then q + 1
  else if 2 * r = d then
    match tie with
    | .toEven => q + q % 2
    | .awayFromZero => q + 1
  else q

/-- Rounding a quotient never exceeds the dividend. -/
theorem roundDiv_le (tie : Tie) (n d : Nat) (hd : 0 < d) : roundDiv tie n d ≤ n := by
  have hdiv := Nat.div_add_mod n d
  have hmod := Nat.mod_lt n hd
  have hq : n / d ≤ d * (n / d) := Nat.le_mul_of_pos_left _ hd
  have hstep : 1 ≤ n % d → n / d + 1 ≤ n := by intro h; omega
  simp only [roundDiv]
  split
  · exact hstep (by omega)
  · split
    · have h1 := hstep (by omega)
      cases tie
      · show n / d + n / d % 2 ≤ n
        omega
      · exact h1
    · omega

namespace Decimal

/-- A mantissa from its sign and its size. -/
def signed (negative : Bool) (n : Nat) : Int := if negative then -(n : Int) else n

@[simp] theorem natAbs_signed (negative : Bool) (n : Nat) : (signed negative n).natAbs = n := by
  cases negative <;> simp [signed]

/-- How many last digits have to go before the rest is below the capacity, if `most` of
    them are enough. -/
def surplusDigits? (n : Nat) : Nat → Option Nat
  | 0 => if n < capacity then some 0 else none
  | most + 1 =>
    if n < capacity then some 0 else (surplusDigits? (n / 10) most).map (· + 1)

/-- The decimal of a rounded mantissa. Rounding up can reach the capacity exactly, and
    then one more digit is dropped. -/
def settle (negative : Bool) (n scale : Nat) : Option Decimal :=
  if n < capacity then ofParts? (signed negative n) scale
  else
    match scale with
    | 0 => none
    | s + 1 => ofParts? (signed negative (roundDiv .toEven n 10)) s

/-- The decimal nearest to `x / 10 ^ scale` at the largest scale that can hold it, ties
    to even, or `none` when its integer part is too large. -/
def fit (x : Int) (scale : Nat) : Option Decimal :=
  (surplusDigits? x.natAbs scale).bind fun surplus =>
    let drop := Nat.max (scale - maxScale) surplus
    settle (x < 0) (roundDiv .toEven x.natAbs (tenPow drop)) (scale - drop)

/-- The value with at most `places` digits after the point, ties away from zero. -/
def roundTo (places : Nat) (d : Decimal) : Decimal :=
  if h : places < d.scale then
    ⟨signed d.isNegative (roundDiv .awayFromZero d.magnitude (tenPow (d.scale - places))), places,
      by
        rw [natAbs_signed]
        exact Nat.lt_of_le_of_lt (roundDiv_le _ _ _ (tenPow_pos _)) d.mantissa_lt,
      by have := d.scale_le; omega⟩
  else d

end Decimal

end Bello
