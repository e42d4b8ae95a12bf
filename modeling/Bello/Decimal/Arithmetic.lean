import Bello.Decimal.Basic

/- Arithmetic of decimals: sum, difference, product, remainder, quotient and power.

   Each result is the exact one, brought back within the bounds by `fit`; `none` says
   that no decimal is near enough. A zero operand leaves the other one as it is. -/
namespace Bello.Decimal

def add (a b : Decimal) : Option Decimal :=
  if a.isZero then some b
  else if b.isZero then some a
  else
    let s := Nat.max a.scale b.scale
    fit (a.mantissa * tenPow (s - a.scale) + b.mantissa * tenPow (s - b.scale)) s

def sub (a b : Decimal) : Option Decimal := a.add b.neg

def mul (a b : Decimal) : Option Decimal :=
  if a.isZero || b.isZero then some zero
  else fit (a.mantissa * b.mantissa) (a.scale + b.scale)

/-- The exact remainder of the truncated quotient, with the sign of the dividend. A
    dividend that is smaller than the divisor is left as it is. -/
def rem (a b : Decimal) : Option Decimal :=
  if a.abs.lt b.abs then some a
  else
    let s := Nat.max a.scale b.scale
    ofParts? ((a.mantissa * tenPow (s - a.scale)).tmod (b.mantissa * tenPow (s - b.scale))) s

/-! ## Division

   Long division draws the digits of the quotient in stretches of up to nine and looks
   at the remainder after each stretch. It stops when nothing remains or when no further
   digit can be held; then the quotient is rounded where it stopped. The place where it
   stops decides the scale of the result and so, with the trailing zeros that are left,
   what a power in binary makes of it. -/

/-! ### Where the digits stop -/

/-- How many digits, `most` at most, can follow the digits of `q` below the capacity. -/
def stretch (q : Nat) : Nat → Nat
  | 0 => 0
  | p + 1 => if q * tenPow (p + 1) < capacity then p + 1 else stretch q p

/-- The longest stretch of digits drawn at once. -/
def longestStretch : Nat := 9

/-- How many digits beyond the integer quotient `num / den` are drawn, when `k` are drawn
    already, `needed` are asked for and `most` can be held. Every stretch has a digit, so
    `most + 1` of them are enough. -/
def lastDigit (num den needed most : Nat) : Nat → Nat → Nat
  | 0, k => k
  | stretches + 1, k =>
    if num * tenPow k % den = 0 then Nat.max k needed
    else
      let p := stretch (num * tenPow k / den) (Nat.min longestStretch (most - k))
      if p = 0 then k
      else if num * tenPow (k + p) / den < capacity then
        lastDigit num den needed most stretches (k + p)
      else k + p - 1

/-! ### Trailing zeros -/

/-- Takes `count` zeros off the end of a number with `scale` places, if it has them. -/
def dropZeros (count : Nat) : Nat × Nat → Nat × Nat
  | (n, scale) =>
    if count ≤ scale ∧ n % tenPow count = 0 then (n / tenPow count, scale - count)
    else (n, scale)

/-- Takes eight zeros off a multiple of 2 ^ 32. -/
def dropEightZeros (p : Nat × Nat) : Nat × Nat :=
  if p.1 % Nat.pow 2 32 = 0 then dropZeros 8 p else p

/-- Takes zeros off the end in portions of eight, four, two and one. Only the portions of
    eight are repeated, and not every number gives them, so some zeros can stay. -/
def trimZeros (p : Nat × Nat) : Nat × Nat :=
  dropZeros 1 (dropZeros 2 (dropZeros 4
    (dropEightZeros (dropEightZeros (dropEightZeros p)))))

/-! ### The quotient -/

/-- The quotient for a divisor other than zero. A mantissa that divides evenly keeps the
    scale that the operands give; any other quotient is rounded at its last digit and
    trimmed. -/
def div (a b : Decimal) : Option Decimal :=
  if a.isZero then some zero
  else
    let num := a.magnitude
    let den := b.magnitude
    let needed := b.scale - a.scale
    let most := maxScale + b.scale - a.scale
    let k := lastDigit num den needed most (most + 1) 0
    if k < needed then none
    else
      let quotient := (roundDiv .toEven (num * tenPow k) den, a.scale + k - b.scale)
      let (n, scale) := if num % den = 0 then quotient else trimZeros quotient
      settle (a.isNegative != b.isNegative) n scale

/-! ## Binary floating point

   Powers that whole-number arithmetic cannot give are computed in binary. Both
   directions are step by step: the last digit of a power with a fractional exponent
   depends on every rounding on the way. -/

/-! ### From decimal to binary -/

/-- `accumulated * base ^ n` by repeated squaring, one rounding per multiplication. -/
def floatPower (base accumulated : Float) (n : Nat) : Float :=
  let next := if n % 2 = 1 then accumulated * base else accumulated
  if h : n / 2 = 0 then next else floatPower (base * base) next (n / 2)
termination_by n
decreasing_by omega

/-- The whole part and the fraction are converted apart, and their sum is rounded to
    the decimal's own number of places. -/
def toFloat (d : Decimal) : Float :=
  let size :=
    if d.scale = 0 then Float.ofNat d.magnitude
    else
      let unit := tenPow d.scale
      let whole := Float.ofNat (d.magnitude / unit)
      let fraction := Float.ofNat (d.magnitude % unit) / Float.ofNat unit
      if fraction == 0.0 then whole
      else
        let power := floatPower 10.0 1.0 d.scale
        ((whole + fraction) * power).round / power
  if d.isNegative then -size else size

/-! ### From binary to decimal -/

/-- Turns `b * 10 ^ t * 5 ^ n` into a product without fives: a factor of five is
    multiplied in while there is room, and otherwise paid for by halving. -/
def absorbFives : Nat → Nat → Int → Nat × Int
  | 0, b, t => (b, t)
  | n + 1, b, t =>
    if b % 2 = 1 ∧ 5 * b < capacity then absorbFives n (5 * b) t
    else absorbFives n (b / 2) (t + 1)

/-- Turns `b * 10 ^ t / 5 ^ n` into a quotient without fives: a fifth is a doubling and
    a lower power of ten while there is room, and otherwise a division. -/
def absorbFifths : Nat → Nat → Int → Option (Nat × Int)
  | 0, b, t => some (b, t)
  | n + 1, b, t =>
    if 2 * b < capacity then absorbFifths n (2 * b) (t - 1)
    else if 2 * t > n + 1 then none
    else absorbFifths n (b / 5) t

/-- Drops one digit, half up. -/
def dropDigit (b : Nat) : Nat := b / 10 + if 5 ≤ b % 10 then 1 else 0

/-- Drops the digits that no scale can hold. A number whose digits are used up is zero. -/
def dropBelowScale : Nat → Nat → Nat
  | 0, b => b
  | n + 1, b => if b / 10 = 0 then 0 else dropBelowScale n (dropDigit b)

/-- The value of the leading bit of a significand, which is not stored. -/
def leadingBit : Nat := Nat.pow 2 52

/-- Drops fractional digits until the mantissa is no finer than a binary significand. -/
def dropToSignificand : Nat → Nat → Nat × Nat
  | 0, b => (b, 0)
  | s + 1, b => if leadingBit ≤ b then dropToSignificand s (dropDigit b) else (b, s + 1)

/-- The decimal for `± significand * 2 ^ exponent`, without trailing zeros. -/
def ofBinary? (negative : Bool) (significand : Nat) (exponent : Int) : Option Decimal :=
  if significand = 0 then some zero
  else do
    let (b, t) ←
      if exponent < 0 then some (absorbFives exponent.natAbs significand exponent)
      else absorbFifths exponent.natAbs significand exponent
    if 0 < t then ofParts? (signed negative (b * tenPow t.toNat)) 0
    else
      let places := t.natAbs
      let b := dropBelowScale (places - maxScale) b
      let (b, s) := dropToSignificand (Nat.min places maxScale) b
      (ofParts? (signed negative b) s).map normalize

/-- The decimal for a finite binary number, or `none` when it is too large. -/
def ofFloat? (x : Float) : Option Decimal :=
  let bits : Nat := x.toBits.toNat
  let negative := bits / Nat.pow 2 63 == 1
  let field : Nat := bits / leadingBit % Nat.pow 2 11
  let fraction : Nat := bits % leadingBit
  if field = 0 then ofBinary? negative fraction (-1074)
  else ofBinary? negative (leadingBit + fraction) ((field : Int) - 1075)

/-! ## Powers

   A whole exponent below 2 ^ 32 is a matter of multiplication, each product rounded as
   every product is. A negative one takes the reciprocal of the power; when the power
   itself is too large, and for every other exponent, the power is computed in binary. -/

/-- Why a power has no value. -/
inductive PowerFault where
  | divisionByZero
  | overflow
  | undefined
deriving DecidableEq

/-- `accumulated * square ^ n` by repeated squaring. -/
def powFrom (accumulated square : Decimal) (n : Nat) : Option Decimal :=
  if h : n = 0 then some accumulated
  else do
    let next ← if n % 2 = 1 then accumulated.mul square else some accumulated
    if n / 2 = 0 then some next else powFrom next (← square.mul square) (n / 2)
termination_by n
decreasing_by omega

/-- The power by repeated squaring, or `none` when a product on the way is too large. -/
def powNat (base : Decimal) (n : Nat) : Option Decimal := powFrom one base n

/-- The power computed in binary. -/
def floatPow (base exponent : Decimal) : Except PowerFault Decimal :=
  let result := Float.pow base.toFloat exponent.toFloat
  if result.isNaN then .error .undefined
  else if result.isInf then .error .overflow
  else
    match ofFloat? result with
    | some d => .ok d
    | none => .error .overflow

/-- A value, or the fault of a result that is too large. -/
def orOverflow : Option Decimal → Except PowerFault Decimal
  | some d => .ok d
  | none => .error .overflow

/-- Whole exponents from this bound on are left to binary arithmetic. -/
def wholeLimit : Nat := Nat.pow 2 32

def pow (base exponent : Decimal) : Except PowerFault Decimal :=
  if exponent.isIntegral && exponent.whole < wholeLimit then
    if exponent.isNegative then
      if base.isZero then .error .divisionByZero
      else
        match base.powNat exponent.whole with
        | some value => orOverflow (if value.isZero then none else one.div value)
        | none => floatPow base exponent
    else orOverflow (base.powNat exponent.whole)
  else floatPow base exponent

end Bello.Decimal
