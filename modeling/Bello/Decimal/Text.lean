import Bello.Decimal.Basic

/- Decimals as text.

   They are written in plain digits, with a point only before a fraction. The plain form that
   is read is an optional sign and digits with at most one point; underscores may stand
   anywhere after the first digit. A fraction with more digits than can be held is rounded by
   the first digit that does not fit. The other form adds an exponent of ten. -/
namespace Bello.Decimal

/-! ## Writing -/

/-- The digits of a number in base ten, most significant first. -/
def digits (n : Nat) : List Char := Nat.toDigits 10 n

/-- The digits of a number, with leading zeros up to the given width. -/
def paddedDigits (width n : Nat) : List Char :=
  List.replicate (width - (digits n).length) '0' ++ digits n

/-- The characters of `mantissa / 10 ^ scale`, all `scale` fractional digits written. -/
def plainChars (mantissa : Int) (scale : Nat) : List Char :=
  let n := mantissa.natAbs
  let lead := if mantissa < 0 then ['-'] else []
  let fraction := if scale = 0 then [] else '.' :: paddedDigits scale (n % tenPow scale)
  lead ++ digits (n / tenPow scale) ++ fraction

/-- A decimal in plain digits, all its places written. -/
def plain (d : Decimal) : String := String.ofList (plainChars d.mantissa d.scale)

/-- The plain text of a decimal without trailing zeros, the same for all scales of one
    value. -/
def text (d : Decimal) : String := d.normalize.plain

/-- The text with at most `precision` fractional digits, rounded half away from zero. -/
def format (precision : Nat) (d : Decimal) : String := (d.roundTo precision).text

/-! ## Reading -/

def digitValue (c : Char) : Nat := c.toNat - '0'.toNat

/-- A digit or a separator between digits. -/
def isFiller (c : Char) : Bool := c.isDigit || c == '_'

/-- Rounds by the first digit that was left out, five and more up. A mantissa that
    reaches the capacity gives up its last digit, if that is a fractional one. -/
def roundByNext (mantissa places next : Nat) : Option (Nat × Nat) :=
  if next < 5 then some (mantissa, places)
  else if mantissa + 1 < capacity then some (mantissa + 1, places)
  else
    match places with
    | 0 => none
    | p + 1 => some ((mantissa + 1 + 4) / 10, p)

/-- The digits after the point, taken while they fit. -/
def readFraction (mantissa places : Nat) : List Char → Option (Nat × Nat)
  | [] => some (mantissa, places)
  | c :: cs =>
    if c = '_' then readFraction mantissa places cs
    else if c.isDigit then
      let next := mantissa * 10 + digitValue c
      if places = maxScale ∨ capacity ≤ next then
        if cs.all isFiller then roundByNext mantissa places (digitValue c) else none
      else readFraction next (places + 1) cs
    else none

/-- The digits before the point, once there was one. They all have to fit. -/
def readWhole (mantissa : Nat) : List Char → Option (Nat × Nat)
  | [] => some (mantissa, 0)
  | c :: cs =>
    if c = '_' then readWhole mantissa cs
    else if c = '.' then readFraction mantissa 0 cs
    else if c.isDigit then
      let next := mantissa * 10 + digitValue c
      if next < capacity then readWhole next cs else none
    else none

/-- Mantissa and places of an unsigned number: its first character is a digit, or a
    point with a digit after it. -/
def readUnsigned : List Char → Option (Nat × Nat)
  | '.' :: c :: cs => if c.isDigit then readFraction 0 0 (c :: cs) else none
  | c :: cs => if c.isDigit then readWhole 0 (c :: cs) else none
  | [] => none

/-- Takes an optional sign off the front; the flag says whether it was a minus. -/
def splitSign : List Char → Bool × List Char
  | '-' :: cs => (true, cs)
  | '+' :: cs => (false, cs)
  | cs => (false, cs)

/-- The plain form. -/
def readPlain (cs : List Char) : Option Decimal :=
  let (negative, rest) := splitSign cs
  (readUnsigned rest).bind fun (m, places) => ofParts? (signed negative m) places

/-- The value of a non-empty run of digits, an optional plus before it. -/
def readCount (cs : List Char) : Option Nat :=
  let ds := match cs with
    | '+' :: rest => rest
    | _ => cs
  if ds ≠ [] ∧ ds.all Char.isDigit then
    some (ds.foldl (fun n c => n * 10 + digitValue c) 0)
  else none

/-- Moves the point to the left. What falls off the end is rounded half away from zero. -/
def shiftDown (d : Decimal) (n : Nat) : Option Decimal :=
  if maxScale < n then none
  else if d.scale + n ≤ maxScale then ofParts? d.mantissa (d.scale + n)
  else
    ofParts? (signed d.isNegative
      (roundDiv .awayFromZero d.magnitude (tenPow (d.scale + n - maxScale)))) maxScale

/-- Moves the point to the right. -/
def shiftUp (d : Decimal) (n : Nat) : Option Decimal :=
  if n ≤ d.scale then ofParts? d.mantissa (d.scale - n)
  else if maxScale < n then none
  else ofParts? (d.mantissa * tenPow (n - d.scale)) 0

/-- Exponents stay below this bound. -/
def exponentLimit : Nat := Nat.pow 2 32

def isExponentMark (c : Char) : Bool := c == 'e' || c == 'E'

/-- The form with an exponent: a plain number, the mark, and a signed count of places. -/
def readScientific (cs : List Char) : Option Decimal :=
  match cs.dropWhile (!isExponentMark ·) with
  | [] => none
  | _ :: exponent => do
    let base ← readPlain (cs.takeWhile (!isExponentMark ·))
    match exponent with
    | '-' :: rest => do
      let n ← readCount rest
      if n < exponentLimit then base.shiftDown n else none
    | _ => do
      let n ← readCount exponent
      if n < exponentLimit then base.shiftUp n else none

/-- The decimal that a text denotes in the plain form. -/
def ofPlain? (s : String) : Option Decimal := readPlain s.toList

/-- The decimal that a text denotes, in either form. -/
def ofChars? (cs : List Char) : Option Decimal := (readPlain cs).or (readScientific cs)

def ofString? (s : String) : Option Decimal := ofChars? s.toList

end Bello.Decimal
