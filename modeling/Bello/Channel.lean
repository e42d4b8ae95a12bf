import Bello.Decimal.Text
import Bello.Error
import Bello.Text

/- Where a program reads its numbers and writes them: inputs given beforehand, or lines of
   text with one number each. -/
namespace Bello

/-- Input and output of numbers. Both may fail, and both change the state. -/
class Channel (C : Type) where
  read : EStateM Error C Decimal
  write : Decimal → EStateM Error C Unit

/-- Inputs that are given beforehand, and the outputs so far, last first. -/
structure Script where
  inputs : List Decimal
  written : List Decimal
deriving DecidableEq

namespace Script

def ofInputs (inputs : List Decimal) : Script := ⟨inputs, []⟩

/-- The outputs in the order in which they were written. -/
def outputs (s : Script) : List Decimal := s.written.reverse

instance : Channel Script where
  read := fun s =>
    match s.inputs with
    | [] => .error Cause.inputExhausted.unplaced s
    | d :: rest => .ok d { s with inputs := rest }
  write := fun d s => .ok () { s with written := d :: s.written }

end Script

/-! ## Lines of text -/

/-- How numbers are written. -/
structure ConsoleStyle where
  /-- What stands before each number. -/
  lead : Option String
  /-- The largest number of fractional digits. -/
  precision : Nat
deriving DecidableEq

/-- By default each number is announced and has up to five fractional digits. -/
def ConsoleStyle.standard : ConsoleStyle := ⟨some "Result: ", 5⟩

/-- The bytes still to be read, the bytes written, and how many more can be written if
    there is a limit. -/
structure Console where
  pending : List UInt8
  written : ByteArray
  style : ConsoleStyle
  limit : Option Nat

namespace Console

def lineFeed : UInt8 := 10

/-- The first line with its end, and the rest. -/
def splitLine (bytes : List UInt8) : List UInt8 × List UInt8 :=
  let n := (bytes.takeWhile (· != lineFeed)).length + 1
  (bytes.take n, bytes.drop n)

/-- The number on a line. A blank line counts as the end of the input. -/
def lineValue (line : List UInt8) : Except Cause Decimal :=
  match String.fromUTF8? (ByteArray.mk line.toArray) with
  | none => .error (.channelFailure "stream did not contain valid UTF-8")
  | some s =>
    let cs := Text.trim s.toList
    if cs.isEmpty then .error .inputExhausted
    else
      match Decimal.ofChars? cs with
      | some d => .ok d
      | none => .error (.invalidInput (String.ofList cs))

/-- Reads one line, whatever is on it. -/
def read : EStateM Error Console Decimal := fun c =>
  match c.pending with
  | [] => .error Cause.inputExhausted.unplaced c
  | bytes =>
    let (line, rest) := splitLine bytes
    let c := { c with pending := rest }
    match lineValue line with
    | .ok d => .ok d c
    | .error cause => .error cause.unplaced c

/-- The line that announces a number. -/
def lineOf (style : ConsoleStyle) (d : Decimal) : String :=
  style.lead.getD "" ++ d.format style.precision ++ "\n"

/-- Writes one line. When it does not fit, the part that fits is written. -/
def write (d : Decimal) : EStateM Error Console Unit := fun c =>
  let bytes := (lineOf c.style d).toUTF8
  match c.limit with
  | none => .ok () { c with written := c.written ++ bytes }
  | some room =>
    if bytes.size ≤ room then
      .ok () { c with written := c.written ++ bytes, limit := some (room - bytes.size) }
    else
      .error (Cause.channelFailure "failed to write whole buffer").unplaced
        { c with written := c.written ++ bytes.extract 0 room, limit := some 0 }

instance : Channel Console := ⟨read, write⟩

end Console

end Bello
