/- Places in a source: spans of characters, and lines and columns. -/
namespace Bello

/-- A range of characters of a source whose line endings are normalized; `stop` is the
    offset after the last one. -/
structure Span where
  start : Nat
  stop : Nat
deriving DecidableEq, Inhabited

namespace Span

/-- The empty span at an offset. -/
def point (offset : Nat) : Span := ⟨offset, offset⟩

/-- The least span that holds both. -/
def merge (a b : Span) : Span := ⟨min a.start b.start, max a.stop b.stop⟩

def length (s : Span) : Nat := s.stop - s.start

def isEmpty (s : Span) : Bool := s.start == s.stop

end Span

/-- A line and a column, both counted from one. -/
structure Position where
  line : Nat
  column : Nat
deriving DecidableEq

namespace Position

def first : Position := ⟨1, 1⟩

def nextLine (p : Position) : Position := ⟨p.line + 1, 1⟩

def nextColumn (p : Position) : Position := ⟨p.line, p.column + 1⟩

/-- The position `n` characters further, or at the end of the text if that comes first.
    The text is the raw source, in which one line ending can be two characters. -/
def advance : Nat → Position → List Char → Position
  | 0, p, _ => p
  | _ + 1, p, [] => p
  | n + 1, p, '\r' :: '\n' :: cs => advance n p.nextLine cs
  | n + 1, p, '\r' :: cs => advance n p.nextLine cs
  | n + 1, p, '\n' :: cs => advance n p.nextLine cs
  | n + 1, p, _ :: cs => advance n p.nextColumn cs

end Position

/-- Where a span starts in the source that it belongs to. -/
def Span.position (s : Span) (source : String) : Position :=
  Position.advance s.start .first source.toList

end Bello
