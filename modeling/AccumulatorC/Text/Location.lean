import AccumulatorC.Breakdown

/-!
# Positions and locations

A position is a line and a column, both counted from one, and both have 32 bits. A
location is a half open range of positions in a named source, and remembers the lines of that
source that have been read, so that a diagnostic can show them later.
-/

namespace AccumulatorC

/-- A line and a column, both counted from one. -/
structure Position where
  line : Nat
  column : Nat
  deriving DecidableEq, Repr

namespace Position

/-- The first position of a source. -/
def first : Position := ⟨1, 1⟩

/-- The position one column further. -/
def advance (p : Position) : Position := ⟨p.line, p.column + 1⟩

/-- The position one column before, staying in the first column. -/
def back (p : Position) : Position := ⟨p.line, max (p.column - 1) 1⟩

/-- Distance between two tab stops. -/
def tabWidth : Nat := 4

/-- The first column after the next tab stop. -/
def tab (p : Position) : Position :=
  ⟨p.line, 1 + ((p.column - 1) / tabWidth + 1) * tabWidth⟩

/-- The position after a character: a tab moves to the next tab stop and every
other character takes one column. -/
def after (p : Position) (c : Char) : Position :=
  if c = '\t' then p.tab else p.advance

/-- The position, unless its line or its column is too large. -/
def checked (p : Position) : Except Breakdown Position :=
  if p.line < counterLimit ∧ p.column < counterLimit then .ok p else .error .farPosition

/-- A position is written as line and column. -/
def text (p : Position) : String := s!"{p.line}:{p.column}"

end Position

/-- A named source and the lines of it that have been read, in order. -/
structure Source where
  name : String
  lines : List String
  deriving DecidableEq, Repr

namespace Source

/-- The text of a line, counted from one; a line that has not been read is
empty. -/
def line (source : Source) (number : Nat) : String :=
  (source.lines[number - 1]?).getD ""

end Source

/-- A half open range of positions in one source. -/
structure Location where
  source : Source
  start : Position
  stop : Position
  deriving DecidableEq, Repr

namespace Location

/-- The location of the one character at a position. -/
def cell (source : Source) (p : Position) : Location := ⟨source, p, p.advance⟩

/-- The first character of a source of which nothing has been read, for
diagnostics that belong to no character. -/
def startOf (name : String) : Location := cell ⟨name, []⟩ .first

/-- From the start of one location to the end of another in the same source. -/
def span (first last : Location) : Location := ⟨first.source, first.start, last.stop⟩

/-- Locations are the same when they name the same range of a source of the same
name; how much of the source has been read does not matter. -/
instance : BEq Location where
  beq a b := a.source.name == b.source.name && a.start == b.start && a.stop == b.stop

/-- A location on several lines, or of a single character, is written as its
start; any other one as its first and last position. -/
def text (l : Location) : String :=
  if l.stop.line ≠ l.start.line ∨ l.stop = l.start.advance then
    s!"{l.source.name}:{l.start.text}"
  else
    s!"{l.source.name}:[{l.start.text}-{l.stop.back.text}]"

/-- The two ends of a location without its source. -/
def rangeText (l : Location) : String := s!"{l.start.text}-{l.stop.text}"

end Location

/-- A value together with the place it was read from. -/
structure Located (α : Type) where
  value : α
  location : Location
  deriving Repr

end AccumulatorC
