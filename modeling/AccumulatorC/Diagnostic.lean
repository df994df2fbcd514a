import AccumulatorC.Breakdown
import AccumulatorC.Text.Location

/-!
# Diagnostics

A diagnostic shows a message, the place it is about, the lines of that place and a
mark under what is meant. Diagnostics of one kind are shown together and counted.
-/

namespace AccumulatorC

/-- So many copies of a character. -/
def repeated (count : Nat) (c : Char) : String := String.ofList (List.replicate count c)

/-- Blanks before a text up to a width. -/
def padLeft (width : Nat) (text : String) : String := repeated (width - text.length) ' ' ++ text

namespace Location

/-- The numbers of the lines of a location. -/
def lineNumbers (l : Location) : List Nat :=
  (List.range (l.stop.line + 1 - l.start.line)).map (· + l.start.line)

/-- Width of the margin that holds the line numbers. -/
def margin (l : Location) : Nat := (toString l.stop.line).length

/-- The first and the last marked column. On a single line they are the ends in
either order; of several lines only the first column is marked. -/
def marked (l : Location) : Nat × Nat :=
  let last := max (l.stop.column - 1) 1
  if l.stop.line = l.start.line then (min l.start.column last, max l.start.column last)
  else (l.start.column, l.start.column)

/-- The most blanks, and the most marks, that a row of marks has room for. -/
def markLimit : Nat := 65535

/-- Whether there is room for the marks. -/
def isDrawable (l : Location) : Bool :=
  let (first, last) := l.marked
  first - 1 ≤ markLimit && last - first + 1 ≤ markLimit

/-- A line with its number. -/
def sourceRow (l : Location) (number : Nat) : String :=
  padLeft l.margin (toString number) ++ " | " ++ l.source.line number

/-- The row of marks below the lines. -/
def markRow (l : Location) : String :=
  let (first, last) := l.marked
  repeated l.margin ' ' ++ " | " ++ repeated (first - 1) ' ' ++ repeated (last - first + 1) '^'

/-- The rows that show a location. -/
def excerptRows (l : Location) : List String :=
  [" --> " ++ l.text, repeated l.margin ' ' ++ " |"] ++ l.lineNumbers.map l.sourceRow ++ [l.markRow]

/-- The lines of a location with its name above and marks below. -/
def excerpt (l : Location) : String := String.join (l.excerptRows.map (· ++ "\n"))

end Location

/-- Messages of one kind with their places, in order. -/
structure Diagnostics where
  kind : String
  entries : List (Located String)

namespace Diagnostics

/-- Errors with their places. -/
def errors (entries : List (Located String)) : Diagnostics := ⟨"error", entries⟩

/-- Warnings with their places. -/
def warnings (entries : List (Located String)) : Diagnostics := ⟨"warning", entries⟩

/-- Number of messages. -/
def count (diagnostics : Diagnostics) : Nat := diagnostics.entries.length

/-- One message with its excerpt. -/
def entryText (kind : String) (entry : Located String) : String :=
  kind ++ ": " ++ entry.value ++ "\n" ++ entry.location.excerpt ++ "\n"

/-- The closing line. Only warnings leave the build standing. -/
def summary (diagnostics : Diagnostics) : String :=
  let plural := if diagnostics.count = 1 then "" else "s"
  let counted := s!"{diagnostics.count} {diagnostics.kind}{plural}"
  if diagnostics.kind = "warning" then counted ++ " generated\n"
  else "Build failed with " ++ counted ++ "\n"

/-- All messages with a closing line, or a line that says there are none. -/
def text (diagnostics : Diagnostics) : String :=
  if diagnostics.entries.isEmpty then s!"No {diagnostics.kind}s were reported\n"
  else String.join (diagnostics.entries.map (entryText diagnostics.kind)) ++ diagnostics.summary

/-- The text, if there is room for all marks in it. -/
def rendered (diagnostics : Diagnostics) : Except Breakdown String :=
  if diagnostics.entries.all (·.location.isDrawable) then .ok diagnostics.text
  else .error .overlongMarks

end Diagnostics

end AccumulatorC
