import AccumulatorC.Text.Location

/-!
# Source lines and their characters

A source is a sequence of lines. A line is text when its bytes are UTF-8 and is
unreadable otherwise; reading goes on after an unreadable line, which keeps its
number but leaves nothing to show. Every readable line stands for its characters
followed by a newline, each character with its location.
-/

namespace AccumulatorC

/-- Closes a line whose bytes have been collected in reverse, dropping the
carriage return just before its newline. -/
def closeLine : List UInt8 → List UInt8
  | 13 :: reversed => reversed.reverse
  | reversed => reversed.reverse

/-- Cuts bytes at newlines, given the reversed bytes of the line begun. A last
line needs no newline, and nothing after the last newline is no line. -/
def cutLines (reversed : List UInt8) : List UInt8 → List (List UInt8)
  | [] => if reversed.isEmpty then [] else [reversed.reverse]
  | byte :: rest =>
      if byte = 10 then closeLine reversed :: cutLines [] rest
      else cutLines (byte :: reversed) rest

/-- A line of bytes as text, or nothing when the bytes are not UTF-8. -/
def decodeLine (bytes : List UInt8) : Option String :=
  String.fromUTF8? bytes.toByteArray

/-- The lines of a source. -/
def readLines (bytes : ByteArray) : List (Option String) :=
  (cutLines [] bytes.data.toList).map decodeLine

/-- The position after characters that start at a position. -/
def Position.afterAll (p : Position) (chars : List Char) : Position := chars.foldl Position.after p

/-- Gives each character its place, starting from a position. -/
def locate (source : Source) : Position → List Char → List (Located Char)
  | _, [] => []
  | p, c :: rest => ⟨c, .cell source p⟩ :: locate source (p.after c) rest

/-- A source being read: its name and history, and the characters of each line, the
closing newline included. -/
structure Reading where
  source : Source
  lines : List (Option (List Char))

namespace Reading

/-- Reads lines under a name; the readable ones become the source's history. -/
def ofLines (name : String) (lines : List (Option String)) : Reading :=
  ⟨⟨name, lines.filterMap id⟩, lines.map (·.map fun text => text.toList ++ ['\n'])⟩

/-- Reads all of a source. -/
def ofBytes (name : String) (bytes : ByteArray) : Reading := ofLines name (readLines bytes)

/-- Where the source starts. -/
def start (reading : Reading) : Location := .cell reading.source .first

/-- The located characters of lines, given the number of the first one; an unreadable
line stands for nothing but itself. -/
def charactersFrom (source : Source) : Nat → List (Option (List Char)) → List (Option (Located Char))
  | _, [] => []
  | number, none :: rest => none :: charactersFrom source (number + 1) rest
  | number, some line :: rest =>
      (locate source ⟨number, 1⟩ line).map some ++ charactersFrom source (number + 1) rest

/-- The characters in order, with nothing in the place of an unreadable line. -/
def characters (reading : Reading) : List (Option (Located Char)) :=
  charactersFrom reading.source 1 reading.lines

/-- The characters of a line with their places, while all numbers have room. -/
def locateChecked (source : Source) :
    Position → List Char → Except Breakdown (List (Located Char))
  | _, [] => .ok []
  | p, c :: rest => do
      let next ← (p.after c).checked
      let stop ← p.advance.checked
      return ⟨c, ⟨source, p, stop⟩⟩ :: (← locateChecked source next rest)

/-- The located characters of lines, given how many come before them; that is counted
with 32 bits, and the number of a readable line must not leave them. -/
def streamFrom (source : Source) :
    Nat → List (Option (List Char)) → Except Breakdown (List (Option (Located Char)))
  | _, [] => .ok []
  | before, none :: rest => return none :: (← streamFrom source (before + 1) rest)
  | before, some line :: rest => do
      let start ← (Position.mk (before % counterLimit + 1) 1).checked
      let own ← locateChecked source start line
      return own.map some ++ (← streamFrom source (before + 1) rest)

/-- The characters in order as they are read. Where this breaks down there is no end to
the source that anyone sees; otherwise they are `characters`. -/
def stream (reading : Reading) : Except Breakdown (List (Option (Located Char))) :=
  streamFrom reading.source 0 reading.lines

/-- What keeps a source from being read to its end. -/
def obstacle? (reading : Reading) : Option Breakdown :=
  match reading.stream with
  | .ok _ => none
  | .error cause => some cause

/-- The lines that the first `count` characters of a source reach, an unreadable
line counting as one character. -/
def reached : Nat → List (Option String) → List (Option String)
  | 0, _ => []
  | _, [] => []
  | count, line :: rest =>
      line :: reached (count - (line.elim 1 fun text => text.length + 1)) rest

end Reading

end AccumulatorC
