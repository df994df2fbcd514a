import AccumulatorC.Machine.Register

/-!
# Register sets and allocation

Registers are given out in a fixed order, the first free one that is large enough.
A register is free when nothing that shares a byte with it is held. Nothing is ever
moved to memory to make room.
-/

namespace AccumulatorC

/-- A set of registers. -/
structure RegSet where
  a : Bool
  b : Bool
  c : Bool
  d : Bool
  e : Bool
  bc : Bool
  de : Bool
  deriving DecidableEq, Repr

namespace RegSet

/-- No register. -/
def empty : RegSet := ⟨false, false, false, false, false, false, false⟩

/-- Whether a register is in the set. -/
def contains (set : RegSet) : Reg → Bool
  | .a => set.a
  | .b => set.b
  | .c => set.c
  | .d => set.d
  | .e => set.e
  | .bc => set.bc
  | .de => set.de

/-- The set with a register put in or left out. -/
def update (set : RegSet) (r : Reg) (present : Bool) : RegSet :=
  match r with
  | .a => { set with a := present }
  | .b => { set with b := present }
  | .c => { set with c := present }
  | .d => { set with d := present }
  | .e => { set with e := present }
  | .bc => { set with bc := present }
  | .de => { set with de := present }

/-- The set with a register. -/
def insert (set : RegSet) (r : Reg) : RegSet := set.update r true

/-- The set without a register. -/
def erase (set : RegSet) (r : Reg) : RegSet := set.update r false

/-- An update changes what a set says of one register only. -/
theorem contains_update (set : RegSet) (r s : Reg) (present : Bool) :
    (set.update r present).contains s = if s = r then present else set.contains s := by
  cases r <;> cases s <;> rfl

/-- The registers of the set, in the order of the file. -/
def toList (set : RegSet) : List Reg := Reg.file.filter set.contains

/-- Whether nothing that shares a byte with a register is in the set. -/
def isFree (set : RegSet) (r : Reg) : Bool := Reg.file.all fun s => !(set.contains s && r.overlaps s)

/-- The first free register of at least so many bytes. -/
def firstFree (set : RegSet) (size : Nat) : Option Reg :=
  Reg.file.find? fun r => decide (size ≤ r.size) && set.isFree r

/-- Takes a register if it is free, and tells whether it was. -/
def claim (set : RegSet) (r : Reg) : Bool × RegSet :=
  if set.isFree r then (true, set.insert r) else (false, set)

/-- The names of the registers, or a word for none of them. -/
def text (set : RegSet) : String :=
  match set.toList with
  | [] => "none"
  | registers => ", ".intercalate (registers.map Reg.text)

/-- What is said when no free register has so many bytes. -/
def exhaustion (held : RegSet) (size : Nat) : String :=
  s!"Register exhaustion: no free register of {size} bytes (held: {held.text})"

/-- The value of a register's bit in a mask: the registers in the order of the file
are the powers of two. -/
def bit (r : Reg) : Nat := 1 <<< Reg.file.idxOf r

/-- The set as a mask. -/
def mask (set : RegSet) : Nat := set.toList.foldr (bit · + ·) 0

/-- The set with a mask, whose bits must all be those of registers. -/
def ofMask? (mask : Nat) : Option RegSet :=
  if mask < 1 <<< Reg.file.length then
    some (Reg.file.foldl (fun set r => set.update r (mask / bit r % 2 = 1)) empty)
  else none

end RegSet

end AccumulatorC
