/-!
# Registers

The target machine has five byte registers, `a` to `e`. The pairs `bc` and `de`
hold 16 bits, the first register of the name being the high half. Arithmetic works
on the accumulator `a`, which belongs to no pair.
-/

namespace AccumulatorC

/-- A byte register or a pair. -/
inductive Reg
  | a
  | b
  | c
  | d
  | e
  | bc
  | de
  deriving DecidableEq, Repr

namespace Reg

/-- All registers in the order in which they are given out. -/
def file : List Reg := [a, b, c, d, e, bc, de]

/-- The name of a register. -/
def text : Reg → String
  | a => "a"
  | b => "b"
  | c => "c"
  | d => "d"
  | e => "e"
  | bc => "bc"
  | de => "de"

/-- Bytes that a register holds. -/
def size : Reg → Nat
  | bc | de => 2
  | _ => 1

/-- The high and the low half of a pair. -/
def halves : Reg → Option (Reg × Reg)
  | bc => some (b, c)
  | de => some (d, e)
  | _ => none

/-- The pair of which a register is a half. -/
def pair : Reg → Option Reg
  | b | c => some bc
  | d | e => some de
  | _ => none

/-- The high half of a pair; a byte register is its own. -/
def high (r : Reg) : Reg := r.halves.elim r (·.1)

/-- The low half of a pair; a byte register is its own. -/
def low (r : Reg) : Reg := r.halves.elim r (·.2)

/-- Where a function leaves a result of so many bytes. -/
def result (size : Nat) : Reg := if size = 2 then bc else a

/-- Whether two registers share a byte. -/
def overlaps (r s : Reg) : Bool := r = s || r.pair = some s || s.pair = some r

end Reg

end AccumulatorC
