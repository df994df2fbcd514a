import AccumulatorC.Breakdown
import AccumulatorC.Machine.Register

/-!
# Memory operands

An operand in memory is found by a label, from the stack pointer, or through a pair
that holds its address.
-/

namespace AccumulatorC

/-- The address of an operand in memory. -/
inductive Address
  | label (name : String) (offset : Nat)
  | stack (offset : Nat)
  | indirect (pair : Reg)
  deriving DecidableEq, Repr

namespace Address

/-- The address of the following byte. A pair is stepped by itself, so its operand
stays as it is. -/
def next : Address → Except Breakdown Address
  | label name offset => (addBytes offset 1).map (label name)
  | stack offset => (addBytes offset 1).map stack
  | indirect pair => .ok (indirect pair)

/-- The address as a value. -/
def value : Address → String
  | label name offset => if offset = 0 then name else s!"{name}+{offset}"
  | stack offset => s!"sp+{offset}"
  | indirect pair => pair.text

/-- The byte at the address. -/
def text (address : Address) : String := "[" ++ address.value ++ "]"

end Address

end AccumulatorC
