/-!
# Breakdowns

Byte counts live in an address space of 65536 bytes, and lines, columns and labels
are counted with 32 bits. A compilation whose counts leave these bounds breaks down
without a diagnosis, and so does one that is handed a tree or a scope number that no
program has, whose diagnosis cannot be drawn, or that never has done with reading.
-/

namespace AccumulatorC

/-- How a compilation can break down. -/
inductive Breakdown
  /-- A byte count grew beyond the address space. -/
  | overflow
  /-- A byte count fell below zero. -/
  | underflow
  /-- A scope number that was never handed out. -/
  | unknownScope
  /-- A tree that no program text has. -/
  | malformedTree
  /-- Bytes were left on the stack by a statement. -/
  | unbalancedStack
  /-- What a diagnosis marks lies too far to the right or is too wide. -/
  | overlongMarks
  /-- The number of a line or a column grew beyond 32 bits. -/
  | farPosition
  /-- The number of a label grew beyond 32 bits. -/
  | labelOverflow
  /-- A directory is read, and every attempt fails and is followed by the next one. -/
  | endless
  deriving DecidableEq, Repr

/-- What is said about a breakdown. -/
def Breakdown.message : Breakdown → String
  | .overflow => "The program does not fit into the address space"
  | .underflow => "More bytes were released than reserved"
  | .unknownScope => "A scope is used that was never entered"
  | .malformedTree => "An expression has no meaning in its place"
  | .unbalancedStack => "A statement leaves bytes on the stack"
  | .overlongMarks => "A diagnosis is too wide to be shown"
  | .farPosition => "A source has too many lines or columns"
  | .labelOverflow => "The program needs too many labels"
  | .endless => "Reading a directory comes to no end"

/-- A stage ends early with a diagnosis or by breaking down. -/
inductive Stop (ε : Type)
  | diagnosis (cause : ε)
  | breakdown (cause : Breakdown)
  deriving DecidableEq, Repr

/-- Changes the diagnosis. -/
def Stop.map {ε δ : Type} (f : ε → δ) : Stop ε → Stop δ
  | .diagnosis cause => .diagnosis (f cause)
  | .breakdown cause => .breakdown cause

/-- A stage that can only break down, as part of one that can also be diagnosed. -/
def Breakdown.lift {ε α : Type} : Except Breakdown α → Except (Stop ε) α
  | .ok value => .ok value
  | .error cause => .error (.breakdown cause)

/-- Number of addresses. -/
def addressLimit : Nat := 65536

/-- The first number that 32 bits do not hold. -/
def counterLimit : Nat := 4294967296

/-- Adds byte counts within the address space. -/
def addBytes (a b : Nat) : Except Breakdown Nat :=
  if a + b < addressLimit then .ok (a + b) else .error .overflow

/-- Takes a byte count away from another. -/
def takeBytes (a b : Nat) : Except Breakdown Nat :=
  if b ≤ a then .ok (a - b) else .error .underflow

/-- Adds up byte counts within the address space, from the first one on. -/
def sumBytes (counts : List Nat) : Except Breakdown Nat := counts.foldlM addBytes 0

end AccumulatorC
