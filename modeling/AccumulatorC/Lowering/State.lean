import AccumulatorC.Machine.Assembly
import AccumulatorC.Machine.RegisterSet
import AccumulatorC.Text.Location

/-!
# Emitting code

Lowering emits lines and keeps three counts as it goes: the registers in use, the
bytes pushed above the frame, and the number of the next label of each family. It
also remembers the place it works on, for errors. A step is the sequence of what it does;
run from a state it gives its lines and the state after them, or the reason why it ends
early.
-/

namespace AccumulatorC

/-- Operations that the target machine has for bytes only. -/
inductive WideOp
  | multiplication
  | division
  | shifting
  deriving DecidableEq, Repr

/-- The name of an operation in a message. -/
def WideOp.text : WideOp → String
  | multiplication => "Multiplication"
  | division => "Division"
  | shifting => "Shifting"

/-- What keeps a program from being lowered. -/
inductive LowerError
  | exhausted (size : Nat) (held : RegSet)
  | unsupported (op : WideOp)
  | voidValue
  | notConstant
  deriving DecidableEq, Repr

/-- The text of an error. -/
def LowerError.message : LowerError → String
  | .exhausted size held => held.exhaustion size
  | .unsupported op => s!"{op.text} of 16-bit operands is not supported by this target"
  | .voidValue => "Expression has no value"
  | .notConstant => "Global initializer cannot be evaluated at compile time"

/-- How many labels of each family there are; a family that is not listed has
none. -/
structure LabelCounts where
  list : List (Family × Nat)

namespace LabelCounts

/-- No labels. -/
def empty : LabelCounts := ⟨[]⟩

/-- The labels of a family. -/
def count (counts : LabelCounts) (family : Family) : Nat := (counts.list.lookup family).getD 0

/-- One more label of a family. -/
def add (counts : LabelCounts) (family : Family) : LabelCounts :=
  ⟨(family, counts.count family + 1) :: counts.list.filter fun entry => entry.1 != family⟩

end LabelCounts

/-- What lowering keeps from line to line. -/
structure LowerState where
  /-- The registers in use. -/
  held : RegSet
  /-- Bytes pushed above the frame. -/
  depth : Nat
  labels : LabelCounts
  /-- The place that is lowered. -/
  here : Location

/-- What a step of lowering gives: a value, lines and the state after them. -/
structure Lowered (α : Type) where
  value : α
  code : List Line
  state : LowerState

/-- A step of lowering: what it does with the state and the lines, one thing after the other,
until it gives a value or ends early. -/
inductive Lowering (α : Type)
  | give (value : α)
  /-- Ends early; a diagnosis is about the place that is lowered. -/
  | stop (cause : Stop LowerError)
  | look (next : LowerState → Lowering α)
  | change (f : LowerState → LowerState) (next : Lowering α)
  | write (line : Line) (next : Lowering α)
  /-- Takes the first free register of at least so many bytes. -/
  | request (size : Nat) (next : Reg → Lowering α)

namespace Lowering

/-- One step after another. -/
def andThen {α β : Type} : Lowering α → (α → Lowering β) → Lowering β
  | give value, second => second value
  | stop cause, _ => stop cause
  | look next, second => look fun state => (next state).andThen second
  | change f next, second => change f (next.andThen second)
  | write line next, second => write line (next.andThen second)
  | request size next, second => request size fun r => (next r).andThen second

instance : Monad Lowering where
  pure := give
  bind := andThen

/-- What a step gives from a state. -/
def run {α : Type} : Lowering α → LowerState → Except (Stop (Located LowerError)) (Lowered α)
  | give value, state => .ok ⟨value, [], state⟩
  | stop cause, state => .error (cause.map (⟨·, state.here⟩))
  | look next, state => (next state).run state
  | change f next, state => next.run (f state)
  | write line next, state =>
      (next.run state).map fun done => { done with code := line :: done.code }
  | request size next, state =>
      match state.held.firstFree size with
      | some r => (next r).run { state with held := state.held.insert r }
      | none => .error (.diagnosis ⟨.exhausted size state.held, state.here⟩)

/-- The state. -/
def get : Lowering LowerState := look give

/-- Changes the state. -/
def modify (change : LowerState → LowerState) : Lowering Unit := .change change (give ())

/-- Fails at the place that is lowered. -/
def fail {α : Type} (cause : LowerError) : Lowering α := stop (.diagnosis cause)

/-- Breaks down where a calculation does. -/
def lift {α : Type} (result : Except Breakdown α) : Lowering α :=
  match result with
  | .ok value => give value
  | .error cause => stop (.breakdown cause)

/-- Emits a line. -/
def line (line : Line) : Lowering Unit := write line (give ())

/-- Emits an instruction. -/
def emit (instr : Instr) : Lowering Unit := line (.instr instr)

/-- Puts a label. -/
def mark (label : Label) : Lowering Unit := line (.label label)

/-- Moves to a place. -/
def visit (location : Location) : Lowering Unit := modify fun state => { state with here := location }

/-- The number of a new label. -/
def newLabel (family : Family) : Lowering Nat := do
  let state ← get
  modify fun state => { state with labels := state.labels.add family }
  return state.labels.count family

/-- Takes the first free register of at least so many bytes. -/
def allocate (size : Nat) : Lowering Reg := request size give

/-- Takes a register if it is free, and tells whether it was. -/
def claim (r : Reg) : Lowering Bool := do
  let (free, held) := (← get).held.claim r
  modify fun state => { state with held }
  return free

/-- Gives a register back. -/
def free (r : Reg) : Lowering Unit := modify fun state => { state with held := state.held.erase r }

/-- Counts bytes that are pushed. -/
def deepen (bytes : Nat) : Lowering Unit := do
  let depth ← lift (addBytes (← get).depth bytes)
  modify fun state => { state with depth }

/-- Counts bytes that leave the stack. -/
def shallow (bytes : Nat) : Lowering Unit := do
  let depth ← lift (takeBytes (← get).depth bytes)
  modify fun state => { state with depth }

/-- Pushes a register. -/
def push (r : Reg) : Lowering Unit := do
  deepen r.size
  emit (.push r)

/-- Pops a register. -/
def pop (r : Reg) : Lowering Unit := do
  emit (.pop r)
  shallow r.size

/-- Lowers the stack pointer, unless by nothing. -/
def reserve (bytes : Nat) : Lowering Unit := do
  if bytes > 0 then emit (.reserve bytes)

/-- Raises the stack pointer, unless by nothing. -/
def release (bytes : Nat) : Lowering Unit := do
  if bytes > 0 then emit (.release bytes)

end Lowering

end AccumulatorC
