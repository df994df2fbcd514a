import Mathlib.Logic.Function.Basic
import Mathlib.Logic.Relation
import AccumulatorC.Proofs.Machine.Code
import AccumulatorC.Proofs.Machine.Registers

/-!
# The machine

The registers, the flags and the bytes of the machine, and what each line does to them. The low
byte of a pair stands at the lower address. A comparison tells whether the accumulator equals the
operand and whether it is greater; counting down tells whether there was anything left to count.
What other calculations leave in the flags is up to the machine.
-/

namespace AccumulatorC

/-! ## Bytes and words -/

/-- Two bytes as a word. -/
def word (high low : UInt8) : UInt16 := high.toUInt16 * 256 + low.toUInt16

def highByte (value : UInt16) : UInt8 := (value / 256).toUInt8

/-- What a register or a variable of so many bytes keeps of a value: two bytes keep all, and
anything else keeps the low byte. -/
def cut (size : Nat) (value : UInt16) : UInt16 :=
  if size = 2 then value else value % 256

/-- A pair is put together from its halves. -/
@[simp] theorem word_highByte (value : UInt16) : word (highByte value) value.toUInt8 = value := by
  apply UInt16.toNat_inj.mp
  have := value.toNat_lt
  simp [word, highByte]
  omega

@[simp] theorem highByte_word (high low : UInt8) : highByte (word high low) = high := by
  apply UInt8.toNat_inj.mp
  have := high.toNat_lt
  have := low.toNat_lt
  simp [word, highByte]
  omega

@[simp] theorem toUInt8_word (high low : UInt8) : (word high low).toUInt8 = low := by
  apply UInt8.toNat_inj.mp
  simp [word]

@[simp] theorem word_mod (high low : UInt8) : word high low % 256 = low.toUInt16 := by
  apply UInt16.toNat_inj.mp
  simp [word]

@[simp] theorem word_zero (low : UInt8) : word 0 low = low.toUInt16 := by
  simp [word]

theorem toNat_sub_one {value : UInt16} {n : Nat} (h : value.toNat = n + 1) :
    (value - 1).toNat = n := by
  have := value.toNat_lt
  simp [UInt16.toNat_sub]
  omega

@[simp] theorem cut_two (value : UInt16) : cut 2 value = value := rfl

@[simp] theorem cut_one (value : UInt16) : cut 1 value = value % 256 := rfl

theorem toNat_cut_one (value : UInt16) : (cut 1 value).toNat = value.toNat % 256 := by
  simp

/-- The low byte of a sum depends on the low byte of its operands only. -/
theorem cut_one_add (value byte : UInt16) : cut 1 (cut 1 value + byte) = cut 1 (value + byte) := by
  apply UInt16.toNat_inj.mp
  simp only [toNat_cut_one, UInt16.toNat_add]
  omega

@[simp] theorem cut_cut (size : Nat) (value : UInt16) :
    cut size (cut size value) = cut size value := by
  by_cases h : size = 2
  · simp only [cut, if_pos h]
  · simp only [cut, if_neg h]
    apply UInt16.toNat_inj.mp
    simp

@[simp] theorem cut_byte (size : Nat) (byte : UInt8) : cut size byte.toUInt16 = byte.toUInt16 := by
  unfold cut
  split <;> simp

/-- The value of so many bytes at an address, the low byte first. -/
def valueAt (memory : UInt16 → UInt8) (size : Nat) (x : UInt16) : UInt16 :=
  if size = 2 then word (memory (x + 1)) (memory x) else (memory x).toUInt16

/-- The memory with so many bytes of a value at an address, the low byte first. -/
def storeAt (memory : UInt16 → UInt8) (size : Nat) (x value : UInt16) : UInt16 → UInt8 :=
  if size = 2 then
    Function.update (Function.update memory x value.toUInt8) (x + 1) (highByte value)
  else Function.update memory x value.toUInt8

/-! ## Registers -/

/-- The byte registers. -/
structure Registers where
  a : UInt8
  b : UInt8
  c : UInt8
  d : UInt8
  e : UInt8

namespace Registers

/-- The content of a register; a byte is widened by zeros. -/
def read (registers : Registers) : Reg → UInt16
  | .a => registers.a.toUInt16
  | .b => registers.b.toUInt16
  | .c => registers.c.toUInt16
  | .d => registers.d.toUInt16
  | .e => registers.e.toUInt16
  | .bc => word registers.b registers.c
  | .de => word registers.d registers.e

/-- The registers with a new content of one of them; a byte keeps the low half. -/
def write (registers : Registers) (r : Reg) (value : UInt16) : Registers :=
  match r with
  | .a => { registers with a := value.toUInt8 }
  | .b => { registers with b := value.toUInt8 }
  | .c => { registers with c := value.toUInt8 }
  | .d => { registers with d := value.toUInt8 }
  | .e => { registers with e := value.toUInt8 }
  | .bc => { registers with b := highByte value, c := value.toUInt8 }
  | .de => { registers with d := highByte value, e := value.toUInt8 }

@[simp] theorem read_write_self (registers : Registers) (r : Reg) (value : UInt16) :
    (registers.write r value).read r = cut r.size value := by
  cases r <;> simp [read, write, Reg.size]

theorem read_write_of_apart {r s : Reg} (h : r.overlaps s = false) (registers : Registers)
    (value : UInt16) : (registers.write r value).read s = registers.read s := by
  cases r <;> cases s <;> first | exact absurd h (by decide) | simp only [read, write]

theorem cut_read {r : Reg} {size : Nat} (h : r.size = size) (registers : Registers) :
    cut size (registers.read r) = registers.read r := by
  subst h
  cases r <;> simp [read, Reg.size]

theorem read_copy (r s : Reg) (h : s.size = r.size) (registers : Registers) :
    (registers.write r (registers.read s)).read r = registers.read s := by
  rw [read_write_self]
  exact cut_read h registers

theorem toNat_read_lt {r : Reg} (h : r.size = 1) (registers : Registers) :
    (registers.read r).toNat < 256 := by
  rw [← cut_read h, toNat_cut_one]
  exact Nat.mod_lt _ (by decide)

/-- The content of a pair, half by half. -/
theorem read_pair {r : Reg} (h : r.size = 2) (registers : Registers) :
    registers.read r =
      word (registers.read r.high).toUInt8 (registers.read r.low).toUInt8 := by
  cases r <;> simp_all [Reg.size, read, Reg.high, Reg.low, Reg.halves]

theorem toNat_read_pair {r : Reg} (h : r.size = 2) (registers : Registers) :
    (registers.read r).toNat =
      (registers.read r.high).toNat * 256 + (registers.read r.low).toNat := by
  have hhigh := toNat_read_lt (Reg.size_high r) registers
  have hlow := toNat_read_lt (Reg.size_low r) registers
  rw [read_pair h, word]
  simp
  omega

theorem read_low (r : Reg) (registers : Registers) :
    registers.read r.low = cut 1 (registers.read r) := by
  cases r <;> simp [read, Reg.low, Reg.halves]

end Registers

/-! ## States of the machine -/

/-- What a comparison or counting down has told. -/
structure Flags where
  equal : Bool
  greater : Bool

def Flags.meets (flags : Flags) : Condition → Bool
  | .always => true
  | .equal => flags.equal
  | .notEqual => !flags.equal
  | .greater => flags.greater
  | .notGreater => !flags.greater

/-- What a called function brings back, whatever it does: the registers, the flags, and all bytes
besides those that it leaves alone. -/
structure Returned where
  registers : Registers
  flags : Flags
  memory : UInt16 → UInt8

structure Machine where
  registers : Registers
  flags : Flags
  sp : UInt16
  memory : UInt16 → UInt8
  /-- What the calls to come bring back, in their order. -/
  outcomes : List Returned

/-- What the assembler and the machine decide, and what the functions that are called keep to. -/
structure Platform where
  /-- Where a label is. -/
  address : Label → UInt16
  /-- The flags after a calculation that tells nothing. -/
  flags : Instr → Machine → Flags
  /-- Where a called function returns to. -/
  returnAddress : List Line → UInt16
  /-- Bytes of the arguments that a function takes. -/
  arguments : String → Nat
  /-- Where the stack begins; it grows towards lower addresses. -/
  base : UInt16

/-- Whether a function that is entered with a stack pointer leaves a byte alone: it does so with
the bytes of the stack above its return address and its arguments. -/
def Platform.leaves (platform : Platform) (function : String) (sp x : UInt16) : Bool :=
  let lowest := sp + 2 + .ofNat (platform.arguments function)
  x - lowest < platform.base - lowest

namespace Machine

def read (m : Machine) (r : Reg) : UInt16 := m.registers.read r

def write (m : Machine) (r : Reg) (value : UInt16) : Machine :=
  { m with registers := m.registers.write r value }

/-- Stores a byte. -/
def put (m : Machine) (x : UInt16) (byte : UInt8) : Machine :=
  { m with memory := Function.update m.memory x byte }

def pushByte (m : Machine) (byte : UInt8) : Machine :=
  { m with sp := m.sp - 1, memory := Function.update m.memory (m.sp - 1) byte }

/-- Pushes a word, the high byte first. -/
def pushWord (m : Machine) (value : UInt16) : Machine :=
  (m.pushByte (highByte value)).pushByte value.toUInt8

def push (m : Machine) (r : Reg) : Machine :=
  if r.size = 2 then m.pushWord (m.read r) else m.pushByte (m.read r).toUInt8

def pop (m : Machine) (r : Reg) : Machine :=
  { m.write r (valueAt m.memory r.size m.sp) with sp := m.sp + .ofNat r.size }

/-- The state in which a called function finds the machine. -/
def enter (m : Machine) (platform : Platform) (rest : List Line) : Machine :=
  m.pushWord (platform.returnAddress rest)

/-- The state after a function that was entered in this one has returned. -/
def comeBack (m : Machine) (platform : Platform) (function : String) (outcome : Returned)
    (others : List Returned) : Machine where
  registers := outcome.registers
  flags := outcome.flags
  sp := m.sp + 2
  memory x := if platform.leaves function m.sp x then m.memory x else outcome.memory x
  outcomes := others

end Machine

/-- The place of an operand in memory. -/
def Address.locate (platform : Platform) (m : Machine) : Address → UInt16
  | label name offset => platform.address (.symbol name) + .ofNat offset
  | stack offset => m.sp + .ofNat offset
  | indirect pair => m.read pair

def AccumulatorOperand.value (m : Machine) : AccumulatorOperand → UInt16
  | reg r => m.read r
  | number value => .ofNat value
  | lowBits count => .ofNat (2 ^ count - 1)

/-- As an operand a register has its own value. -/
@[simp] theorem AccumulatorOperand.value_reg (m : Machine) (r : Reg) :
    (reg r).value m = m.read r := rfl

/-- What an operation leaves in the accumulator. -/
def AccumulatorOp.apply : AccumulatorOp → UInt16 → UInt16 → UInt16
  | add, left, right => left + right
  | sub, left, right => left - right
  | and, left, right => left &&& right
  | or, left, right => left ||| right
  | compare, left, _ => left

def PairOp.apply : PairOp → UInt16 → UInt16 → UInt16
  | add, left, right => left + right
  | sub, left, right => left - right

/-- A byte, rotated left by one bit. -/
def rotated (byte : UInt8) : UInt8 := (byte <<< 1) ||| (byte >>> 7)

/-- The state after an instruction that goes on with the next line. -/
def Instr.effect (platform : Platform) (m : Machine) (i : Instr) : Option Machine :=
  match i with
  | setNumber r value => some (m.write r (.ofNat value))
  | setLabel r l => some (m.write r (platform.address l))
  | setAddress r address => some (m.write r (address.locate platform m))
  | copy r s => some (m.write r (m.read s))
  | load r address => some (m.write r (m.memory (address.locate platform m)).toUInt16)
  | store address r => some (m.put (address.locate platform m) (m.read r).toUInt8)
  | push r => some (m.push r)
  | pop r => some (m.pop r)
  | reserve bytes => some { m with sp := m.sp - .ofNat bytes, flags := platform.flags i m }
  | release bytes => some { m with sp := m.sp + .ofNat bytes, flags := platform.flags i m }
  | accumulate .compare operand =>
      some { m with flags := ⟨m.read .a == operand.value m, operand.value m < m.read .a⟩ }
  | accumulate op operand =>
      some { m.write .a (op.apply (m.read .a) (operand.value m)) with flags := platform.flags i m }
  | combine op r s =>
      some { m.write r (op.apply (m.read r) (m.read s)) with flags := platform.flags i m }
  | increment r => some { m.write r (m.read r + 1) with flags := platform.flags i m }
  | decrement r =>
      some { m.write r (m.read r - 1) with
        flags := ⟨(platform.flags i m).equal, m.read r != 0⟩ }
  | rotate =>
      some { m.write .a (rotated (m.read .a).toUInt8).toUInt16 with flags := platform.flags i m }
  | jump _ _ | skip _ _ | call _ | ret => none

/-! ## Running -/

/-- The lines after a label of a program. -/
def afterLabel : List Line → Label → Option (List Line)
  | [], _ => none
  | .label found :: rest, l => if found = l then some rest else afterLabel rest l
  | _ :: rest, l => afterLabel rest l

/-- One step of a program from the lines to come. A called function is passed over: it brings
back the next outcome. -/
def Platform.step (platform : Platform) (program : List Line) :
    List Line × Machine → Option (List Line × Machine)
  | (.label _ :: rest, m) => some (rest, m)
  | (.instr (.jump condition l) :: rest, m) =>
      if m.flags.meets condition then (afterLabel program l).map (·, m) else some (rest, m)
  | (.instr (.call function) :: rest, m) =>
      match m.outcomes with
      | outcome :: others =>
          some (rest, (m.enter platform rest).comeBack platform function outcome others)
      | [] => none
  | (.instr i :: rest, m) => (i.effect platform m).map (rest, ·)
  | (.data _ :: _, _) | ([], _) => none

/-- The machine gets from one place of a program to another. -/
def Platform.Reaches (platform : Platform) (program : List Line) :
    List Line × Machine → List Line × Machine → Prop :=
  Relation.ReflTransGen fun here there => platform.step program here = some there

/-- Run in any program around it whose labels are different, a code takes one state to another
and ends where it ends. -/
def Executes (platform : Platform) (code : List Line) (m after : Machine) : Prop :=
  ∀ before rest : List Line, (labels (before ++ (code ++ rest))).Nodup →
    platform.Reaches (before ++ (code ++ rest)) (code ++ rest, m) (rest, after)

end AccumulatorC
