import AccumulatorC.Lowering.State
import AccumulatorC.Program

/-!
# Operations on registers

Operators whose operands are in registers. The machine calculates with bytes in the
accumulator only, so an operand that lives elsewhere is brought there and back, and
an accumulator in use is saved on the stack meanwhile.
-/

namespace AccumulatorC.Lowering

/-- Runs a step with the accumulator at its disposal. One that is in use is pushed
before and popped after. -/
def preservingAccumulator (step : Lowering Unit) : Lowering Unit := do
  if ← claim .a then
    step
    free .a
  else
    push .a
    step
    pop .a

/-- Runs a step with the content of a register in the accumulator and puts the
result back. -/
def throughAccumulator (r : Reg) (step : Lowering Unit) : Lowering Unit :=
  if r = .a then step
  else preservingAccumulator do
    emit (.copy .a r)
    step
    emit (.copy r .a)

/-- Runs a step with the left operand in the accumulator, given the register of the
right one. The result replaces the left operand, and the right one is given back.
A right operand that is in the accumulator itself moves out of the way first. -/
def accumulate (left right : Reg) (step : Reg → Lowering Unit) : Lowering Reg := do
  let right ←
    if right = .a ∧ left ≠ .a then do
      let moved ← allocate 1
      emit (.copy moved .a)
      free .a
      pure moved
    else pure right
  throughAccumulator left (step right)
  free right
  return left

/-- Brings a value to a size. The high half of a widened value is zero, and a
narrowed one keeps its low half. -/
def coerce (r : Reg) (size : Nat) : Lowering Reg :=
  if r.size = 1 ∧ size = 2 then do
    free r
    let wide ← allocate 2
    if wide.low ≠ r then emit (.copy wide.low r)
    emit (.setNumber wide.high 0)
    return wide
  else if r.size = 2 ∧ size = 1 then do
    free r
    let _ ← claim r.low
    return r.low
  else return r

/-- How a comparison becomes a truth value: its labels, and where two jumps after it
lead. When neither is taken the comparison holds. -/
structure Comparison where
  family : Family
  first : Condition × Role
  second : Condition × Role

/-- The comparison that an operator makes. -/
def comparison? : BinaryOp → Option Comparison
  | .equal => some ⟨.equal, (.equal, .yes), (.always, .no)⟩
  | .notEqual => some ⟨.notEqual, (.equal, .no), (.always, .yes)⟩
  | .less => some ⟨.less, (.greater, .no), (.equal, .no)⟩
  | .lessOrEqual => some ⟨.lessOrEqual, (.greater, .no), (.always, .yes)⟩
  | .greater => some ⟨.greater, (.greater, .yes), (.always, .no)⟩
  | .greaterOrEqual => some ⟨.greaterOrEqual, (.equal, .yes), (.notGreater, .no)⟩
  | _ => none

/-- Makes a truth value in the accumulator from the outcome of a comparison. -/
def decideTruth (comparison : Comparison) (n : Nat) : Lowering Unit := do
  let label role := Label.inner comparison.family role n
  emit (.jump comparison.first.1 (label comparison.first.2))
  emit (.jump comparison.second.1 (label comparison.second.2))
  mark (label .yes)
  emit (.setNumber .a 1)
  emit (.jump .always (label .exit))
  mark (label .no)
  emit (.setNumber .a 0)
  mark (label .exit)

/-- Compares two registers of one size. Of pairs the low halves are compared only
when the high ones are equal. -/
def compare (comparison : Comparison) (left right : Reg) : Lowering Reg := do
  let n ← newLabel comparison.family
  if left.size = 1 then
    accumulate left right fun right => do
      emit (.accumulate .compare (.reg right))
      decideTruth comparison n
  else
    preservingAccumulator do
      let decision := Label.inner comparison.family .decision n
      emit (.copy .a left.high)
      emit (.accumulate .compare (.reg right.high))
      emit (.jump .notEqual decision)
      emit (.copy .a left.low)
      emit (.accumulate .compare (.reg right.low))
      mark decision
      decideTruth comparison n
      emit (.copy left.low .a)
      emit (.setNumber left.high 0)
    free right
    return left

/-- Rotates a byte left, bit by bit, as often as the count says modulo 8; to the
right, as often as is missing to 8. -/
def shift (right : Bool) (value count : Reg) : Lowering Reg := do
  let family : Family := if right then .shiftRight else .shiftLeft
  let n ← newLabel family
  accumulate value count fun count => do
    push .a
    if right then
      emit (.setNumber .a 8)
      emit (.accumulate .sub (.reg count))
    else emit (.copy .a count)
    emit (.accumulate .and (.lowBits 3))
    emit (.copy count .a)
    pop .a
    mark (.inner family .repetition n)
    emit (.decrement count)
    emit (.jump .notGreater (.inner family .exit n))
    emit .rotate
    emit (.jump .always (.inner family .repetition n))
    mark (.inner family .exit n)

/-- Adds the left operand to nothing as often as the right one says. -/
def multiply (left right : Reg) : Lowering Reg := do
  let n ← newLabel .multiply
  accumulate left right fun count => do
    let multiplicand ← allocate 1
    emit (.copy multiplicand .a)
    emit (.setNumber .a 0)
    mark (.inner .multiply .repetition n)
    emit (.decrement count)
    emit (.jump .notGreater (.inner .multiply .exit n))
    emit (.accumulate .add (.reg multiplicand))
    emit (.jump .always (.inner .multiply .repetition n))
    mark (.inner .multiply .exit n)
    free multiplicand

/-- Counts how often the right operand can be taken away from the left one. -/
def divide (left right : Reg) : Lowering Reg := do
  let n ← newLabel .divide
  accumulate left right fun divisor => do
    let quotient ← allocate 1
    emit (.setNumber quotient 0)
    mark (.inner .divide .repetition n)
    emit (.accumulate .compare (.reg divisor))
    emit (.jump .equal (.inner .divide .step n))
    emit (.jump .notGreater (.inner .divide .exit n))
    mark (.inner .divide .step n)
    emit (.accumulate .sub (.reg divisor))
    emit (.increment quotient)
    emit (.jump .always (.inner .divide .repetition n))
    mark (.inner .divide .exit n)
    emit (.copy .a quotient)
    free quotient

/-- An operation on bytes that is a single instruction. -/
def simple (op : AccumulatorOp) (left right : Reg) : Lowering Reg :=
  accumulate left right fun right => emit (.accumulate op (.reg right))

/-- An operation on pairs that is a single instruction. -/
def combine (op : PairOp) (left right : Reg) : Lowering Reg := do
  emit (.combine op left right)
  free right
  return left

/-- An operation on pairs that works on each half by itself. -/
def halfwise (op : AccumulatorOp) (left right : Reg) : Lowering Reg := do
  throughAccumulator left.low (emit (.accumulate op (.reg right.low)))
  throughAccumulator left.high (emit (.accumulate op (.reg right.high)))
  free right
  return left

/-- An operator on two bytes that is no comparison. -/
def operateBytes (op : BinaryOp) (left right : Reg) : Lowering Reg :=
  match op with
  | .add => simple .add left right
  | .sub => simple .sub left right
  | .and => simple .and left right
  | .or => simple .or left right
  | .mul => multiply left right
  | .div => divide left right
  | .shiftLeft => shift false left right
  | .shiftRight => shift true left right
  | _ => lift (.error .malformedTree)

/-- An operator on two pairs that is no comparison. -/
def operatePairs (op : BinaryOp) (left right : Reg) : Lowering Reg :=
  match op with
  | .add => combine .add left right
  | .sub => combine .sub left right
  | .and => halfwise .and left right
  | .or => halfwise .or left right
  | .mul => fail (.unsupported .multiplication)
  | .div => fail (.unsupported .division)
  | .shiftLeft | .shiftRight => fail (.unsupported .shifting)
  | _ => lift (.error .malformedTree)

/-- An operator on two registers of the given size. The result is in the left one,
and the right one is given back. -/
def operate (op : BinaryOp) (size : Nat) (left right : Reg) : Lowering Reg :=
  match comparison? op with
  | some comparison => compare comparison left right
  | none => if size = 2 then operatePairs op left right else operateBytes op left right

/-- Takes a value away from zero. -/
def negate (value : Reg) : Lowering Reg := do
  let zero ← allocate value.size
  emit (.setNumber zero 0)
  if value.size = 2 then combine .sub zero value else simple .sub zero value

/-- Steps a register up or down several times. -/
def stepBy (step : Reg → Instr) (r : Reg) : Nat → Lowering Unit
  | 0 => pure ()
  | count + 1 => do
      emit (step r)
      stepBy step r count

/-- Steps a pair that holds an address to the next byte. -/
def stepPair (address : Address) : Lowering Unit :=
  match address with
  | .indirect pair => emit (.increment pair)
  | _ => pure ()

/-- Loads a register, the low byte first. -/
def load (r : Reg) (address : Address) : Lowering Unit := do
  match r.halves with
  | none => emit (.load r address)
  | some (high, low) =>
      emit (.load low address)
      stepPair address
      emit (.load high (← lift address.next))

/-- Stores a register, the low byte first. -/
def store (address : Address) (r : Reg) : Lowering Unit := do
  match r.halves with
  | none => emit (.store address r)
  | some (high, low) =>
      emit (.store address low)
      stepPair address
      emit (.store (← lift address.next) high)

/-- Puts a string between instructions and gives its label. -/
def stringData (inside : Bool) (bytes : List UInt8) : Lowering Label := do
  let n ← newLabel .string
  emit (.jump .always (.stringEnd inside n))
  mark (.string inside n)
  line (.data (.text bytes))
  mark (.stringEnd inside n)
  return .string inside n

end AccumulatorC.Lowering
