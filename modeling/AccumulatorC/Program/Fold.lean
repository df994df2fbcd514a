import AccumulatorC.Program

/-!
# Constant expressions

The value of an expression that is built from literals alone, calculated with 16
bits at every step and cut to the size of the expression's type. Shifts are
rotations of bytes, as the target machine performs them.
-/

namespace AccumulatorC

/-- A byte rotated left, one bit at a time. -/
def rotateLeft : Nat → UInt8 → UInt8
  | 0, byte => byte
  | count + 1, byte => rotateLeft count ((byte <<< 1) ||| (byte >>> 7))

/-- A byte shifted by a count modulo 8: every shift is a rotation to the left, and
one to the right by `n` is one to the left by `8 - n`. -/
def shiftByte (right : Bool) (value count : UInt8) : UInt8 :=
  rotateLeft ((if right then 8 - count else count) % 8).toNat value

/-- One when a comparison holds and zero when it does not. -/
def truth (holds : Bool) : UInt16 := if holds then 1 else 0

/-- The value of an operator on two constants, for a result of so many bytes. -/
def BinaryOp.fold (op : BinaryOp) (size : Nat) (left right : UInt16) : Option UInt16 :=
  match op with
  | .add => some (left + right)
  | .sub => some (left - right)
  | .mul => some (left * right)
  | .div => if right = 0 then none else some (left / right)
  | .and => some (left &&& right)
  | .or => some (left ||| right)
  | .equal => some (truth (left = right))
  | .notEqual => some (truth (left ≠ right))
  | .less => some (truth (left < right))
  | .lessOrEqual => some (truth (left ≤ right))
  | .greater => some (truth (right < left))
  | .greaterOrEqual => some (truth (right ≤ left))
  | .shiftLeft =>
      if size = 1 then some (shiftByte false left.toUInt8 right.toUInt8).toUInt16 else none
  | .shiftRight =>
      if size = 1 then some (shiftByte true left.toUInt8 right.toUInt8).toUInt16 else none

/-- The low byte of a value that takes one byte, and the whole value otherwise. -/
def cutToSize (size : Nat) (value : UInt16) : UInt16 :=
  if size = 1 then value &&& 0xff else value

namespace Expr

/-- The value of a constant expression. Strings have none, and neither has a division
by zero or a shift of a 16-bit value. -/
def fold : Expr → Option UInt16
  | number note value => if note.constant then some (cutToSize note.type.size value) else none
  | unary note .plus operand =>
      if note.constant then operand.fold.map (cutToSize note.type.size) else none
  | unary note .negate operand =>
      if note.constant then operand.fold.map fun value => cutToSize note.type.size (-value)
      else none
  | binary note op left right =>
      if note.constant then do
        let l ← left.fold
        let r ← right.fold
        (op.fold note.type.size l r).map (cutToSize note.type.size)
      else none
  | _ => none

/-- Whether the expression can be the initial value of a global variable. -/
def isInitializer (e : Expr) : Bool :=
  e.note.constant && (e.isString || e.fold.isSome)

end Expr

end AccumulatorC
