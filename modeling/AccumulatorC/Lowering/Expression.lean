import AccumulatorC.Lowering.Operation

/-!
# Lowering expressions

The value of an expression is left in a register of the size of its type. Operands
are lowered from left to right, an assigned value before the pointer through which
it is stored. A call saves every register in use, pushes its arguments from left to
right and takes them off again afterwards.
-/

namespace AccumulatorC

open Lowering

/-- Where a symbol is found at the present depth, seen from a scope. -/
def Scopes.address (scopes : Scopes) (symbol : Symbol) (scope : ScopeId) : Lowering Address := do
  match ← lift (scopes.stackOffset symbol scope) with
  | some offset => return .stack (← lift (addBytes offset (← Lowering.get).depth))
  | none => return .label symbol.name 0

/-- Bytes by which a value steps: pointers step over what they point to. -/
def Ty.stride (type : Ty) : Nat := type.base?.elim 1 fun base => max base.size 1

/-- The types of a function's parameters. -/
def Symbol.parameters (symbol : Symbol) : List Ty :=
  match symbol.type with
  | .function _ parameters => parameters
  | _ => []

/-- Bytes of a function's result. -/
def Symbol.resultSize (symbol : Symbol) : Nat :=
  match symbol.type with
  | .function result _ => result.size
  | _ => 0

namespace Lowering

/-- Saves a register and gives it back. -/
def save (r : Reg) : Lowering Unit := do
  push r
  free r

/-- Saves all registers in use and gives them back. -/
def saveAll : Lowering (List Reg) := do
  let saved := (← get).held.toList
  saved.forM save
  return saved

/-- Takes registers that are free by now. -/
def claimAll (registers : List Reg) : Lowering Unit :=
  registers.forM fun r => do
    let _ ← claim r

/-- Takes the register of a result of so many bytes, if there is any. -/
def claimResult (size : Nat) : Lowering (Option Reg) := do
  if size = 0 then return none
  else
    let _ ← claim (.result size)
    return some (.result size)

/-- Moves a result out of the way of the registers that it shares bytes with. -/
def moveResult (clashing : List Reg) (result : Option Reg) : Lowering (Option Reg) := do
  match result with
  | none => return none
  | some r =>
      if clashing.isEmpty then return some r
      else
        let moved ← allocate r.size
        emit (.copy moved r)
        free r
        return some moved

/-- The rest of a call whose arguments have been pushed: the call itself, the release
of the arguments, and the saved registers. -/
def finishCall (function : Symbol) (saved : List Reg) (pushed : Nat) : Lowering (Option Reg) := do
  emit (.call function.name)
  if pushed > 0 then
    emit (.release pushed)
    shallow pushed
  let result ← claimResult function.resultSize
  let (clashing, clear) := saved.partition fun r => result.any (·.overlaps r)
  claimAll clear
  let result ← moveResult clashing result
  claimAll clashing
  saved.reverse.forM pop
  return result

end Lowering

mutual

/-- The value of an expression, in a register. -/
def Expr.lower (scopes : Scopes) : Expr → Lowering Reg
  | .number note value => do
      visit note.location
      let r ← allocate note.type.size
      emit (.setNumber r value.toNat)
      return r
  | .string note bytes => do
      visit note.location
      let label ← stringData true bytes
      let r ← allocate 2
      emit (.setLabel r label)
      return r
  | .name note symbol => do
      visit note.location
      let address ← scopes.address symbol note.scope
      let r ← allocate note.type.size
      load r address
      return r
  | .assign note target value => do
      visit note.location
      let r ← value.lower scopes
      let r ← coerce r target.type.size
      visit target.location
      match target with
      | .name note symbol => store (← scopes.address symbol note.scope) r
      | .unary _ .deref pointer =>
          let pair ← pointer.lower scopes
          store (.indirect pair) r
          free pair
      | _ => lift (.error .malformedTree)
      return r
  | .binary note op left right => do
      visit note.location
      let l ← left.lower scopes
      let l ← coerce l note.type.size
      let r ← right.lower scopes
      let r ← coerce r note.type.size
      operate op note.type.size l r
  | .unary note .plus operand => do
      visit note.location
      operand.lower scopes
  | .unary note .negate operand => do
      visit note.location
      negate (← operand.lower scopes)
  | .unary note .addressOf operand => do
      visit note.location
      match operand with
      | .name note symbol =>
          let address ← scopes.address symbol note.scope
          let r ← allocate 2
          emit (.setAddress r address)
          return r
      | .unary _ .deref pointer => pointer.lower scopes
      | _ => lift (.error .malformedTree)
  | .unary note .deref operand => do
      visit note.location
      let pair ← operand.lower scopes
      let r ← allocate note.type.size
      load r (.indirect pair)
      free pair
      return r
  | .unary note .increment operand => do
      visit note.location
      let r ← operand.lower scopes
      stepBy .increment r operand.type.stride
      return r
  | .unary note .decrement operand => do
      visit note.location
      let r ← operand.lower scopes
      stepBy .decrement r operand.type.stride
      return r
  | .call note function arguments => do
      visit note.location
      let saved ← saveAll
      let pushed ← lowerArguments scopes function.parameters arguments
      match ← finishCall function saved pushed with
      | some r => return r
      | none => fail .voidValue

/-- Pushes arguments, each brought to the size of its parameter, and counts their
bytes. -/
def lowerArguments (scopes : Scopes) : List Ty → List Expr → Lowering Nat
  | parameter :: parameters, argument :: arguments => do
      let r ← argument.lower scopes
      let r ← coerce r parameter.size
      save r
      let rest ← lowerArguments scopes parameters arguments
      lift (addBytes parameter.size rest)
  | _, _ => return 0

end

/-- A call, whose result need not exist. -/
def lowerCall (scopes : Scopes) (function : Symbol) (arguments : List Expr) :
    Lowering (Option Reg) := do
  let saved ← saveAll
  let pushed ← lowerArguments scopes function.parameters arguments
  finishCall function saved pushed

end AccumulatorC
