import AccumulatorC.Program
import AccumulatorC.Program.Error

/-!
# Building typed expressions

An expression is built from typed operands by a rule for each form: which operands
it accepts, what type it has, which conversions it notes and whether it is still
built from literals alone.
-/

namespace AccumulatorC

/-- The result of a rule, or the error that it finds. -/
abbrev Checked := Except (Located ParseError)

/-- Something that was built, with the warnings that it gives rise to. -/
structure Noted (α : Type) where
  value : α
  warnings : List (Located Conversion)

namespace Checked

/-- The warnings of a conversion that happens at a place. -/
def noted (warning : Option Conversion) (location : Location) : List (Located Conversion) :=
  warning.toList.map (⟨·, location⟩)

/-- Turns the refusal of types into an error at a place. -/
def ofTypes {α : Type} (location : Location) : Except TypeError α → Checked α
  | .ok value => .ok value
  | .error cause => .error ⟨.type cause, location⟩

/-- Refuses an expression that has no value. -/
def requireValue (e : Expr) : Checked Unit :=
  if e.type.isVoid then .error ⟨.voidValue, e.location⟩ else .ok ()

/-- The warnings of storing a value in something of a type, at the value's place. -/
def bindValue (type : Ty) (value : Expr) : Checked (List (Located Conversion)) := do
  requireValue value
  let warning ← ofTypes value.location (type.assign value.type)
  return noted warning value.location

/-- The warnings of storing values one by one. -/
def bindValues : List Ty → List Expr → Checked (List (Located Conversion))
  | type :: types, value :: values => do
      let first ← bindValue type value
      return first ++ (← bindValues types values)
  | _, _ => .ok []

end Checked

namespace Expr

open Checked

/-- An assignment has the type of its target. -/
def assigned (scope : ScopeId) (location : Location) (target value : Expr) : Checked (Noted Expr) :=
  if target.isPlace then do
    requireValue value
    let warning ← ofTypes location (target.type.assign value.type)
    return ⟨.assign ⟨target.type, scope, false, location⟩ target value, noted warning location⟩
  else .error ⟨.notAssignable, target.location⟩

/-- An operator gives the common type of its operands. Strings are constants that
no operator can calculate with. -/
def combined (scope : ScopeId) (location : Location) (op : BinaryOp) (left right : Expr) :
    Checked (Noted Expr) := do
  requireValue left
  requireValue right
  let (type, warning) ← ofTypes location (left.type.common right.type)
  let constant :=
    left.note.constant && right.note.constant && !left.isString && !right.isString
  return ⟨.binary ⟨type, scope, constant, location⟩ op left right, noted warning location⟩

/-- Addresses are taken of places, and pointers are followed; every other operator
keeps the type of its operand. -/
def applied (scope : ScopeId) (location : Location) (op : UnaryOp) (operand : Expr) :
    Checked (Noted Expr) :=
  match op with
  | .addressOf =>
      if operand.isPlace then
        .ok ⟨.unary ⟨.pointer operand.type, scope, false, location⟩ op operand, []⟩
      else .error ⟨.notAddressable, location⟩
  | .deref =>
      match operand.type.base? with
      | some base => .ok ⟨.unary ⟨base, scope, false, location⟩ op operand, []⟩
      | none => .error ⟨.derefNonPointer operand.type, location⟩
  | .plus | .negate | .increment | .decrement => do
      requireValue operand
      let constant := operand.note.constant && !operand.isString
      return ⟨.unary ⟨operand.type, scope, constant, location⟩ op operand, []⟩

/-- A step assigns to a place its neighbouring value. -/
def stepped (scope : ScopeId) (location : Location) (op : UnaryOp) (target : Expr) :
    Checked (Noted Expr) :=
  if target.isPlace then do
    let neighbour ← applied scope location op target
    let step ← assigned scope location target neighbour.value
    return ⟨step.value, neighbour.warnings ++ step.warnings⟩
  else .error ⟨.notAssignable, target.location⟩

/-- A step after its operand gives the value from before, by going back from the
value that was assigned. -/
def steppedAfter (scope : ScopeId) (location : Location) (op back : UnaryOp) (target : Expr) :
    Checked (Noted Expr) := do
  let step ← stepped scope location op target
  let former ← applied scope location back step.value
  return ⟨former.value, step.warnings ++ former.warnings⟩

/-- A call stores its arguments in the parameters. -/
def called (scope : ScopeId) (location : Location) (function : Symbol) (result : Ty)
    (parameters : List Ty) (arguments : List Expr) : Checked (Noted Expr) :=
  if arguments.length = parameters.length then do
    let warnings ← bindValues parameters arguments
    return ⟨.call ⟨result, scope, false, location⟩ function arguments, warnings⟩
  else .error ⟨.arity function.name parameters.length arguments.length, location⟩

end Expr

end AccumulatorC
