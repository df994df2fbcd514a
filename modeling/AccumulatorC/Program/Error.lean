import AccumulatorC.Scope
import AccumulatorC.Token
import AccumulatorC.Ty.Conversion

/-!
# Errors in programs

What can be wrong with a sequence of tokens that should be a program.
-/

namespace AccumulatorC

/-- An error in the form or the meaning of a program. -/
inductive ParseError
  | unexpectedToken (expected found : Token)
  | missingToken (expected : Token)
  | expectedIdentifier
  | expectedType
  | expectedExpression
  | unexpectedEnd
  | voidVariable (name : String)
  | notConstant (name : String)
  | externalInitializer (name : String)
  | notFunction (name : String)
  | functionValue (name : String)
  | arity (name : String) (expected found : Nat)
  | derefNonPointer (ty : Ty)
  | notAssignable
  | notAddressable
  | voidValue
  | returnInVoid
  | missingReturnValue (ty : Ty)
  | noMain
  | type (cause : TypeError)
  | scope (cause : ScopeError)
  deriving Repr

/-- The text of an error. -/
def ParseError.message : ParseError → String
  | .unexpectedToken expected found =>
      s!"Expected {expected.text}, found {found.text} instead"
  | .missingToken expected => s!"Expected {expected.text}, none was found instead"
  | .expectedIdentifier => "Expected identifier"
  | .expectedType => "Expected any of `void`, `char`, `int`"
  | .expectedExpression => "Expected an expression"
  | .unexpectedEnd => "Abrupt end of program"
  | .voidVariable name => s!"Variable `{name}` cannot have type `void`"
  | .notConstant name => s!"Initializer for global `{name}` is not a constant expression"
  | .externalInitializer name => s!"Extern declaration `{name}` cannot have an initializer"
  | .notFunction name => s!"`{name}` is not a function"
  | .functionValue name => s!"Function `{name}` cannot be used as a value"
  | .arity name expected found =>
      s!"Function `{name}` takes {expected} arguments, but {found} were given"
  | .derefNonPointer ty => s!"Cannot dereference non-pointer type `{ty.text}`"
  | .notAssignable => "Expression is not assignable"
  | .notAddressable => "Cannot take the address of this expression"
  | .voidValue => "Expression of type `void` cannot be used as a value"
  | .returnInVoid => "Function returning `void` cannot return a value"
  | .missingReturnValue ty => s!"Missing return value for function returning `{ty.text}`"
  | .noMain => "No `main` function was defined"
  | .type cause => cause.message
  | .scope cause => cause.message

end AccumulatorC
