import AccumulatorC.Proofs.Program.Parser.Progress

/-!
# Reading without a bound on the tokens

The rules of the language call each other and repeat for as long as tokens come: nothing but the
depth to which the calls of a run nest is limited here, and a run that nests deeper than given has no
result at all. So a rule ends from a state if it has a result for some depth.
-/

namespace AccumulatorC

/-- A run of a rule, which has no result when its calls nest too deep. -/
abbrev Descent (α : Type) :=
  StateT ParseState (ExceptT (Stop (Located ParseError)) Option) α

/-- A parser that ends, as a run. -/
def Parser.descent {α : Type} (parser : Parser α) : Descent α := fun state => some (parser state)

instance Descent.monadLift :
    MonadLift (StateT ParseState (Except (Stop (Located ParseError))))
      (StateT ParseState (ExceptT (Stop (Located ParseError)) Option)) :=
  ⟨Parser.descent⟩

namespace Descent

open AccumulatorC.Parser (peek peekLocation next optional expect identifier scope last built checked
  resolve failAt fail bindValue declare enterScope reserve requireVariable)

/-- Calls nest too deep. -/
def tooDeep {α : Type} : Descent α := fun _ => none

/-! ## Types and expressions -/

/-- Stars after a type. -/
def stars : Nat → Ty → Descent Ty
  | 0, _ => tooDeep
  | depth + 1, type => do
      if ← optional (.mark .star) then stars depth (.pointer type) else return type

/-- A type. -/
def type (depth : Nat) : Descent Ty := do
  let token ← next
  match token.value with
  | .keyword .voidType => stars depth .void
  | .keyword .charType => stars depth .char
  | .keyword .intType => stars depth .int
  | _ => fail .expectedType

/-- Steps after an operand. -/
def trailingSteps (start : Location) : Nat → Expr → Descent Expr
  | 0, _ => tooDeep
  | depth + 1, operand => do
      match Parser.trailingStep? (← peek) with
      | some (op, back) =>
          let _ ← next
          let whole ← built (Expr.steppedAfter (← scope) (.span start (← last)) op back operand)
          trailingSteps start depth whole
      | none => return operand

mutual

/-- An expression. -/
def expression : Nat → Descent Expr
  | 0 => tooDeep
  | depth + 1 => do
      let start ← peekLocation
      let target ← level depth operatorLevels.reverse
      if ← optional (.mark .assign) then
        let value ← expression depth
        built (Expr.assigned (← scope) (.span start (← last)) target value)
      else return target

/-- What levels of operators, the loosest first, make of operands. -/
def level : Nat → List (List (Mark × BinaryOp)) → Descent Expr
  | 0, _ => tooDeep
  | depth + 1, [] => leading depth
  | depth + 1, operators :: tighter => do
      let start ← peekLocation
      let left ← level depth tighter
      operatorTail depth operators tighter start left

/-- Operators of one level after a first operand. -/
def operatorTail : Nat → List (Mark × BinaryOp) → List (List (Mark × BinaryOp)) → Location → Expr →
    Descent Expr
  | 0, _, _, _, _ => tooDeep
  | depth + 1, operators, tighter, start, left => do
      match operator? operators (← peek) with
      | some op =>
          let _ ← next
          let right ← level depth tighter
          let whole ← built (Expr.combined (← scope) (.span start (← last)) op left right)
          operatorTail depth operators tighter start whole
      | none => return left

/-- An operand with the operators before it. -/
def leading : Nat → Descent Expr
  | 0 => tooDeep
  | depth + 1 => do
      let start ← peekLocation
      match operator? leadingOperators (← peek) with
      | some op =>
          let _ ← next
          let operand ← leading depth
          Parser.applyLeading op start operand
      | none => trailing depth

/-- An operand with the steps after it. -/
def trailing : Nat → Descent Expr
  | 0 => tooDeep
  | depth + 1 => do
      let start ← peekLocation
      let operand ← primary depth
      trailingSteps start depth operand

/-- A literal, a name, a call or an expression in parentheses. -/
def primary : Nat → Descent Expr
  | 0 => tooDeep
  | depth + 1 => do
      let token ← next
      match token.value with
      | .integer value =>
          Parser.literal (.number · value) (Parser.integerType value) token.location
      | .character byte => Parser.literal (.number · byte.toUInt16) .char token.location
      | .string bytes => Parser.literal (.string · bytes) (.pointer .char) token.location
      | .identifier name =>
          if (← peek) = some (.mark .openParen) then call depth name token.location
          else Parser.use name token.location
      | .mark mark =>
          if mark = .openParen then
            let inner ← expression depth
            expect (.mark .closeParen)
            return inner
          else fail .expectedExpression
      | _ => fail .expectedExpression

/-- A call, after the name of the function. -/
def call : Nat → String → Location → Descent Expr
  | 0, _, _ => tooDeep
  | depth + 1, name, start => do
      let function ← resolve name start
      match function.type with
      | .function result parameters =>
          expect (.mark .openParen)
          let list ←
            if ← optional (.mark .closeParen) then pure []
            else do
              let list ← arguments depth
              expect (.mark .closeParen)
              pure list
          built (Expr.called (← scope) (.span start (← last)) function result parameters list)
      | _ => failAt (.notFunction name) start

/-- Arguments separated by commas. -/
def arguments : Nat → Descent (List Expr)
  | 0 => tooDeep
  | depth + 1 => do
      let first ← expression depth
      if ← optional (.mark .comma) then return first :: (← arguments depth)
      else return [first]

end

/-! ## Statements -/

/-- The initial value of a variable. -/
def initialValue (depth : Nat) (external : Bool) (type : Ty) (name : Located String) :
    Descent Expr := do
  let value ← expression depth
  if external then fail (.externalInitializer name.value)
  bindValue type value
  if (← scope) = globalScope ∧ ¬ value.isInitializer then
    failAt (.notConstant name.value) value.location
  return value

/-- The declaration of a variable without its semicolon. -/
def declaration (depth : Nat) : Descent Declaration := do
  let external ← optional (.keyword .external)
  let type ← type depth
  let name ← identifier
  if !external then requireVariable type name
  let initial ←
    if ← optional (.mark .assign) then some <$> initialValue depth external type name
    else pure none
  return ⟨← declare (← scope) name type external, initial⟩

/-- A condition in parentheses. -/
def condition (depth : Nat) : Descent Expr := do
  expect (.mark .openParen)
  let value ← expression depth
  expect (.mark .closeParen)
  checked (Checked.requireValue value)
  return value

/-- What follows the keyword of a return statement. -/
def returnedValue (depth : Nat) : Descent (Option Expr) := do
  let result := (← get).result.getD .void
  if ← optional (.mark .semicolon) then
    if !result.isVoid then fail (.missingReturnValue result)
    return none
  else
    let value ← expression depth
    expect (.mark .semicolon)
    if result.isVoid then failAt .returnInVoid value.location
    bindValue result value
    return some value

/-- An expression as a statement. -/
def expressionStatement (depth : Nat) : Descent Statement := do
  let value ← expression depth
  expect (.mark .semicolon)
  if !value.isCall then checked (Checked.requireValue value)
  return .expression value

mutual

/-- A statement. -/
def statement : Nat → Descent Statement
  | 0 => tooDeep
  | depth + 1 => do
      match (← peek) with
      | some (.keyword .returning) =>
          expect (.keyword .returning)
          let location ← last
          let value ← returnedValue depth
          return .returning value (← scope) location
      | some (.keyword .ifThen) =>
          expect (.keyword .ifThen)
          let location ← last
          let condition ← condition depth
          let yes ← statement depth
          if ← optional (.keyword .elseThen) then
            return .branch condition yes (some (← statement depth)) location
          else return .branch condition yes none location
      | some (.keyword .whileLoop) =>
          expect (.keyword .whileLoop)
          let location ← last
          let condition ← condition depth
          let body ← statement depth
          return .loop condition body location
      | some (.mark .openBrace) =>
          let (scope, body, location) ← block depth
          return .block scope body location
      | _ => expressionStatement depth

/-- A block: its scope, its statements and its place. -/
def block : Nat → Descent (ScopeId × List Statement × Location)
  | 0 => tooDeep
  | depth + 1 => do
      expect (.mark .openBrace)
      let start ← last
      let outer ← scope
      let inner ← enterScope outer
      modify fun state => { state with scope := inner }
      let body ← blockRest depth
      modify fun state => { state with scope := outer }
      return (inner, body, .span start (← last))

/-- The rest of a block. -/
def blockRest : Nat → Descent (List Statement)
  | 0 => tooDeep
  | depth + 1 => do
      if ← optional (.mark .closeBrace) then return []
      else
        let first ←
          if Parser.beginsDeclaration (← peek) then do
            let declared ← declaration depth
            expect (.mark .semicolon)
            pure (Statement.declaration declared)
          else statement depth
        return first :: (← blockRest depth)

end

/-! ## Programs -/

/-- A parameter: declared in the scope of the parameters, it gives its type. -/
def parameter (depth : Nat) (scope : ScopeId) : Descent Ty := do
  let type ← type depth
  let name ← identifier
  requireVariable type name
  let _ ← declare scope name type false
  return type

/-- Parameters separated by commas. -/
def parameters (scope : ScopeId) : Nat → Descent (List Ty)
  | 0 => tooDeep
  | depth + 1 => do
      let first ← parameter depth scope
      if ← optional (.mark .comma) then return first :: (← parameters scope depth)
      else return [first]

/-- The rest of a function, after its parameters. -/
def functionRest (depth : Nat) (result : Ty) (name : Located String) (scope : ScopeId)
    (parameters : List Ty) : Descent Function := do
  expect (.mark .closeParen)
  reserve scope returnAddressSize
  let symbol ← declare globalScope name (.function result parameters) false
  modify fun state => { state with scope, result := some result }
  let (inner, body, location) ← block depth
  modify fun state => { state with scope := globalScope, result := none }
  return ⟨symbol, scope, inner, body, location⟩

/-- A function. -/
def function (depth : Nat) : Descent Function := do
  let result ← type depth
  let name ← identifier
  expect (.mark .openParen)
  let scope ← enterScope globalScope
  let parameters ←
    if (← peek) = some (.mark .closeParen) then pure []
    else parameters scope depth
  functionRest depth result name scope parameters

/-- A function or a global variable. -/
def item (depth : Nat) : Descent Item := do
  if beginsFunction (← get).tokens then return .function (← function depth)
  else
    let declared ← declaration depth
    expect (.mark .semicolon)
    return .global declared

/-- Everything up to the end. -/
def items : Nat → Descent (List Item)
  | 0 => tooDeep
  | depth + 1 => do
      if (← peek).isNone then return []
      else
        let first ← item depth
        return first :: (← items depth)

/-- A whole program. -/
def program (depth : Nat) : Descent (List Item) := do
  let list ← items depth
  match (← get).scopes.lookup globalScope mainName with
  | .ok main => if main.type.isFunction then return list else fail .noMain
  | .error _ => fail .noMain

end Descent

end AccumulatorC
