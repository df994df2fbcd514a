import AccumulatorC.Program.Fold
import AccumulatorC.Program.Parser.Expression

/-!
# Reading statements

Declarations stand directly in blocks; every other statement can also stand under
a condition. As with expressions, the number of tokens to come bounds how deeply
statements nest.
-/

namespace AccumulatorC.Parser

/-- The initial value of a variable, after the assignment sign. The variable is not
declared yet, so its name still means what it meant before. -/
def initialValue (external : Bool) (type : Ty) (name : Located String) : Parser Expr := do
  let value ← expression
  if external then fail (.externalInitializer name.value)
  bindValue type value
  if (← scope) = globalScope ∧ ¬ value.isInitializer then
    failAt (.notConstant name.value) value.location
  return value

/-- The declaration of a variable without its semicolon. -/
def declaration : Parser Declaration := do
  let external ← optional (.keyword .external)
  let type ← type
  let name ← identifier
  if !external then requireVariable type name
  let initial ←
    if ← optional (.mark .assign) then some <$> initialValue external type name
    else pure none
  return ⟨← declare (← scope) name type external, initial⟩

/-- A condition in parentheses. -/
def condition : Parser Expr := do
  expect (.mark .openParen)
  let value ← expression
  expect (.mark .closeParen)
  checked (Checked.requireValue value)
  return value

/-- What follows the keyword of a return statement. -/
def returnedValue : Parser (Option Expr) := do
  let result := (← get).result.getD .void
  if ← optional (.mark .semicolon) then
    if !result.isVoid then fail (.missingReturnValue result)
    return none
  else
    let value ← expression
    expect (.mark .semicolon)
    if result.isVoid then failAt .returnInVoid value.location
    bindValue result value
    return some value

/-- An expression as a statement. Only a call may have no value. -/
def expressionStatement : Parser Statement := do
  let value ← expression
  expect (.mark .semicolon)
  if !value.isCall then checked (Checked.requireValue value)
  return .expression value

/-- Whether a token begins a declaration in a block. -/
def beginsDeclaration : Option Token → Bool
  | some (.keyword word) => word.isType || word = .external
  | _ => false

/-- The rest of a block, of at most so many statements. -/
def blockRest (statement : Parser Statement) : Nat → Parser (List Statement)
  | 0 => fail .unexpectedEnd
  | count + 1 => do
      if ← optional (.mark .closeBrace) then return []
      else
        let first ←
          if beginsDeclaration (← peek) then do
            let declared ← declaration
            expect (.mark .semicolon)
            pure (Statement.declaration declared)
          else statement
        return first :: (← blockRest statement count)

/-- A block: its scope, its statements and its place. -/
def block (statement : Parser Statement) : Parser (ScopeId × List Statement × Location) := do
  expect (.mark .openBrace)
  let start ← last
  let outer ← scope
  let inner ← enterScope outer
  modify fun state => { state with scope := inner }
  let body ← blockRest statement (← bound)
  modify fun state => { state with scope := outer }
  return (inner, body, .span start (← last))

/-- A statement of at most so many tokens. -/
def statementWithin : Nat → Parser Statement
  | 0 => fail .unexpectedEnd
  | count + 1 => do
      match (← peek) with
      | some (.keyword .returning) =>
          expect (.keyword .returning)
          let location ← last
          let value ← returnedValue
          return .returning value (← scope) location
      | some (.keyword .ifThen) =>
          expect (.keyword .ifThen)
          let location ← last
          let condition ← condition
          let yes ← statementWithin count
          if ← optional (.keyword .elseThen) then
            return .branch condition yes (some (← statementWithin count)) location
          else return .branch condition yes none location
      | some (.keyword .whileLoop) =>
          expect (.keyword .whileLoop)
          let location ← last
          let condition ← condition
          let body ← statementWithin count
          return .loop condition body location
      | some (.mark .openBrace) =>
          let (scope, body, location) ← block (statementWithin count)
          return .block scope body location
      | _ => expressionStatement

/-- A statement. -/
def statement : Parser Statement := do
  statementWithin (← bound)

end AccumulatorC.Parser
