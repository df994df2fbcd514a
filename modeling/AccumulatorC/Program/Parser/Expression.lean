import AccumulatorC.Program.Parser.State

/-!
# Reading expressions

Operators bind in levels. Those of one level group to the left; assignment, the
loosest, groups to the right; operators before an operand bind tighter than those
between operands, and steps after an operand tightest of all. What an expression
nests has fewer tokens than the expression, so a bound on the number of tokens
bounds the recursion.
-/

namespace AccumulatorC

/-- The levels of operators between operands, the tightest first. -/
def operatorLevels : List (List (Mark × BinaryOp)) :=
  [[(.star, .mul), (.slash, .div)],
    [(.plus, .add), (.minus, .sub)],
    [(.shiftLeft, .shiftLeft), (.shiftRight, .shiftRight)],
    [(.less, .less), (.lessOrEqual, .lessOrEqual), (.greater, .greater),
      (.greaterOrEqual, .greaterOrEqual)],
    [(.equal, .equal), (.notEqual, .notEqual)],
    [(.ampersand, .and), (.bar, .or)]]

/-- Operators that stand before their operand. -/
def leadingOperators : List (Mark × UnaryOp) :=
  [(.plus, .plus), (.minus, .negate), (.ampersand, .addressOf), (.star, .deref),
    (.increment, .increment), (.decrement, .decrement)]

/-- The operator that a token stands for, among those given. -/
def operator? {α : Type} (operators : List (Mark × α)) : Option Token → Option α
  | some (.mark mark) => operators.lookup mark
  | _ => none

namespace Parser

/-- Operators of one level after a first operand, at most as many as given. -/
def operatorTail (operand : Parser Expr) (operators : List (Mark × BinaryOp)) (start : Location) :
    Nat → Expr → Parser Expr
  | 0, left => return left
  | count + 1, left => do
      match operator? operators (← peek) with
      | some op =>
          let _ ← next
          let right ← operand
          let whole ← built (Expr.combined (← scope) (.span start (← last)) op left right)
          operatorTail operand operators start count whole
      | none => return left

/-- One level of operators over the next tighter one. -/
def operatorLevel (operand : Parser Expr) (operators : List (Mark × BinaryOp)) : Parser Expr := do
  let start ← peekLocation
  let left ← operand
  operatorTail operand operators start (← bound) left

/-- A call, after the name of the function. -/
def call (nested : Parser Expr) (name : String) (start : Location) : Parser Expr := do
  let function ← resolve name start
  match function.type with
  | .function result parameters =>
      expect (.mark .openParen)
      let arguments ←
        if ← optional (.mark .closeParen) then pure []
        else do
          let arguments ← separated nested (← bound)
          expect (.mark .closeParen)
          pure arguments
      built (Expr.called (← scope) (.span start (← last)) function result parameters arguments)
  | _ => failAt (.notFunction name) start

/-- A literal of a type. -/
def literal (make : Note → Expr) (type : Ty) (location : Location) : Parser Expr :=
  return make ⟨type, ← scope, true, location⟩

/-- The use of a name that is not called. -/
def use (name : String) (location : Location) : Parser Expr := do
  let symbol ← resolve name location
  if symbol.type.isFunction then failAt (.functionValue name) location
  else return .name ⟨symbol.type, ← scope, false, location⟩ symbol

/-- The type of an integer literal: the smallest that holds it. -/
def integerType (value : UInt16) : Ty := if value ≤ 0xff then .char else .int

/-- A literal, a name, a call or an expression in parentheses. -/
def primary (nested : Parser Expr) : Parser Expr := do
  let token ← next
  match token.value with
  | .integer value => literal (.number · value) (integerType value) token.location
  | .character byte => literal (.number · byte.toUInt16) .char token.location
  | .string bytes => literal (.string · bytes) (.pointer .char) token.location
  | .identifier name =>
      if (← peek) = some (.mark .openParen) then call nested name token.location
      else use name token.location
  | .mark .openParen =>
      let inner ← nested
      expect (.mark .closeParen)
      return inner
  | _ => fail .expectedExpression

/-- The step that a token stands for after an operand, and the way back from it. -/
def trailingStep? : Option Token → Option (UnaryOp × UnaryOp)
  | some (.mark .increment) => some (.increment, .decrement)
  | some (.mark .decrement) => some (.decrement, .increment)
  | _ => none

/-- Steps after an operand, at most as many as given. -/
def trailingSteps (start : Location) : Nat → Expr → Parser Expr
  | 0, operand => return operand
  | count + 1, operand => do
      match trailingStep? (← peek) with
      | some (op, back) =>
          let _ ← next
          let whole ← built (Expr.steppedAfter (← scope) (.span start (← last)) op back operand)
          trailingSteps start count whole
      | none => return operand

/-- An operand with the steps after it. -/
def trailing (nested : Parser Expr) : Parser Expr := do
  let start ← peekLocation
  let operand ← primary nested
  trailingSteps start (← bound) operand

/-- An operator before its operand. -/
def applyLeading (op : UnaryOp) (start : Location) (operand : Expr) : Parser Expr := do
  let scope ← scope
  let location := Location.span start (← last)
  match op with
  | .increment | .decrement => built (Expr.stepped scope location op operand)
  | _ => built (Expr.applied scope location op operand)

/-- An operand with the operators before it, at most as many as given. -/
def leading (nested : Parser Expr) : Nat → Parser Expr
  | 0 => fail .unexpectedEnd
  | count + 1 => do
      let start ← peekLocation
      match operator? leadingOperators (← peek) with
      | some op =>
          let _ ← next
          let operand ← leading nested count
          applyLeading op start operand
      | none => trailing nested

/-- Everything that binds tighter than assignment. -/
def operators (nested : Parser Expr) (count : Nat) : Parser Expr :=
  operatorLevels.foldl operatorLevel (leading nested count)

/-- An expression of at most so many tokens. -/
def expressionWithin : Nat → Parser Expr
  | 0 => fail .unexpectedEnd
  | count + 1 => do
      let start ← peekLocation
      let target ← operators (expressionWithin count) (count + 1)
      if ← optional (.mark .assign) then
        let value ← expressionWithin count
        built (Expr.assigned (← scope) (.span start (← last)) target value)
      else return target

/-- An expression. -/
def expression : Parser Expr := do
  expressionWithin (← bound)

end Parser

end AccumulatorC
