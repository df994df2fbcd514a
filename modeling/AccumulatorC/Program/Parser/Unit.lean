import AccumulatorC.Program.Parser.Statement

/-!
# Reading programs

A program is a sequence of functions and global variables, one of them a function
named `main`.
-/

namespace AccumulatorC

/-- A program and the warnings that reading it gave, in order. -/
structure Parsed where
  program : Program
  warnings : List (Located Conversion)

/-- Whether a token can stand before the name in a declaration. -/
def beforeName : Token → Bool
  | .keyword _ | .mark .star => true
  | _ => false

/-- Whether tokens begin a function, which has a parenthesis after its name. -/
def beginsFunction (tokens : List (Located Token)) : Bool :=
  match tokens.dropWhile (beforeName ·.value) with
  | ⟨.identifier _, _⟩ :: ⟨.mark .openParen, _⟩ :: _ => true
  | _ => false

/-- Bytes of the return address, which a call leaves below the arguments. -/
def returnAddressSize : Nat := 2

namespace Parser

/-- A parameter: declared in the scope of the parameters, it gives its type. -/
def parameter (scope : ScopeId) : Parser Ty := do
  let type ← type
  let name ← identifier
  requireVariable type name
  let _ ← declare scope name type false
  return type

/-- A function. Its name is declared after its parameters and before its body, so
that the body can call it. -/
def function : Parser Function := do
  let result ← type
  let name ← identifier
  expect (.mark .openParen)
  let scope ← enterScope globalScope
  let parameters ←
    if (← peek) = some (.mark .closeParen) then pure []
    else separated (parameter scope) (← bound)
  expect (.mark .closeParen)
  reserve scope returnAddressSize
  let symbol ← declare globalScope name (.function result parameters) false
  modify fun state => { state with scope, result := some result }
  let (inner, body, location) ← block statement
  modify fun state => { state with scope := globalScope, result := none }
  return ⟨symbol, scope, inner, body, location⟩

/-- A function or a global variable. -/
def item : Parser Item := do
  if beginsFunction (← get).tokens then return .function (← function)
  else
    let declared ← declaration
    expect (.mark .semicolon)
    return .global declared

/-- Everything up to the end, of at most so many items. -/
def items : Nat → Parser (List Item)
  | 0 => return []
  | count + 1 => do
      if (← peek).isNone then return []
      else
        let first ← item
        return first :: (← items count)

/-- A whole program. -/
def program : Parser (List Item) := do
  let list ← items (← bound)
  match (← get).scopes.lookup globalScope mainName with
  | .ok main => if main.type.isFunction then return list else fail .noMain
  | .error _ => fail .noMain

end Parser

/-- Reads tokens as a program. Without tokens, errors are reported at the start of
the standard input. -/
def Program.ofTokens (tokens : List (Located Token)) :
    Except (Stop (Located ParseError)) Parsed :=
  let start := tokens.head?.elim (Location.startOf "<input>") (·.location)
  match (Parser.program.run ⟨tokens, tokens.length, start, .initial, globalScope, none, []⟩) with
  | .ok (list, state) => .ok ⟨⟨list, state.scopes⟩, state.warnings⟩
  | .error stop => .error stop

end AccumulatorC
