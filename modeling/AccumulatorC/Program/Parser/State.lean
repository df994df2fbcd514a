import AccumulatorC.Program.Typing

/-!
# Reading tokens

A parser takes tokens from the front of those to come. It knows the place of the
last token taken, where most errors are reported, and it keeps the scopes and the
warnings of the program so far.
-/

namespace AccumulatorC

/-- What a parser has at hand. -/
structure ParseState where
  /-- The tokens to come. -/
  tokens : List (Located Token)
  /-- At least the number of tokens to come. -/
  bound : Nat
  /-- The place of the last token taken. -/
  last : Location
  scopes : Scopes
  /-- The innermost scope. -/
  scope : ScopeId
  /-- What the function around returns. -/
  result : Option Ty
  warnings : List (Located Conversion)

/-- A parser. -/
abbrev Parser (α : Type) := StateT ParseState (Except (Stop (Located ParseError))) α

namespace Parser

/-- Fails at a place. -/
def failAt {α : Type} (cause : ParseError) (location : Location) : Parser α :=
  throw (.diagnosis ⟨cause, location⟩)

/-- Fails at the last token taken. -/
def fail {α : Type} (cause : ParseError) : Parser α := do
  failAt cause (← get).last

/-- The place of the last token taken. -/
def last : Parser Location := return (← get).last

/-- The innermost scope. -/
def scope : Parser ScopeId := return (← get).scope

/-- At least the number of tokens to come, for what takes a token in every round. -/
def bound : Parser Nat := return (← get).bound

/-- The token to come, if there is one. -/
def peek : Parser (Option Token) := return (← get).tokens.head?.map (·.value)

/-- The place of the token to come, or of the last one when there is none. -/
def peekLocation : Parser Location := do
  let state ← get
  return state.tokens.head?.elim state.last (·.location)

/-- Takes a token. -/
def next : Parser (Located Token) := do
  let state ← get
  match state.tokens with
  | token :: rest =>
      set { state with tokens := rest, last := token.location }
      return token
  | [] => fail .unexpectedEnd

/-- Takes a certain token if it comes next, and tells whether it did. -/
def optional (token : Token) : Parser Bool := do
  if (← peek) = some token then
    let _ ← next
    return true
  else return false

/-- Takes a token that must be a certain one. -/
def expect (token : Token) : Parser Unit := do
  match (← peek) with
  | none => fail (.missingToken token)
  | some _ =>
      let found ← next
      if found.value ≠ token then fail (.unexpectedToken token found.value)

/-- Takes a name. -/
def identifier : Parser (Located String) := do
  let token ← next
  match token.value with
  | .identifier name => return ⟨name, token.location⟩
  | _ => fail .expectedIdentifier

/-- Stars after a type; each makes a pointer to what stands before it. -/
def stars : Nat → Ty → Parser Ty
  | 0, type => return type
  | count + 1, type => do
      if ← optional (.mark .star) then stars count (.pointer type) else return type

/-- Takes a type. -/
def type : Parser Ty := do
  let token ← next
  match token.value with
  | .keyword .voidType => stars (← bound) .void
  | .keyword .charType => stars (← bound) .char
  | .keyword .intType => stars (← bound) .int
  | _ => fail .expectedType

/-- Adds warnings to those so far. -/
def warn (warnings : List (Located Conversion)) : Parser Unit :=
  modify fun state => { state with warnings := state.warnings ++ warnings }

/-- Takes over what a rule gives. -/
def checked {α : Type} (result : Checked α) : Parser α :=
  match result with
  | .ok value => return value
  | .error ⟨cause, location⟩ => failAt cause location

/-- Takes over what was built, with its warnings. -/
def built {α : Type} (result : Checked (Noted α)) : Parser α := do
  let noted ← checked result
  warn noted.warnings
  return noted.value

/-- Notes the warnings of storing a value in something of a type. -/
def bindValue (type : Ty) (value : Expr) : Parser Unit := do
  warn (← checked (Checked.bindValue type value))

/-- Changes the scopes. -/
def withScopes {α : Type} (change : Scopes → Except Breakdown (α × Scopes)) : Parser α := do
  let state ← get
  match change state.scopes with
  | .ok (value, scopes) =>
      set { state with scopes }
      return value
  | .error cause => throw (.breakdown cause)

/-- Enters a new scope in another one. -/
def enterScope (parent : ScopeId) : Parser ScopeId := withScopes (·.enter parent)

/-- Takes bytes of a frame that belong to no symbol. -/
def reserve (scope : ScopeId) (bytes : Nat) : Parser Unit :=
  withScopes fun scopes => (scopes.reserve scope bytes).map ((), ·)

/-- Declares a name; an error is reported at the name. -/
def declare (scope : ScopeId) (name : Located String) (type : Ty) (external : Bool) :
    Parser Symbol := do
  let state ← get
  match state.scopes.declare scope name.value name.location type external with
  | .ok (symbol, scopes) =>
      set { state with scopes }
      return symbol
  | .error stop => throw (stop.map fun cause => ⟨.scope cause, name.location⟩)

/-- The symbol that a name means here; an error is reported at the name. -/
def resolve (name : String) (location : Location) : Parser Symbol := do
  let state ← get
  match state.scopes.lookup state.scope name with
  | .ok symbol => return symbol
  | .error stop => throw (stop.map fun cause => ⟨.scope cause, location⟩)

/-- Refuses a variable without a value. -/
def requireVariable (type : Ty) (name : Located String) : Parser Unit := do
  if type.isVoid then failAt (.voidVariable name.value) name.location

/-- The rest of a list separated by commas, of at least one element and at most as
many as given. -/
def separated {α : Type} (element : Parser α) : Nat → Parser (List α)
  | 0 => fail .unexpectedEnd
  | count + 1 => do
      let first ← element
      if ← optional (.mark .comma) then return first :: (← separated element count)
      else return [first]

end Parser

end AccumulatorC
