import AccumulatorC.Breakdown
import AccumulatorC.Text.Location
import AccumulatorC.Ty

/-!
# Scopes

Scopes are numbered in the order in which they are entered; scope 0 is global and
every other one lies in a scope with a smaller number. A scope keeps its symbols and
the number of bytes that its frame takes on the stack. Frames lie below one another,
the innermost one at the stack pointer, and within a frame the first local has the
highest address.
-/

namespace AccumulatorC

/-- The number of a scope. -/
abbrev ScopeId := Nat

/-- The scope that encloses all others. -/
def globalScope : ScopeId := 0

/-- Where a symbol lives. -/
inductive Storage
  /-- At a label, with bytes of its own. -/
  | labelled
  /-- In the frame of its scope, after so many bytes of earlier locals. -/
  | framed (offset : Nat)
  /-- At a label that is defined elsewhere. -/
  | external
  deriving DecidableEq, Repr

/-- A declared name. -/
structure Symbol where
  name : String
  location : Location
  type : Ty
  storage : Storage
  scope : ScopeId
  deriving Repr

/-- One scope: the scope around it, its symbols, the latest first, and the bytes of its
frame. -/
structure Scope where
  parent : Option ScopeId
  symbols : List Symbol
  frame : Nat
  deriving Repr

/-- The symbols in the order of their declaration. -/
def Scope.inOrder (scope : Scope) : List Symbol := scope.symbols.reverse

/-- A name that cannot be declared or found. -/
inductive ScopeError
  | redeclaration (name : String) (previous : Location)
  | undeclared (name : String)
  deriving Repr

/-- The text of a scope error. -/
def ScopeError.message : ScopeError → String
  | .redeclaration name previous =>
      s!"Redeclaration of `{name}`, previously declared at {previous.text}"
  | .undeclared name => s!"Undeclared identifier `{name}`"

/-- All scopes of a program, by number. -/
structure Scopes where
  list : List Scope
  deriving Repr

namespace Scopes

/-- The global scope alone, without symbols. -/
def initial : Scopes := ⟨[⟨none, [], 0⟩]⟩

/-- The scope with a number. -/
def get (scopes : Scopes) (id : ScopeId) : Except Breakdown Scope :=
  match scopes.list[id]? with
  | some scope => .ok scope
  | none => .error .unknownScope

/-- Puts a scope in the place of the one with the same number. -/
def set (scopes : Scopes) (id : ScopeId) (scope : Scope) : Scopes := ⟨scopes.list.set id scope⟩

/-- Enters a new scope in another one and gives its number. -/
def enter (scopes : Scopes) (parent : ScopeId) : Except Breakdown (ScopeId × Scopes) := do
  let _ ← scopes.get parent
  return (scopes.list.length, ⟨scopes.list ++ [⟨some parent, [], 0⟩]⟩)

/-- The enclosing scope; the global one has none. -/
def parent (scopes : Scopes) (id : ScopeId) : Except Breakdown (Option ScopeId) :=
  (scopes.get id).map (·.parent)

/-- Bytes that the frame of a scope takes. -/
def frame (scopes : Scopes) (id : ScopeId) : Except Breakdown Nat :=
  (scopes.get id).map (·.frame)

/-- The symbols of a scope in the order of their declaration. -/
def symbols (scopes : Scopes) (id : ScopeId) : Except Breakdown (List Symbol) :=
  (scopes.get id).map (·.inOrder)

/-- A scope and those around it, from the inside out. -/
def chain (scopes : Scopes) (id : ScopeId) : List ScopeId :=
  id :: match (scopes.list[id]?).bind (·.parent) with
    | some parent => if parent < id then scopes.chain parent else []
    | none => []
  termination_by id

/-- Takes bytes of a frame that belong to no symbol. -/
def reserve (scopes : Scopes) (id : ScopeId) (bytes : Nat) : Except Breakdown Scopes := do
  let scope ← scopes.get id
  return scopes.set id { scope with frame := ← addBytes scope.frame bytes }

/-- The storage of a symbol that is declared in a scope, and the frame after it.
Symbols of the global scope live at labels, and what is defined elsewhere takes no
bytes. -/
def allot (scope : Scope) (type : Ty) (external : Bool) : Except Breakdown (Storage × Nat) :=
  if external then .ok (.external, scope.frame)
  else match scope.parent with
    | none => .ok (.labelled, scope.frame)
    | some _ => (addBytes scope.frame type.size).map fun frame => (.framed scope.frame, frame)

/-- Declares a name in a scope of the table at hand, or gives the reason why it cannot be
declared there. In both cases the table is left as it has become by then. -/
def tryDeclare (id : ScopeId) (name : String) (location : Location) (type : Ty)
    (external : Bool) : StateT Scopes (Except Breakdown) (Except ScopeError Symbol) := do
  let scopes ← MonadState.get
  let scope ← scopes.get id
  match scope.symbols.find? (·.name = name) with
  | some previous => return .error (.redeclaration name previous.location)
  | none =>
      let (storage, frame) ← allot scope type external
      let symbol : Symbol := ⟨name, location, type, storage, id⟩
      modify fun scopes => scopes.set id ⟨scope.parent, symbol :: scope.symbols, frame⟩
      return .ok symbol

/-- Declares a name in a scope, and stops where it cannot be declared. -/
def declare (scopes : Scopes) (id : ScopeId) (name : String) (location : Location) (type : Ty)
    (external : Bool) : Except (Stop ScopeError) (Symbol × Scopes) := do
  match ← Breakdown.lift ((tryDeclare id name location type external).run scopes) with
  | (.ok symbol, after) => return (symbol, after)
  | (.error cause, _) => throw (.diagnosis cause)

/-- The symbol that a name means in a scope: that of the innermost scope around it
which declares the name. -/
def lookup? (scopes : Scopes) (id : ScopeId) (name : String) : Option Symbol :=
  (scopes.chain id).findSome? fun id =>
    (scopes.list[id]?).bind fun scope => scope.symbols.find? (·.name = name)

/-- As `lookup?`, with the reason when there is no such symbol. -/
def lookup (scopes : Scopes) (id : ScopeId) (name : String) :
    Except (Stop ScopeError) Symbol := do
  let _ ← Breakdown.lift (scopes.get id)
  match scopes.lookup? id name with
  | some symbol => return symbol
  | none => throw (.diagnosis (.undeclared name))

/-- Bytes of the frames from a scope outwards, up to but without another scope
around it. -/
def framesInside (scopes : Scopes) (id outer : ScopeId) : Except Breakdown Nat := do
  sumBytes (← ((scopes.chain id).takeWhile (· ≠ outer)).mapM scopes.frame)

/-- Distance from the stack pointer to a symbol, seen from a scope whose frame is the
innermost one. There is none for a symbol at a label, nor for one whose scope does
not enclose the given one. -/
def stackOffset (scopes : Scopes) (symbol : Symbol) (id : ScopeId) :
    Except Breakdown (Option Nat) :=
  match symbol.storage with
  | .labelled | .external => .ok none
  | .framed offset => do
      let inside ← scopes.framesInside id symbol.scope
      if symbol.scope ∈ scopes.chain id then
        let top ← addBytes inside (← scopes.frame symbol.scope)
        return some (← takeBytes (← takeBytes top offset) symbol.type.size)
      else return none

end Scopes

end AccumulatorC
