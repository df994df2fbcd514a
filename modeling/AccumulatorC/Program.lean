import AccumulatorC.Scope

/-!
# Programs

The tree of a program. Every expression carries its type, the scope it stands in,
whether it is built from literals alone, and its place; names are already resolved
to symbols. Stepping operators appear as an assignment of the neighbouring value.
-/

namespace AccumulatorC

/-- Operators with two operands. -/
inductive BinaryOp
  | add
  | sub
  | mul
  | div
  | and
  | or
  | equal
  | notEqual
  | less
  | lessOrEqual
  | greater
  | greaterOrEqual
  | shiftLeft
  | shiftRight
  deriving DecidableEq, Repr

/-- Operators with one operand. `increment` and `decrement` only give the
neighbouring value and change nothing. -/
inductive UnaryOp
  | plus
  | negate
  | addressOf
  | deref
  | increment
  | decrement
  deriving DecidableEq, Repr

/-- What every expression carries. -/
structure Note where
  type : Ty
  scope : ScopeId
  constant : Bool
  location : Location
  deriving Repr

/-- An expression. -/
inductive Expr
  | number (note : Note) (value : UInt16)
  | string (note : Note) (bytes : List UInt8)
  | name (note : Note) (symbol : Symbol)
  | assign (note : Note) (target value : Expr)
  | binary (note : Note) (op : BinaryOp) (left right : Expr)
  | unary (note : Note) (op : UnaryOp) (operand : Expr)
  | call (note : Note) (function : Symbol) (arguments : List Expr)
  deriving Repr

namespace Expr

/-- What the expression carries. -/
def note : Expr → Note
  | number note _ | string note _ | name note _ | assign note _ _ | binary note _ _ _
  | unary note _ _ | call note _ _ => note

/-- The type of the expression's value. -/
def type (e : Expr) : Ty := e.note.type

/-- The place of the expression. -/
def location (e : Expr) : Location := e.note.location

/-- Whether the expression names a place in memory. -/
def isPlace : Expr → Bool
  | name _ _ => true
  | unary _ .deref _ => true
  | _ => false

/-- Whether the expression is a string literal. -/
def isString : Expr → Bool
  | string _ _ => true
  | _ => false

/-- Whether the expression is a call. -/
def isCall : Expr → Bool
  | call _ _ _ => true
  | _ => false

end Expr

/-- A declared variable with its initial value, if it has one. -/
structure Declaration where
  symbol : Symbol
  initial : Option Expr
  deriving Repr

/-- A statement. -/
inductive Statement
  | declaration (declared : Declaration)
  | expression (value : Expr)
  | returning (value : Option Expr) (scope : ScopeId) (location : Location)
  | branch (condition : Expr) (yes : Statement) (no : Option Statement) (location : Location)
  | loop (condition : Expr) (body : Statement) (location : Location)
  | block (scope : ScopeId) (body : List Statement) (location : Location)
  deriving Repr

/-- A function. The scope of its parameters also holds the return address; its body
is a block. -/
structure Function where
  symbol : Symbol
  parameters : ScopeId
  scope : ScopeId
  body : List Statement
  location : Location
  deriving Repr

/-- What a program consists of. -/
inductive Item
  | global (declared : Declaration)
  | function (defined : Function)
  deriving Repr

/-- The name of the function that is called first. -/
def mainName : String := "main"

/-- A program and its scopes. -/
structure Program where
  items : List Item
  scopes : Scopes
  deriving Repr

end AccumulatorC
