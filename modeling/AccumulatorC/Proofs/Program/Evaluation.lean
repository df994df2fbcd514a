import AccumulatorC.Lowering.Expression
import AccumulatorC.Program.Fold
import AccumulatorC.Proofs.Machine.Semantics
import AccumulatorC.Proofs.Program.Nodes

/-!
# The values of expressions

What an expression means, apart from any code. The memory is bytes, with each local in its slot
and each variable at its label. Operands are evaluated from left to right and an assigned value
before the pointer through which it is stored; operators calculate as on constants, at the size
of their type. There is no value where a division by zero is met, where a byte is read that has
no value, or where a byte is touched that is kept for the stack.
-/

namespace AccumulatorC

/-- Where an expression is evaluated. -/
structure Site where
  scopes : Scopes
  /-- The scope of the function's parameters. -/
  outer : ScopeId
  platform : Platform
  /-- The stack pointer when the function was entered. -/
  entry : UInt16
  /-- Bytes on the stack below it when evaluation begins. -/
  used : Nat
  /-- Bytes below it that are kept for the stack, the used ones among them. -/
  room : Nat
  room_le : room ≤ used + addressLimit

/-- What evaluation changes. -/
structure World where
  /-- The bytes that have a value. -/
  memory : UInt16 → Option UInt8
  /-- What the calls to come bring back. -/
  outcomes : List Returned

/-- A calculation in a world that need not have a result. -/
abbrev Evaluation := StateT World Option

/-- Two calculations come to an end if the first one does and the second one does from where it
ends. -/
theorem Evaluation.bind_eq_some {α β : Type} {first : Evaluation α} {second : α → Evaluation β}
    {world : World} {result : β × World} :
    (first >>= second) world = some result ↔
      ∃ value middle, first world = some (value, middle) ∧ second value middle = some result := by
  show (first world).bind (fun done => second done.1 done.2) = some result ↔ _
  rw [Option.bind_eq_some_iff]
  constructor
  · intro h
    obtain ⟨done, hfirst, hsecond⟩ := h
    exact ⟨done.1, done.2, hfirst, hsecond⟩
  · intro h
    obtain ⟨value, middle, hfirst, hsecond⟩ := h
    exact ⟨(value, middle), hfirst, hsecond⟩

theorem Evaluation.pure_eq_some {α : Type} {value : α} {world : World} {result : α × World} :
    (pure value : Evaluation α) world = some result ↔ (value, world) = result := by
  show some (value, world) = some result ↔ _
  rw [Option.some.injEq]

/-- The value of so many bytes at an address, the low byte first, if they have values. -/
def knownAt (memory : UInt16 → Option UInt8) (size : Nat) (x : UInt16) : Option UInt16 := do
  let low ← memory x
  if size = 2 then return word (← memory (x + 1)) low else return low.toUInt16

/-- Bytes with so many bytes of a value at an address, the low byte first. -/
def setAt (memory : UInt16 → Option UInt8) (size : Nat) (x value : UInt16) : UInt16 → Option UInt8 :=
  if size = 2 then
    Function.update (Function.update memory x value.toUInt8) (x + 1) (highByte value)
  else Function.update memory x value.toUInt8

namespace Site

variable (site : Site)

/-- The stack pointer when evaluation begins. -/
def start : UInt16 := site.entry - .ofNat site.used

/-- How far a byte is below the stack pointer that the function was entered with. The bytes that
are on the stack when evaluation begins come after all those that are not. -/
def level (x : UInt16) : Nat := site.used + (site.start - 1 - x).toNat

/-- The program may touch a byte: it is not kept for the stack below what is used of it. -/
def Open (x : UInt16) : Prop := site.room ≤ site.level x

/-- The program may touch so many bytes at an address. -/
def Allows (size : Nat) (x : UInt16) : Prop := site.Open x ∧ (size = 2 → site.Open (x + 1))

instance (x : UInt16) : Decidable (site.Open x) := inferInstanceAs (Decidable (_ ≤ _))

instance (size : Nat) (x : UInt16) : Decidable (site.Allows size x) :=
  inferInstanceAs (Decidable (_ ∧ _))

/-- Bytes that are on the stack when evaluation begins. -/
def above : Nat := (site.platform.base - site.start).toNat

/-- A byte that is on the stack when evaluation begins. Functions that are called leave it
alone. -/
def OnStack (x : UInt16) : Prop := site.used + addressLimit ≤ site.level x + site.above

instance (x : UInt16) : Decidable (site.OnStack x) := inferInstanceAs (Decidable (_ ≤ _))

/-- The place of a symbol: its slot, or its label. -/
def place (symbol : Symbol) : UInt16 :=
  match symbol.storage with
  | .framed _ => site.entry + .ofInt (site.scopes.slot site.outer symbol)
  | .labelled | .external => site.platform.address (.symbol symbol.name)

/-- The value of so many bytes at an address. -/
def fetch (size : Nat) (x : UInt16) : Evaluation UInt16 := fun world =>
  if site.Allows size x then (knownAt world.memory size x).map (·, world) else none

/-- Stores so many bytes of a value. -/
def store (size : Nat) (x value : UInt16) : Evaluation Unit := fun world =>
  if site.Allows size x then
    some ((), { world with memory := setAt world.memory size x value })
  else none

end Site

/-- What an operator makes of two values of a size. -/
def BinaryOp.evaluate (op : BinaryOp) (size : Nat) (left right : UInt16) : Evaluation UInt16 :=
  fun world => ((op.fold size left right).map (cut size)).map (·, world)

/-- The result of a call: what the function brings back in the register for it, and in all bytes
that are not on the stack. -/
def Symbol.returned (function : Symbol) (site : Site) : Evaluation UInt16 := fun world =>
  match world.outcomes with
  | outcome :: others =>
      some (outcome.registers.read (.result function.resultSize),
        { world with
          memory := fun x => if site.OnStack x then world.memory x else some (outcome.memory x)
          outcomes := others })
  | [] => none

mutual

/-- The value of an expression, whose string literals are numbered from a number on. -/
def Expr.evaluate (site : Site) (n : Nat) : Expr → Evaluation UInt16
  | .number _ value => pure value
  | .string _ _ => pure (site.platform.address (.string true n))
  | .name note symbol => site.fetch note.type.size (site.place symbol)
  | .assign _ target value => do
      let v ← value.evaluate site n
      let v := cut target.type.size v
      match target with
      | .name _ symbol => site.store target.type.size (site.place symbol) v
      | .unary _ .deref pointer =>
          let x ← pointer.evaluate site (n + value.strings)
          site.store target.type.size x v
      | _ => failure
      return v
  | .binary note op left right => do
      let l ← left.evaluate site n
      let r ← right.evaluate site (n + left.strings)
      op.evaluate note.type.size (cut note.type.size l) (cut note.type.size r)
  | .unary _ .plus operand => operand.evaluate site n
  | .unary _ .negate operand => do
      let v ← operand.evaluate site n
      return cut operand.type.size (0 - v)
  | .unary _ .addressOf operand =>
      match operand with
      | .name _ symbol => pure (site.place symbol)
      | .unary _ .deref pointer => pointer.evaluate site n
      | _ => failure
  | .unary note .deref operand => do
      let x ← operand.evaluate site n
      site.fetch note.type.size x
  | .unary _ .increment operand => do
      let v ← operand.evaluate site n
      return cut operand.type.size (v + .ofNat operand.type.stride)
  | .unary _ .decrement operand => do
      let v ← operand.evaluate site n
      return cut operand.type.size (v - .ofNat operand.type.stride)
  | .call _ function arguments => do
      let _ ← evaluateArguments site n function.parameters arguments
      function.returned site

/-- The values of arguments, each at the size of its parameter. -/
def evaluateArguments (site : Site) (n : Nat) : List Ty → List Expr → Evaluation (List UInt16)
  | parameter :: parameters, argument :: arguments => do
      let v ← argument.evaluate site n
      let rest ← evaluateArguments site (n + argument.strings) parameters arguments
      return cut parameter.size v :: rest
  | _, _ => return []

end

variable {site : Site} {n : Nat}

/-- A call evaluates its arguments and takes the next outcome. -/
theorem Expr.evaluate_call {note : Note} {function : Symbol} {arguments : List Expr} :
    (Expr.call note function arguments).evaluate site n = (do
      let _ ← evaluateArguments site n function.parameters arguments
      function.returned site) := by
  rw [Expr.evaluate]

theorem evaluateArguments_nil {parameters : List Ty} :
    evaluateArguments site n parameters [] = pure [] := by
  rw [evaluateArguments]
  simp

theorem evaluateArguments_cons {parameter : Ty} {parameters : List Ty} {argument : Expr}
    {arguments : List Expr} :
    evaluateArguments site n (parameter :: parameters) (argument :: arguments) = (do
      let v ← argument.evaluate site n
      let rest ← evaluateArguments site (n + argument.strings) parameters arguments
      return cut parameter.size v :: rest) := by
  rw [evaluateArguments]

end AccumulatorC
