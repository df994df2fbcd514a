import AccumulatorC.Lowering.Expression

/-!
# Lowering statements

Each block lowers the stack pointer by its frame and raises it again at its end. A
return raises it by the frames of the blocks it leaves and goes on at the end of
the function, where the frame of the function's own block is released.
-/

namespace AccumulatorC

open Lowering

/-- The function that is lowered. -/
structure Frame where
  scopes : Scopes
  name : String
  /-- Bytes of the function's result. -/
  resultSize : Nat
  /-- The scope of the function's body. -/
  scope : ScopeId

namespace Frame

/-- Stores the initial value of a local variable. -/
def setInitial (frame : Frame) (declared : Declaration) : Lowering Unit := do
  match declared.initial with
  | none => pure ()
  | some value =>
      let r ← value.lower frame.scopes
      let r ← coerce r declared.symbol.type.size
      store (← frame.scopes.address declared.symbol value.note.scope) r
      free r

/-- Evaluates an expression for what it does. -/
def discard (frame : Frame) (value : Expr) : Lowering Unit := do
  let result ← match value with
    | .call note function arguments => do
        visit note.location
        lowerCall frame.scopes function arguments
    | _ => some <$> value.lower frame.scopes
  match result with
  | some r => free r
  | none => pure ()

/-- Compares a value with zero. -/
def test (frame : Frame) (condition : Expr) : Lowering Unit := do
  let r ← condition.lower frame.scopes
  match r.halves with
  | some (high, low) =>
      preservingAccumulator do
        emit (.copy .a high)
        emit (.accumulate .or (.reg low))
        emit (.accumulate .compare (.number 0))
  | none =>
      if r = .a then emit (.accumulate .compare (.number 0))
      else
        preservingAccumulator do
          emit (.copy .a r)
          emit (.accumulate .compare (.number 0))
  free r

/-- Leaves a value where the caller expects it. -/
def leaveResult (frame : Frame) (value : Expr) : Lowering Unit := do
  let r ← value.lower frame.scopes
  let r ← coerce r frame.resultSize
  if r ≠ .result frame.resultSize then emit (.copy (.result frame.resultSize) r)
  free r

/-- Leaves the function from a scope. -/
def leave (frame : Frame) (value : Option Expr) (scope : ScopeId) : Lowering Unit := do
  match value with
  | some value => frame.leaveResult value
  | none => pure ()
  release (← lift (frame.scopes.framesInside scope frame.scope))
  emit (.jump .always (.exit frame.name))

/-- After a statement nothing may be left on the stack. -/
def settle : Lowering Unit := do
  if (← Lowering.get).depth ≠ 0 then lift (.error .unbalancedStack)

end Frame

mutual

/-- Lowers a statement. -/
def Statement.lower (frame : Frame) : Statement → Lowering Unit
  | .declaration declared => do
      frame.setInitial declared
      Frame.settle
  | .expression value => do
      frame.discard value
      Frame.settle
  | .returning value scope location => do
      visit location
      frame.leave value scope
      Frame.settle
  | .branch condition yes no location => do
      visit location
      let n ← newLabel .branch
      frame.test condition
      emit (.jump .equal (.inner .branch .no n))
      mark (.inner .branch .yes n)
      yes.lower frame
      emit (.jump .always (.inner .branch .exit n))
      mark (.inner .branch .no n)
      match no with
      | some no => no.lower frame
      | none => pure ()
      mark (.inner .branch .exit n)
      Frame.settle
  | .loop condition body location => do
      visit location
      let n ← newLabel .loop
      mark (.inner .loop .start n)
      frame.test condition
      emit (.jump .equal (.inner .loop .exit n))
      mark (.inner .loop .contents n)
      body.lower frame
      emit (.jump .always (.inner .loop .start n))
      mark (.inner .loop .exit n)
      Frame.settle
  | .block scope body _ => do
      let size ← lift (frame.scopes.frame scope)
      reserve size
      lowerStatements frame body
      release size
      Frame.settle

/-- Lowers statements one after the other. -/
def lowerStatements (frame : Frame) : List Statement → Lowering Unit
  | [] => pure ()
  | statement :: rest => do
      statement.lower frame
      lowerStatements frame rest

end

end AccumulatorC
