import AccumulatorC.Lowering.Unit
import AccumulatorC.Proofs.Lowering.Ensures

/-!
# The parts of statements

Statements whose lowering has an optional part, as a sequence of steps with that part in its
place.
-/

namespace AccumulatorC

open Lowering

namespace Frame

/-- Gives a register back, if there is one. -/
def giveBack (result : Option Reg) : Lowering Unit :=
  match result with
  | some r => free r
  | none => pure ()

/-- The value of an expression that stands as a statement; a call need not have one. -/
def evaluate (frame : Frame) (value : Expr) : Lowering (Option Reg) :=
  match value with
  | .call note function arguments => do
      visit note.location
      lowerCall frame.scopes function arguments
  | _ => some <$> value.lower frame.scopes

/-- Compares the content of a register with zero. -/
def compareZero (r : Reg) : Lowering Unit :=
  match r.halves with
  | some (high, low) =>
      preservingAccumulator do
        emit (.copy .a high)
        emit (.accumulate .or (.reg low))
        emit (.accumulate .compare (.number 0))
  | none =>
      if r = .a then emit (.accumulate .compare (.number 0))
      else
        preservingAccumulator do
          emit (.copy .a r)
          emit (.accumulate .compare (.number 0))

/-- Leaves a value, if there is one, where the caller expects it. -/
def leaveValue (frame : Frame) (value : Option Expr) : Lowering Unit :=
  match value with
  | some value => frame.leaveResult value
  | none => pure ()

/-- Goes on at the end of the function from a scope, without the frames inside that of the
function. -/
def goToEnd (frame : Frame) (scope : ScopeId) : Lowering Unit := do
  release (← lift (frame.scopes.framesInside scope frame.scope))
  emit (.jump .always (.exit frame.name))

/-- A value that nothing uses is evaluated and its register given back, calls included. -/
theorem discard_eq (frame : Frame) (value : Expr) :
    frame.discard value = frame.evaluate value >>= giveBack := by
  cases value with
  | call => exact (bind_assoc _ _ _).symm
  | _ => rfl

theorem test_eq (frame : Frame) (condition : Expr) :
    frame.test condition = (do
      let r ← condition.lower frame.scopes
      compareZero r
      free r) := by
  unfold test compareZero
  congr
  funext r
  cases r.halves with
  | some => rfl
  | none => by_cases h : r = .a <;> simp only [h, if_true, if_false]

theorem leave_eq (frame : Frame) (value : Option Expr) (scope : ScopeId) :
    frame.leave value scope = frame.leaveValue value >>= fun _ => frame.goToEnd scope := by
  unfold leave leaveValue goToEnd
  cases value with
  | some value => rfl
  | none => simp only [pure_bind]

end Frame

/-- The other side of a branch, if there is one. -/
def lowerElse (frame : Frame) (no : Option Statement) : Lowering Unit :=
  match no with
  | some no => no.lower frame
  | none => pure ()

/-- A branch is its test, a jump and its parts, whether it has two of them or one. -/
theorem Statement.lower_branch (frame : Frame) (condition : Expr) (yes : Statement)
    (no : Option Statement) (location : Location) :
    (Statement.branch condition yes no location).lower frame = (do
      visit location
      let n ← newLabel .branch
      frame.test condition
      emit (.jump .equal (.inner .branch .no n))
      mark (.inner .branch .yes n)
      yes.lower frame
      emit (.jump .always (.inner .branch .exit n))
      mark (.inner .branch .no n)
      lowerElse frame no
      mark (.inner .branch .exit n)
      Frame.settle) := by
  rw [Statement.lower]
  cases no with
  | some no => rfl
  | none => simp only [lowerElse, pure_bind]

end AccumulatorC
