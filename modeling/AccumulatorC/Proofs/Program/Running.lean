import AccumulatorC.Lowering.Statement
import AccumulatorC.Proofs.Program.Evaluation
import AccumulatorC.Proofs.Program.Frames

/-!
# What functions do

What statements and functions mean, apart from any code. The locals of a block have no value when
the block is entered, so nothing comes of a function that reads one of them before anything has
been stored in it. A loop goes on for any number of rounds; to calculate what it does, a bound for
them is given.
-/

namespace AccumulatorC

/-- A function that runs. -/
structure Activation where
  frame : Frame
  /-- The scope of the function's parameters. -/
  outer : ScopeId
  platform : Platform
  /-- The stack pointer when the function was entered. -/
  entry : UInt16

/-- How a statement ends: what follows it comes next, or the function is over. -/
inductive Ending
  | further
  | returned (value : Option UInt16)
  deriving DecidableEq

namespace Evaluation

/-- What follows is done unless the function is over. -/
def following (first second : Evaluation Ending) : Evaluation Ending := do
  match ← first with
  | .further => second
  | .returned value => return .returned value

/-- A loop with at most so many rounds. -/
def rounds (condition : Evaluation UInt16) (body : Evaluation Ending) : Nat → Evaluation Ending
  | 0 => failure
  | count + 1 => do
      if (← condition) = 0 then return .further
      else following body (rounds condition body count)

theorem following_eq_some {first second : Evaluation Ending} {world world' : World}
    {ending : Ending} :
    following first second world = some (ending, world') ↔
      (∃ middle, first world = some (.further, middle) ∧ second middle = some (ending, world')) ∨
      ∃ value, ending = .returned value ∧ first world = some (.returned value, world') := by
  rw [following, bind_eq_some]
  constructor
  · rintro ⟨ending', middle, hfirst, hrest⟩
    cases ending' with
    | further => exact .inl ⟨middle, hfirst, hrest⟩
    | returned value =>
        rw [pure_eq_some] at hrest
        cases hrest
        exact .inr ⟨value, rfl, hfirst⟩
  · rintro (⟨middle, hfirst, hsecond⟩ | ⟨value, rfl, hfirst⟩)
    · exact ⟨.further, middle, hfirst, hsecond⟩
    · exact ⟨.returned value, world', hfirst, rfl⟩

end Evaluation

namespace Activation

variable (a : Activation)

/-- Bytes below the stack pointer at the entry that are kept for the stack: the frames of the
function, and two bytes for what its operations push. -/
def room : Nat := a.frame.scopes.deepest a.outer + 2

/-- Bytes of the frames around a scope of the function. -/
def height (scope : ScopeId) : Nat := a.frame.scopes.frames scope a.outer

/-- Where the expressions of a scope are evaluated: the frames around them are on the stack. A
stack that does not fit into memory leaves no byte that could be touched. -/
def site (scope : ScopeId) : Site where
  scopes := a.frame.scopes
  outer := a.outer
  platform := a.platform
  entry := a.entry
  used := a.height scope
  room := if a.room ≤ addressLimit then a.room else a.height scope + addressLimit
  room_le := by split <;> omega

/-- How far a byte is below the stack pointer that the function was entered with. -/
def below (x : UInt16) : Nat := (a.entry - 1 - x).toNat

/-- A byte of the frame of a block. -/
def InFrame (inner : ScopeId) (x : UInt16) : Prop :=
  a.height inner ≤ a.below x + a.frame.scopes.frameOf inner ∧ a.below x < a.height inner

instance (inner : ScopeId) (x : UInt16) : Decidable (a.InFrame inner x) :=
  inferInstanceAs (Decidable (_ ∧ _))

/-- The world in which a block has been entered: its locals have no values. -/
def enter (inner : ScopeId) (world : World) : World :=
  { world with memory := fun x => if a.InFrame inner x then none else world.memory x }

end Activation

/-- The value of an expression, in the scope that it stands in. -/
def Expr.valueIn (a : Activation) (n : Nat) (e : Expr) : Evaluation UInt16 :=
  e.evaluate (a.site e.note.scope) n

/-- A local variable gets its initial value, if it has one. -/
def Declaration.run (a : Activation) (n : Nat) (declared : Declaration) : Evaluation Unit :=
  match declared.initial with
  | none => pure ()
  | some value => do
      let v ← value.valueIn a n
      let site := a.site value.note.scope
      site.store declared.symbol.type.size (site.place declared.symbol)
        (cut declared.symbol.type.size v)

/-- What a function returns: nothing, or a value at the size of the result. -/
def Activation.result (a : Activation) (n : Nat) : Option Expr → Evaluation (Option UInt16)
  | none => return none
  | some value => do return some (cut a.frame.resultSize (← value.valueIn a n))

mutual

/-- What a statement does with at most so many rounds of each loop. Its string literals are
numbered from a number on. -/
def Statement.run (a : Activation) (count n : Nat) : Statement → Evaluation Ending
  | .declaration declared => do
      declared.run a n
      return .further
  | .expression value => do
      let _ ← value.valueIn a n
      return .further
  | .returning value _ _ => do return .returned (← a.result n value)
  | .branch condition yes no _ => do
      if (← condition.valueIn a n) ≠ 0 then yes.run a count (n + condition.strings)
      else
        match no with
        | some no => no.run a count (n + condition.strings + yes.strings)
        | none => return .further
  | .loop condition body _ =>
      Evaluation.rounds (condition.valueIn a n) (body.run a count (n + condition.strings)) count
  | .block inner body _ => do
      modify (a.enter inner)
      runAll a count n body

/-- What statements do one after the other. -/
def runAll (a : Activation) (count n : Nat) : List Statement → Evaluation Ending
  | [] => return .further
  | statement :: rest =>
      Evaluation.following (statement.run a count n) (runAll a count (n + statement.strings) rest)

end

/-- What the other side of a branch does, if there is one. -/
def runElse (a : Activation) (count n : Nat) (no : Option Statement) : Evaluation Ending :=
  match no with
  | some no => no.run a count n
  | none => return .further

/-- A branch runs the part that its condition chooses. -/
theorem Statement.run_branch (a : Activation) (count n : Nat) (condition : Expr) (yes : Statement)
    (no : Option Statement) (location : Location) :
    (Statement.branch condition yes no location).run a count n = (do
      if (← condition.valueIn a n) ≠ 0 then yes.run a count (n + condition.strings)
      else runElse a count (n + condition.strings + yes.strings) no) := by
  cases no <;> rw [Statement.run] <;> rfl

/-- What a function does: it enters the block of its body. -/
def Activation.run (a : Activation) (count n : Nat) (body : List Statement) : Evaluation Ending := do
  modify (a.enter a.frame.scope)
  runAll a count n body

end AccumulatorC
