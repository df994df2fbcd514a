import AccumulatorC.Proofs.Lowering.Calling
import AccumulatorC.Proofs.Lowering.Events
import AccumulatorC.Proofs.Lowering.StatementParts
import AccumulatorC.Proofs.Program.Spans

/-!
# Places while lowering

Lowering reports an error at the place that it works on. It moves from place to place of the program
that is lowered, and each item of the program begins with such a move. So when all places of the
program are good, errors are reported at good places only.
-/

namespace AccumulatorC

/-- Whatever happens, no place is moved to that is not good. -/
def Event.At (good : Location → Prop) : Event → Prop
  | .enters state => good state.here
  | _ => True

section Event

variable {good : Location → Prop}

@[simp] theorem Event.at_enters {state : LowerState} :
    (Event.enters state).At good ↔ good state.here := .rfl

@[simp] theorem Event.at_emits {line : Line} : (Event.emits line).At good := trivial

@[simp] theorem Event.at_asks {size : Nat} : (Event.asks size).At good := trivial

@[simp] theorem Event.at_stops {cause : Stop LowerError} : (Event.stops cause).At good := trivial

end Event

namespace Lowering

variable {α β : Type} {good : Location → Prop}

/-- From a good place the step only moves to good places. -/
def Moves (good : Location → Prop) (step : Lowering α) : Prop :=
  ∀ state : LowerState, good state.here → Always (Event.At good) step state

/-- From wherever it runs, the step reports errors at good places only. -/
def Blames (good : Location → Prop) (step : Lowering α) : Prop :=
  ∀ state entry, step.run state = .error (.diagnosis entry) → good entry.location

/-- A step that stays at good places reports errors there. -/
theorem Always.location {step : Lowering α} {state : LowerState}
    (h : Always (Event.At good) step state) (hhere : good state.here) {entry : Located LowerError}
    (hrun : step.run state = .error (.diagnosis entry)) : good entry.location := by
  induction step generalizing state with
  | give value => cases hrun
  | stop cause =>
      cases cause with
      | diagnosis cause =>
          cases hrun
          exact hhere
      | breakdown cause => cases hrun
  | look next ih => exact ih state h hhere hrun
  | change f next ih =>
      obtain ⟨hmove, hnext⟩ := List.forall_mem_cons.mp h
      exact ih hnext hmove hrun
  | write line next ih => exact ih (List.forall_mem_cons.mp h).2 hhere (map_eq_error.mp hrun)
  | request size next ih =>
      simp only [run] at hrun
      simp only [Always, events] at h
      cases hfree : state.held.firstFree size with
      | none =>
          rw [hfree] at hrun
          cases hrun
          exact hhere
      | some r =>
          rw [hfree] at hrun h
          obtain ⟨hmove, hnext⟩ := List.forall_mem_cons.mp (List.forall_mem_cons.mp h).2
          exact ih r hnext hmove hrun

/-- A step that stays at good places ends at one. -/
theorem Always.here {step : Lowering α} {state : LowerState}
    (h : Always (Event.At good) step state) (hhere : good state.here) {done : Lowered α}
    (hrun : step.run state = .ok done) : good done.state.here := by
  rcases enters_mem_events hrun with hsame | hmem
  · exact hsame ▸ hhere
  · exact h _ hmem

/-! ## Steps -/

namespace Moves

theorem pure (value : α) : Moves good (Pure.pure value) := fun _ _ => always_pure

/-- Two steps that move to good places only do so together. -/
theorem bind {step : Lowering α} {next : α → Lowering β} (h : Moves good step)
    (hnext : ∀ value, Moves good (next value)) : Moves good (step >>= next) := fun state hstate =>
  always_bind.mpr ⟨h state hstate, fun done hrun =>
    hnext done.value done.state ((h state hstate).here hstate hrun)⟩

theorem map {f : α → β} {step : Lowering α} (h : Moves good step) : Moves good (f <$> step) :=
  fun state hstate => always_map.mpr (h state hstate)

theorem ite {c : Prop} [Decidable c] {yes no : Lowering α} (hyes : Moves good yes)
    (hno : Moves good no) : Moves good (if c then yes else no) := fun state hstate =>
  always_ite.mpr ⟨fun _ => hyes state hstate, fun _ => hno state hstate⟩

theorem fail (cause : LowerError) : Moves good (fail cause : Lowering α) := fun _ _ =>
  always_fail.mpr trivial

theorem lift (result : Except Breakdown α) : Moves good (lift result) := fun _ _ =>
  always_lift.mpr fun _ _ => trivial

theorem get : Moves good get := fun _ _ => always_get

theorem line (l : Line) : Moves good (line l) := fun _ _ => always_line.mpr trivial

theorem emit (instr : Instr) : Moves good (emit instr) := line _

theorem mark (label : Label) : Moves good (mark label) := line _

/-- A visit moves to the place that is visited. -/
theorem visit {location : Location} (h : good location) : Moves good (visit location) := fun _ _ =>
  always_visit.mpr h

theorem newLabel (family : Family) : Moves good (newLabel family) := fun _ hstate =>
  always_newLabel.mpr hstate

theorem allocate (size : Nat) : Moves good (allocate size) := fun _ hstate =>
  always_allocate.mpr ⟨trivial, fun _ _ => hstate, fun _ => trivial⟩

theorem claim (r : Reg) : Moves good (claim r) := fun _ hstate => always_claim.mpr hstate

theorem free (r : Reg) : Moves good (free r) := fun _ hstate => always_free.mpr hstate

theorem push (r : Reg) : Moves good (push r) := fun _ hstate =>
  always_push.mpr ⟨fun _ => ⟨hstate, trivial⟩, fun _ => trivial⟩

theorem shallow (bytes : Nat) : Moves good (shallow bytes) := fun _ hstate =>
  always_shallow.mpr ⟨fun _ => hstate, fun _ => trivial⟩

theorem pop (r : Reg) : Moves good (pop r) := (emit _).bind fun _ => shallow _

theorem reserve (bytes : Nat) : Moves good (reserve bytes) := ite (emit _) (pure ())

theorem release (bytes : Nat) : Moves good (release bytes) := ite (emit _) (pure ())

/-- Steps for the elements of a list move to good places only, if each of them does. -/
theorem forM {step : α → Lowering Unit} (h : ∀ a, Moves good (step a)) (list : List α) :
    Moves good (list.forM step) := by
  induction list with
  | nil => exact pure ()
  | cons a list ih => exact (h a).bind fun _ => ih

/-! ### Operations -/

theorem preservingAccumulator {step : Lowering Unit} (h : Moves good step) :
    Moves good (preservingAccumulator step) := by
  apply (claim .a).bind
  intro found
  exact ite (h.bind fun _ => free _) ((push _).bind fun _ => h.bind fun _ => pop _)

theorem throughAccumulator {step : Lowering Unit} (h : Moves good step) (r : Reg) :
    Moves good (throughAccumulator r step) :=
  ite h (preservingAccumulator ((emit _).bind fun _ => h.bind fun _ => emit _))

theorem accumulate {left right : Reg} {step : Reg → Lowering Unit} (h : ∀ r, Moves good (step r)) :
    Moves good (accumulate left right step) := by
  have hrest : ∀ r, Moves good (do
      Lowering.throughAccumulator left (step r)
      Lowering.free r
      return left) := fun r =>
    ((h r).throughAccumulator left).bind fun _ => (free r).bind fun _ => pure left
  apply ite
  · exact (allocate 1).bind fun moved => (emit _).bind fun _ => (free .a).bind fun _ => hrest moved
  · exact hrest right

theorem coerce (r : Reg) (size : Nat) : Moves good (coerce r size) := by
  intro state hstate
  simp [Lowering.coerce, hstate]

theorem compare (comparison : Comparison) (left right : Reg) :
    Moves good (compare comparison left right) := by
  have hbytes : ∀ n r, Moves good (comparing comparison n r) := by
    intro n r state hstate
    simp [comparing, decideTruth]
  have hpairs : ∀ n, Moves good (comparingPairs comparison n left right) := by
    intro n state hstate
    simp [comparingPairs, decideTruth]
  rw [compare_eq]
  apply (newLabel _).bind
  intro n
  apply ite (accumulate (hbytes n))
  exact (hpairs n).preservingAccumulator.bind fun _ => (free right).bind fun _ => pure left

theorem multiply (left right : Reg) : Moves good (multiply left right) := by
  rw [multiply_eq]
  apply (newLabel _).bind
  intro n
  apply accumulate
  intro count state hstate
  simp [multiplication, hstate]

theorem divide (left right : Reg) : Moves good (divide left right) := by
  rw [divide_eq]
  apply (newLabel _).bind
  intro n
  apply accumulate
  intro divisor state hstate
  simp [division, hstate]

theorem shift (right : Bool) (value count : Reg) : Moves good (shift right value count) := by
  rw [shift_eq]
  apply (newLabel _).bind
  intro n
  apply accumulate
  intro count state hstate
  simp [shifting, hstate]

theorem simple (op : AccumulatorOp) (left right : Reg) : Moves good (simple op left right) :=
  accumulate fun _ => emit _

theorem combine (op : PairOp) (left right : Reg) : Moves good (combine op left right) :=
  (emit _).bind fun _ => (free right).bind fun _ => pure left

theorem halfwise (op : AccumulatorOp) (left right : Reg) : Moves good (halfwise op left right) := by
  have hhalf : ∀ half other : Reg,
      Moves good (Lowering.throughAccumulator half (Lowering.emit (.accumulate op (.reg other)))) :=
    fun half other => (emit _).throughAccumulator half
  exact (hhalf _ _).bind fun _ => (hhalf _ _).bind fun _ => (free right).bind fun _ => pure left

/-- Operators move to no place. -/
theorem operate (op : BinaryOp) (size : Nat) (left right : Reg) :
    Moves good (operate op size left right) := by
  unfold Lowering.operate
  split
  · exact compare _ left right
  · apply ite
    · cases op with
      | add | sub => exact combine _ left right
      | and | or => exact halfwise _ left right
      | mul | div | shiftLeft | shiftRight => exact fail _
      | _ => exact lift (.error .malformedTree)
    · cases op with
      | add | sub | and | or => exact simple _ left right
      | mul => exact multiply left right
      | div => exact divide left right
      | shiftLeft => exact shift false left right
      | shiftRight => exact shift true left right
      | _ => exact lift (.error .malformedTree)

theorem negate (r : Reg) : Moves good (negate r) :=
  (allocate _).bind fun _ => (emit _).bind fun _ => ite (combine _ _ _) (simple _ _ _)

theorem stepBy (step : Reg → Instr) (r : Reg) (count : Nat) : Moves good (stepBy step r count) := by
  induction count with
  | zero => exact pure ()
  | succ count ih => exact (emit _).bind fun _ => ih

theorem stepPair (address : Address) : Moves good (stepPair address) := by
  cases address with
  | indirect pair => exact emit _
  | _ => exact pure ()

theorem load (r : Reg) (address : Address) : Moves good (load r address) := by
  unfold Lowering.load
  split
  · exact emit _
  · exact (emit _).bind fun _ => (stepPair address).bind fun _ => (lift _).bind fun _ => emit _

/-- Nor does a store. -/
theorem store (address : Address) (r : Reg) : Moves good (store address r) := by
  unfold Lowering.store
  split
  · exact emit _
  · exact (emit _).bind fun _ => (stepPair address).bind fun _ => (lift _).bind fun _ => emit _

theorem stringData (inside : Bool) (bytes : List UInt8) : Moves good (stringData inside bytes) :=
  (newLabel _).bind fun _ => (emit _).bind fun _ => (mark _).bind fun _ => (line _).bind fun _ =>
    (mark _).bind fun _ => pure _

/-! ### Calls -/

theorem save (r : Reg) : Moves good (save r) := (push r).bind fun _ => free r

theorem saveAll : Moves good saveAll :=
  get.bind fun _ => (forM save _).bind fun _ => pure _

theorem claimAll (registers : List Reg) : Moves good (claimAll registers) :=
  forM (fun r => (claim r).bind fun _ => pure ()) _

theorem restore (function : Symbol) (saved : List Reg) : Moves good (restore function saved) := by
  have hclaim : Moves good (claimResult function.resultSize) :=
    ite (pure none) ((claim _).bind fun _ => pure _)
  have hmove : ∀ clashing result, Moves good (moveResult clashing result) := by
    intro clashing result
    cases result with
    | none => exact pure none
    | some r =>
        apply ite (pure (some r))
        exact (allocate r.size).bind fun _ => (emit _).bind fun _ => (free r).bind fun _ => pure _
  exact hclaim.bind fun _ => (claimAll _).bind fun _ => (hmove _ _).bind fun _ =>
    (claimAll _).bind fun _ => (forM pop _).bind fun _ => pure _

/-- The end of a call moves to no place. -/
theorem finishCall (function : Symbol) (saved : List Reg) (pushed : Nat) :
    Moves good (finishCall function saved pushed) := by
  rw [finishCall_eq]
  apply (emit _).bind
  intro _
  apply ite
  · exact (emit _).bind fun _ => (shallow pushed).bind fun _ => restore function saved
  · exact restore function saved

end Moves

end Lowering

open Lowering

variable {good : Location → Prop}

/-! ## Expressions -/

theorem Scopes.address_moves (scopes : Scopes) (symbol : Symbol) (scope : ScopeId) :
    Moves good (scopes.address symbol scope) := by
  apply (Moves.lift _).bind
  intro offset
  cases offset with
  | none => exact .pure _
  | some offset => exact Moves.get.bind fun _ => (Moves.lift _).bind fun _ => .pure _

mutual

/-- The code of an expression is made at places of the expression. -/
theorem Expr.Lies.moves (scopes : Scopes) :
    ∀ e : Expr, e.Lies good → Moves good (e.lower scopes)
  | .number note value, h =>
      (Moves.visit h).bind fun _ => (Moves.allocate _).bind fun r => (Moves.emit _).bind fun _ =>
        .pure r
  | .string note bytes, h =>
      (Moves.visit h).bind fun _ => (Moves.stringData _ _).bind fun _ =>
        (Moves.allocate 2).bind fun r => (Moves.emit _).bind fun _ => .pure r
  | .name note symbol, h =>
      (Moves.visit h).bind fun _ => (scopes.address_moves symbol _).bind fun address =>
        (Moves.allocate _).bind fun r => (Moves.load r address).bind fun _ => .pure r
  | .assign note target value, ⟨hplace, htarget, hvalue⟩ => by
      rw [Expr.lower]
      apply (Moves.visit hplace).bind
      intro _
      apply (Expr.Lies.moves scopes value hvalue).bind
      intro r
      apply (Moves.coerce r _).bind
      intro r
      apply (Moves.visit htarget.location).bind
      intro _
      cases target with
      | name note symbol =>
          exact (scopes.address_moves symbol _).bind fun address =>
            (Moves.store address r).bind fun _ => .pure r
      | unary note op pointer =>
          cases op with
          | deref =>
              exact (Expr.Lies.moves scopes pointer htarget.2).bind fun pair =>
                (Moves.store (.indirect pair) r).bind fun _ => (Moves.free pair).bind fun _ => .pure r
          | _ => exact (Moves.lift _).bind fun _ => .pure r
      | _ => exact (Moves.lift _).bind fun _ => .pure r
  | .binary note op left right, ⟨hplace, hleft, hright⟩ => by
      rw [Expr.lower]
      apply (Moves.visit hplace).bind
      intro _
      apply (Expr.Lies.moves scopes left hleft).bind
      intro l
      apply (Moves.coerce l _).bind
      intro l
      apply (Expr.Lies.moves scopes right hright).bind
      intro r
      exact (Moves.coerce r _).bind fun r => Moves.operate op _ l r
  | .unary note .plus operand, ⟨hplace, hoperand⟩ =>
      (Moves.visit hplace).bind fun _ => Expr.Lies.moves scopes operand hoperand
  | .unary note .negate operand, ⟨hplace, hoperand⟩ =>
      (Moves.visit hplace).bind fun _ =>
        (Expr.Lies.moves scopes operand hoperand).bind fun r => Moves.negate r
  | .unary note .addressOf operand, ⟨hplace, hoperand⟩ => by
      cases operand with
      | name note symbol =>
          exact (Moves.visit hplace).bind fun _ => (scopes.address_moves symbol _).bind fun _ =>
            (Moves.allocate 2).bind fun r => (Moves.emit _).bind fun _ => .pure r
      | unary note op pointer =>
          cases op with
          | deref =>
              exact (Moves.visit hplace).bind fun _ => Expr.Lies.moves scopes pointer hoperand.2
          | _ => exact (Moves.visit hplace).bind fun _ => .lift (.error .malformedTree)
      | _ => exact (Moves.visit hplace).bind fun _ => .lift (.error .malformedTree)
  | .unary note .deref operand, ⟨hplace, hoperand⟩ =>
      (Moves.visit hplace).bind fun _ =>
        (Expr.Lies.moves scopes operand hoperand).bind fun pair => (Moves.allocate _).bind fun r =>
          (Moves.load r (.indirect pair)).bind fun _ => (Moves.free pair).bind fun _ => .pure r
  | .unary note .increment operand, ⟨hplace, hoperand⟩ =>
      (Moves.visit hplace).bind fun _ =>
        (Expr.Lies.moves scopes operand hoperand).bind fun r =>
          (Moves.stepBy .increment r _).bind fun _ => .pure r
  | .unary note .decrement operand, ⟨hplace, hoperand⟩ =>
      (Moves.visit hplace).bind fun _ =>
        (Expr.Lies.moves scopes operand hoperand).bind fun r =>
          (Moves.stepBy .decrement r _).bind fun _ => .pure r
  | .call note function arguments, ⟨hplace, harguments⟩ => by
      rw [Expr.lower]
      apply (Moves.visit hplace).bind
      intro _
      apply Moves.saveAll.bind
      intro saved
      apply (lowerArguments_moves scopes function.parameters arguments harguments).bind
      intro pushed
      apply (Moves.finishCall function saved pushed).bind
      intro result
      cases result with
      | some r => exact .pure r
      | none => exact .fail _

/-- The same for the arguments of a call. -/
theorem lowerArguments_moves (scopes : Scopes) : ∀ (parameters : List Ty) (arguments : List Expr),
    Expr.AllLie good arguments → Moves good (lowerArguments scopes parameters arguments)
  | [], arguments, _ => by cases arguments <;> exact .pure 0
  | _ :: _, [], _ => .pure 0
  | parameter :: parameters, argument :: arguments, ⟨hargument, hrest⟩ => by
      rw [lowerArguments]
      apply (Expr.Lies.moves scopes argument hargument).bind
      intro r
      apply (Moves.coerce r _).bind
      intro r
      exact (Moves.save r).bind fun _ =>
        (lowerArguments_moves scopes parameters arguments hrest).bind fun _ => .lift _

end

/-! ## Statements -/

namespace Frame

variable (frame : Frame)

theorem setInitial_moves {declared : Declaration} (h : declared.Lies good) :
    Moves good (frame.setInitial declared) := by
  obtain ⟨symbol, initial⟩ := declared
  cases initial with
  | none => exact .pure ()
  | some value =>
      apply (Expr.Lies.moves frame.scopes value (h.initial value rfl)).bind
      intro r
      apply (Moves.coerce r _).bind
      intro r
      exact (frame.scopes.address_moves symbol _).bind fun address =>
        (Moves.store address r).bind fun _ => .free r

theorem discard_moves {value : Expr} (h : value.Lies good) : Moves good (frame.discard value) := by
  have hgiveBack : ∀ result, Moves good (giveBack result) := by
    intro result
    cases result with
    | some r => exact .free r
    | none => exact .pure ()
  rw [discard_eq]
  apply Moves.bind _ hgiveBack
  cases value with
  | call note function arguments =>
      exact (Moves.visit h.1).bind fun _ => Moves.saveAll.bind fun saved =>
        (lowerArguments_moves frame.scopes function.parameters arguments h.2).bind fun pushed =>
          .finishCall function saved pushed
  | _ => exact (Expr.Lies.moves frame.scopes _ h).map

theorem test_moves {condition : Expr} (h : condition.Lies good) :
    Moves good (frame.test condition) := by
  rw [test_eq]
  apply (Expr.Lies.moves frame.scopes condition h).bind
  intro r
  apply Moves.bind _ fun _ => .free r
  unfold compareZero
  split
  · exact .preservingAccumulator ((Moves.emit _).bind fun _ => (Moves.emit _).bind fun _ => .emit _)
  · exact .ite (.emit _) (.preservingAccumulator ((Moves.emit _).bind fun _ => .emit _))

theorem leave_moves {value : Option Expr} (h : ∀ given ∈ value, given.Lies good)
    (scope : ScopeId) : Moves good (frame.leave value scope) := by
  have hgoToEnd : Moves good (frame.goToEnd scope) :=
    (Moves.lift _).bind fun bytes => (Moves.release bytes).bind fun _ => .emit _
  rw [leave_eq]
  apply Moves.bind _ fun _ => hgoToEnd
  cases value with
  | none => exact .pure ()
  | some value =>
      apply (Expr.Lies.moves frame.scopes value (h value rfl)).bind
      intro r
      apply (Moves.coerce r _).bind
      intro r
      exact .ite ((Moves.emit _).bind fun _ => .free r) (.free r)

theorem settle_moves : Moves good settle := Moves.get.bind fun _ => .ite (.lift _) (.pure ())

end Frame

/-- A branch stays at good places if its sides do. -/
theorem branch_moves (frame : Frame) {condition : Expr} {yes : Statement} {no : Option Statement}
    {location : Location} (hplace : good location) (hcondition : condition.Lies good)
    (hyes : Moves good (yes.lower frame)) (hno : Moves good (lowerElse frame no)) :
    Moves good ((Statement.branch condition yes no location).lower frame) := by
  rw [Statement.lower_branch]
  apply (Moves.visit hplace).bind
  intro _
  apply (Moves.newLabel _).bind
  intro n
  apply (frame.test_moves hcondition).bind
  intro _
  apply (Moves.emit _).bind
  intro _
  apply (Moves.mark _).bind
  intro _
  apply hyes.bind
  intro _
  exact (Moves.emit _).bind fun _ => (Moves.mark _).bind fun _ => hno.bind fun _ =>
    (Moves.mark _).bind fun _ => Frame.settle_moves

mutual

theorem Statement.Lies.moves (frame : Frame) :
    ∀ statement : Statement, statement.Lies good → Moves good (statement.lower frame)
  | .declaration declared, h => (frame.setInitial_moves h).bind fun _ => Frame.settle_moves
  | .expression value, h => (frame.discard_moves h).bind fun _ => Frame.settle_moves
  | .returning value scope location, ⟨hplace, hvalue⟩ =>
      (Moves.visit hplace).bind fun _ => (frame.leave_moves hvalue scope).bind fun _ =>
        Frame.settle_moves
  | .branch condition yes (some no) location, ⟨hplace, hcondition, hyes, hno⟩ =>
      branch_moves frame hplace hcondition (Statement.Lies.moves frame yes hyes)
        (Statement.Lies.moves frame no hno)
  | .branch condition yes none location, ⟨hplace, hcondition, hyes, _⟩ =>
      branch_moves frame hplace hcondition (Statement.Lies.moves frame yes hyes) (.pure ())
  | .loop condition body location, ⟨hplace, hcondition, hbody⟩ => by
      rw [Statement.lower]
      apply (Moves.visit hplace).bind
      intro _
      apply (Moves.newLabel _).bind
      intro n
      apply (Moves.mark _).bind
      intro _
      apply (frame.test_moves hcondition).bind
      intro _
      apply (Moves.emit _).bind
      intro _
      apply (Moves.mark _).bind
      intro _
      apply (Statement.Lies.moves frame body hbody).bind
      intro _
      exact (Moves.emit _).bind fun _ => (Moves.mark _).bind fun _ => Frame.settle_moves
  | .block scope body location, h =>
      (Moves.lift _).bind fun size => (Moves.reserve size).bind fun _ =>
        (lowerStatements_moves frame body h).bind fun _ => (Moves.release size).bind fun _ =>
          Frame.settle_moves

theorem lowerStatements_moves (frame : Frame) : ∀ body : List Statement,
    Statement.AllLie good body → Moves good (lowerStatements frame body)
  | [], _ => .pure ()
  | statement :: rest, ⟨hstatement, hrest⟩ =>
      (Statement.Lies.moves frame statement hstatement).bind fun _ =>
        lowerStatements_moves frame rest hrest

end

/-! ## Programs -/

namespace Lowering.Blames

variable {α β : Type}

theorem bind {step : Lowering α} {next : α → Lowering β} (h : Blames good step)
    (hnext : ∀ value, Blames good (next value)) : Blames good (step >>= next) := by
  intro state entry hrun
  rw [run_bind] at hrun
  rcases bind_eq_error.mp hrun with hrun | ⟨done, -, hrun⟩
  · exact h state entry hrun
  · exact hnext done.value done.state entry (map_eq_error.mp hrun)

theorem pure (value : α) : Blames good (Pure.pure value) := fun _ _ hrun => nomatch hrun

theorem emit (instr : Instr) : Blames good (emit instr) := fun _ _ hrun => nomatch hrun

theorem mark (label : Label) : Blames good (mark label) := fun _ _ hrun => nomatch hrun

/-- Moving to a good place first. -/
theorem visit {location : Location} (h : good location) {next : Lowering α} (hnext : Moves good next) :
    Blames good (Lowering.visit location >>= fun _ => next) := fun state _ hrun =>
  (hnext { state with here := location } h).location h hrun

end Lowering.Blames

theorem Declaration.Lies.blames {declared : Declaration} (h : declared.Lies good) :
    Blames good declared.lowerGlobal := by
  have hdata : Moves good declared.data := by
    unfold Declaration.data
    split
    · exact .pure _
    · exact (Moves.stringData _ _).bind fun _ => .pure _
    · split
      · exact .fail _
      · exact .ite (.pure _) (.pure _)
  unfold Declaration.lowerGlobal
  dsimp only
  split
  · exact .pure ()
  · exact .visit h.symbol (hdata.bind fun _ => (Moves.emit _).bind fun _ =>
      (Moves.mark _).bind fun _ => .line _)

theorem Function.blames (scopes : Scopes) {function : Function}
    (h : (Item.function function).Lies good) : Blames good (function.lower scopes) := by
  apply Blames.visit h.1
  apply (Moves.lift _).bind
  intro size
  apply (Moves.mark _).bind
  intro _
  apply (Moves.reserve size).bind
  intro _
  apply (lowerStatements_moves _ function.body h.2).bind
  intro _
  exact (Moves.mark _).bind fun _ => (Moves.release size).bind fun _ => .emit _

theorem items_blames (scopes : Scopes) {items : List Item} (h : ∀ item ∈ items, item.Lies good) :
    Blames good (items.forM (Item.lower scopes)) := by
  induction items with
  | nil => exact .pure ()
  | cons item rest ih =>
      obtain ⟨hitem, hrest⟩ := List.forall_mem_cons.mp h
      refine Blames.bind ?_ fun _ => ih hrest
      cases item with
      | global declared => exact hitem.blames
      | function defined => exact Function.blames scopes hitem

/-- Errors of lowering are reported at the places of the program. -/
theorem Program.lines_location {program : Program} (h : ∀ item ∈ program.items, item.Lies good)
    {entry : Located LowerError} (hlines : program.lines = .error (.diagnosis entry)) :
    good entry.location := by
  have hblames : Blames good program.lower := (Blames.mark _).bind fun _ =>
    (Blames.emit _).bind fun _ => (Blames.mark _).bind fun _ => (Blames.emit _).bind fun _ =>
      (items_blames program.scopes h).bind fun _ => .mark _
  exact hblames .initial entry (map_eq_error.mp hlines)

end AccumulatorC
