import AccumulatorC.Proofs.Lowering.Calling
import AccumulatorC.Proofs.Lowering.StatementParts
import AccumulatorC.Proofs.Program.Unplaced

/-!
# Lowering without places

Lowering remembers the place that it works on, for the diagnosis that it may end with, and looks at
no place otherwise. So a program without places is lowered to the same lines, and refused for the
same cause, as the program that it comes from.
-/

namespace AccumulatorC

/-- Two results of a step that are the same but for places. -/
inductive Lowered.Alike {α : Type} :
    Except (Stop (Located LowerError)) (Lowered α) →
    Except (Stop (Located LowerError)) (Lowered α) → Prop
  | done (value : α) (code : List Line) (state : LowerState) (here : Location) :
      Alike (.ok ⟨value, code, state⟩) (.ok ⟨value, code, { state with here }⟩)
  | stopped (cause : Stop LowerError) (here other : Location) :
      Alike (.error (cause.map (⟨·, here⟩))) (.error (cause.map (⟨·, other⟩)))

/-- More lines in front keep results alike. -/
theorem Lowered.Alike.behind {α : Type} {result other : Except (Stop (Located LowerError)) (Lowered α)}
    (h : Alike result other) (code : List Line) :
    Alike (result.map fun done => { done with code := code ++ done.code })
      (other.map fun done => { done with code := code ++ done.code }) := by
  cases h with
  | done value rest state here => exact .done value (code ++ rest) state here
  | stopped cause here other => exact .stopped cause here other

namespace Lowering

variable {α β : Type}

/-- Two steps do the same but for places, whatever places they are run at. -/
def Alike (step other : Lowering α) : Prop :=
  ∀ (state : LowerState) (here : Location),
    Lowered.Alike (step.run state) (other.run { state with here })

/-- A step does the same whatever place it is run at. -/
abbrev Placeless (step : Lowering α) : Prop := Alike step step

namespace Alike

variable {step other : Lowering α}

theorem pure (value : α) : Placeless (Pure.pure value : Lowering α) := fun state here =>
  .done value [] state here

theorem bind {next next' : α → Lowering β} (h : Alike step other)
    (hnext : ∀ value, Alike (next value) (next' value)) : Alike (step >>= next) (other >>= next') := by
  intro state here
  have hfirst := h state here
  rw [run_bind, run_bind]
  generalize step.run state = result at hfirst
  generalize other.run { state with here } = result' at hfirst
  cases hfirst with
  | done value code state here => exact (hnext value state here).behind code
  | stopped cause here other => exact .stopped cause here other

theorem seq {first first' : Lowering β} (h : Alike first first') (hnext : Alike step other) :
    Alike (first >>= fun _ => step) (first' >>= fun _ => other) := h.bind fun _ => hnext

theorem map {f : α → β} (h : Alike step other) : Alike (f <$> step) (f <$> other) := by
  rw [map_eq_pure_bind, map_eq_pure_bind]
  exact h.bind fun value => pure (f value)

theorem ite {c : Prop} [Decidable c] {no no' : Lowering α} (hyes : Alike step other)
    (hno : Alike no no') : Alike (if c then step else no) (if c then other else no') := by
  split
  · exact hyes
  · exact hno

/-- What follows may look at everything in the state but the place. -/
theorem look {next next' : LowerState → Lowering α}
    (h : ∀ state here, Alike (next state) (next' { state with here })) :
    Alike (get >>= next) (get >>= next') := fun state here => h state here state here

/-- A change that neither looks at the place nor depends on it. -/
theorem modify {change : LowerState → LowerState}
    (h : ∀ state here, change { state with here } = { change state with here }) :
    Placeless (modify change) := by
  intro state here
  have hdone := Lowered.Alike.done () [] (change state) here
  rw [← h] at hdone
  exact hdone

theorem fail (cause : LowerError) : Placeless (fail cause : Lowering α) := fun state here =>
  .stopped (.diagnosis cause) state.here here

theorem lift (result : Except Breakdown α) : Placeless (lift result) := by
  cases result with
  | ok value => exact pure value
  | error cause => exact fun state here => .stopped (.breakdown cause) state.here here

theorem line (l : Line) : Placeless (line l) := fun state here => .done () [l] state here

theorem emit (instr : Instr) : Placeless (emit instr) := line (.instr instr)

theorem mark (label : Label) : Placeless (mark label) := line (.label label)

/-- Moving to different places makes no other difference. -/
theorem visit (location location' : Location) : Alike (visit location) (visit location') :=
  fun state _ => .done () [] { state with here := location } location'

theorem newLabel (family : Family) : Placeless (newLabel family) :=
  look fun state _ => (modify fun _ _ => rfl).seq <| pure (state.labels.count family)

theorem allocate (size : Nat) : Placeless (allocate size) := by
  intro state here
  simp only [Lowering.allocate, run]
  cases state.held.firstFree size with
  | some r => exact .done r [] { state with held := state.held.insert r } here
  | none => exact .stopped (.diagnosis (.exhausted size state.held)) state.here here

theorem claim (r : Reg) : Placeless (claim r) :=
  look fun state _ => (modify fun _ _ => rfl).seq <| pure (state.held.claim r).1

theorem free (r : Reg) : Placeless (free r) := modify fun _ _ => rfl

theorem deepen (bytes : Nat) : Placeless (deepen bytes) :=
  look fun state _ => (lift (addBytes state.depth bytes)).bind fun _ => modify fun _ _ => rfl

theorem shallow (bytes : Nat) : Placeless (shallow bytes) :=
  look fun state _ => (lift (takeBytes state.depth bytes)).bind fun _ => modify fun _ _ => rfl

theorem push (r : Reg) : Placeless (push r) := (deepen r.size).seq (emit _)

theorem pop (r : Reg) : Placeless (pop r) := (emit _).seq <| shallow r.size

theorem reserve (bytes : Nat) : Placeless (reserve bytes) := ite (emit _) (pure ())

theorem release (bytes : Nat) : Placeless (release bytes) := ite (emit _) (pure ())

theorem forM {registers : List Reg} {step : Reg → Lowering Unit} (h : ∀ r, Placeless (step r)) :
    Placeless (registers.forM step) := by
  induction registers with
  | nil => exact pure ()
  | cons r registers ih => exact (h r).seq ih

/-! ## Operations -/

/-- Saving the accumulator around a step reads no place. -/
theorem preservingAccumulator {step : Lowering Unit} (h : Placeless step) :
    Placeless (preservingAccumulator step) :=
  (claim .a).bind fun _ => ite (h.seq <| free .a)
    ((push .a).seq <| h.seq <| pop .a)

theorem throughAccumulator {step : Lowering Unit} (h : Placeless step) (r : Reg) :
    Placeless (throughAccumulator r step) :=
  ite h (preservingAccumulator ((emit _).seq <| h.seq <| emit _))

theorem accumulate {left right : Reg} {step : Reg → Lowering Unit} (h : ∀ r, Placeless (step r)) :
    Placeless (accumulate left right step) := by
  have hrest : ∀ operand, Placeless (do
      Lowering.throughAccumulator left (step operand)
      Lowering.free operand
      return left) := fun operand =>
    ((h operand).throughAccumulator left).seq <| (free operand).seq <| pure left
  refine ite ?_ (hrest right)
  exact (allocate 1).bind fun moved => (emit _).seq <| (free .a).seq <| hrest moved

theorem coerce (r : Reg) (size : Nat) : Placeless (coerce r size) := by
  refine ite ?_ (ite ?_ (pure r))
  · have hrest : ∀ wide : Reg, Placeless (do
        Lowering.emit (.setNumber wide.high 0)
        return wide) := fun wide => (emit _).seq <| pure wide
    refine (free r).seq <| (allocate 2).bind fun wide => ite ?_ (hrest wide)
    exact (emit _).seq <| hrest wide
  · exact (free r).seq <| (claim r.low).seq <| pure r.low

theorem decideTruth (comparison : Comparison) (n : Nat) :
    Placeless (decideTruth comparison n) :=
  (emit _).seq <| (emit _).seq <| (mark _).seq <| (emit _).seq <|
    (emit _).seq <| (mark _).seq <| (emit _).seq (mark _)

theorem compare (comparison : Comparison) (left right : Reg) :
    Placeless (compare comparison left right) := by
  refine (newLabel _).bind fun n => ite (accumulate fun r => ?_) ?_
  · exact (emit _).seq <| decideTruth comparison n
  · have hpairs : Placeless (comparingPairs comparison n left right) :=
      (emit _).seq <| (emit _).seq <| (emit _).seq <| (emit _).seq <|
        (emit _).seq <| (mark _).seq <| (decideTruth comparison n).seq <|
          (emit _).seq (emit _)
    exact (preservingAccumulator hpairs).seq <| (free right).seq <| pure left

theorem shift (right : Bool) (value count : Reg) : Placeless (shift right value count) := by
  refine (newLabel _).bind fun n => accumulate fun count => (push .a).seq <| ?_
  have hrest : Placeless (do
      Lowering.emit (.accumulate .and (.lowBits 3))
      Lowering.emit (.copy count .a)
      Lowering.pop .a
      Lowering.mark (.inner (if right then .shiftRight else .shiftLeft) .repetition n)
      Lowering.emit (.decrement count)
      Lowering.emit (.jump .notGreater (.inner (if right then .shiftRight else .shiftLeft) .exit n))
      Lowering.emit .rotate
      Lowering.emit (.jump .always (.inner (if right then .shiftRight else .shiftLeft) .repetition n))
      Lowering.mark (.inner (if right then .shiftRight else .shiftLeft) .exit n)) :=
    (emit _).seq <| (emit _).seq <| (pop .a).seq <| (mark _).seq <|
      (emit _).seq <| (emit _).seq <| (emit _).seq <| (emit _).seq <|
        mark _
  exact ite ((emit _).seq <| (emit _).seq <| hrest) ((emit _).seq <| hrest)

theorem multiply (left right : Reg) : Placeless (multiply left right) :=
  (newLabel _).bind fun _ => accumulate fun _ => (allocate 1).bind fun multiplicand =>
    (emit _).seq <| (emit _).seq <| (mark _).seq <| (emit _).seq <|
      (emit _).seq <| (emit _).seq <| (emit _).seq <| (mark _).seq <|
        free multiplicand

theorem divide (left right : Reg) : Placeless (divide left right) :=
  (newLabel _).bind fun _ => accumulate fun _ => (allocate 1).bind fun quotient =>
    (emit _).seq <| (mark _).seq <| (emit _).seq <| (emit _).seq <|
      (emit _).seq <| (mark _).seq <| (emit _).seq <| (emit _).seq <|
        (emit _).seq <| (mark _).seq <| (emit _).seq <| free quotient

theorem simple (op : AccumulatorOp) (left right : Reg) : Placeless (simple op left right) :=
  accumulate fun _ => emit _

theorem combine (op : PairOp) (left right : Reg) : Placeless (combine op left right) :=
  (emit _).seq <| (free right).seq <| pure left

theorem halfwise (op : AccumulatorOp) (left right : Reg) : Placeless (halfwise op left right) :=
  ((emit _).throughAccumulator left.low).seq <|
    ((emit _).throughAccumulator left.high).seq <| (free right).seq <| pure left

/-- Operators are lowered the same way at every place. -/
theorem operate (op : BinaryOp) (size : Nat) (left right : Reg) :
    Placeless (operate op size left right) := by
  unfold Lowering.operate
  split
  · exact compare _ left right
  · refine ite ?_ ?_
    · cases op with
      | add | sub => exact combine _ left right
      | and | or => exact halfwise _ left right
      | mul | div | shiftLeft | shiftRight => exact fail _
      | _ => exact lift (.error .malformedTree)
    · cases op with
      | add | sub | and | or => exact simple _ left right
      | mul => exact multiply left right
      | div => exact divide left right
      | shiftLeft => exact shift false left right
      | shiftRight => exact shift true left right
      | _ => exact lift (.error .malformedTree)

theorem negate (value : Reg) : Placeless (negate value) :=
  (allocate _).bind fun zero => (emit _).seq <| ite (combine .sub zero value)
    (simple .sub zero value)

theorem stepBy (step : Reg → Instr) (r : Reg) (count : Nat) : Placeless (stepBy step r count) := by
  induction count with
  | zero => exact pure ()
  | succ count ih => exact (emit _).seq ih

theorem stepPair (address : Address) : Placeless (stepPair address) := by
  cases address with
  | indirect pair => exact emit _
  | _ => exact pure ()

theorem load (r : Reg) (address : Address) : Placeless (load r address) := by
  unfold Lowering.load
  cases r.halves with
  | none => exact emit _
  | some halves =>
      exact (emit _).seq <| (stepPair address).seq <| (lift _).bind fun _ => emit _

/-- Stores are lowered the same way at every place. -/
theorem store (address : Address) (r : Reg) : Placeless (store address r) := by
  unfold Lowering.store
  cases r.halves with
  | none => exact emit _
  | some halves =>
      exact (emit _).seq <| (stepPair address).seq <| (lift _).bind fun _ => emit _

theorem stringData (inside : Bool) (bytes : List UInt8) : Placeless (stringData inside bytes) :=
  (newLabel _).bind fun n => (emit _).seq <| (mark _).seq <| (line _).seq <|
    (mark _).seq <| pure (Label.string inside n)

/-! ## Calls -/

theorem save (r : Reg) : Placeless (save r) := (push r).seq <| free r

theorem saveAll : Placeless saveAll :=
  look fun state _ => (forM save).seq <| pure state.held.toList

theorem claimAll (registers : List Reg) : Placeless (claimAll registers) :=
  forM fun r => (claim r).seq <| pure ()

theorem claimResult (size : Nat) : Placeless (claimResult size) :=
  ite (pure none) ((claim _).seq <| pure (some (Reg.result size)))

theorem moveResult (clashing : List Reg) (result : Option Reg) :
    Placeless (moveResult clashing result) := by
  cases result with
  | none => exact pure none
  | some r =>
      refine ite (pure (some r)) ((allocate r.size).bind fun moved => (emit _).seq <| ?_)
      exact (free r).seq <| pure (some moved)

/-- A call ends the same way at every place. -/
theorem finishCall (function : Symbol) (saved : List Reg) (pushed : Nat) :
    Placeless (finishCall function saved pushed) := by
  have hrestore : Placeless (restore function saved) := by
    refine (claimResult _).bind fun result => (claimAll _).seq <| ?_
    refine (moveResult _ result).bind fun result => (claimAll _).seq <| ?_
    exact (forM pop).seq <| pure result
  rw [finishCall_eq]
  refine (emit _).seq <| ite ?_ hrestore
  exact (emit _).seq <| (shallow pushed).seq <| hrestore

end Alike

end Lowering

/-! ## Expressions -/

open Lowering

theorem Scopes.unplaced_frame (scopes : Scopes) (id : ScopeId) :
    scopes.unplaced.frame id = scopes.frame id := by
  rw [frame, frame, unplaced_get]
  cases scopes.get id <;> rfl

theorem Scopes.unplaced_framesInside (scopes : Scopes) (id outer : ScopeId) :
    scopes.unplaced.framesInside id outer = scopes.framesInside id outer := by
  rw [framesInside, framesInside, unplaced_chain, funext scopes.unplaced_frame]

theorem Scopes.unplaced_stackOffset (scopes : Scopes) (symbol : Symbol) (id : ScopeId) :
    scopes.unplaced.stackOffset symbol.unplaced id = scopes.stackOffset symbol id := by
  simp only [stackOffset, Symbol.unplaced, unplaced_framesInside, unplaced_chain, unplaced_frame]

theorem Scopes.address_alike (scopes : Scopes) (symbol : Symbol) (scope : ScopeId) :
    Alike (scopes.address symbol scope) (scopes.unplaced.address symbol.unplaced scope) := by
  unfold address
  rw [unplaced_stackOffset]
  refine (Alike.lift _).bind fun offset => ?_
  cases offset with
  | none => exact .pure _
  | some offset =>
      exact .look fun state _ => (Alike.lift _).bind fun depth => .pure (Address.stack depth)

mutual

/-- The value of an expression without places is found like that of the expression. -/
theorem Expr.lower_alike (scopes : Scopes) :
    ∀ e : Expr, Alike (e.lower scopes) (e.unplaced.lower scopes.unplaced)
  | .number note value =>
      (Alike.visit _ _).seq <| (Alike.allocate _).bind fun r => (Alike.emit _).seq (.pure r)
  | .string note bytes =>
      (Alike.visit _ _).seq <| (Alike.stringData _ _).bind fun label =>
        (Alike.allocate 2).bind fun r => (Alike.emit _).seq (.pure r)
  | .name note symbol =>
      (Alike.visit _ _).seq <| (scopes.address_alike symbol note.scope).bind fun address =>
        (Alike.allocate _).bind fun r => (Alike.load r address).seq (.pure r)
  | .assign note target value => by
      rw [Expr.unplaced, Expr.lower, Expr.lower, Expr.unplaced_type]
      refine (Alike.visit _ _).seq <| (value.lower_alike scopes).bind fun r => ?_
      refine (Alike.coerce r _).bind fun r => (Alike.visit _ _).seq ?_
      cases target with
      | name note symbol =>
          exact (scopes.address_alike symbol note.scope).bind fun address =>
            (Alike.store address r).seq (.pure r)
      | unary note op pointer =>
          cases op with
          | deref =>
              exact (pointer.lower_alike scopes).bind fun pair =>
                (Alike.store (.indirect pair) r).seq <| (Alike.free pair).seq (.pure r)
          | _ => exact (Alike.lift _).seq (.pure r)
      | _ => exact (Alike.lift _).seq (.pure r)
  | .binary note op left right => by
      refine (Alike.visit _ _).seq <| (left.lower_alike scopes).bind fun l => ?_
      refine (Alike.coerce l _).bind fun l => (right.lower_alike scopes).bind fun r => ?_
      exact (Alike.coerce r _).bind fun r => Alike.operate op _ l r
  | .unary note .plus operand => (Alike.visit _ _).seq (operand.lower_alike scopes)
  | .unary note .negate operand =>
      (Alike.visit _ _).seq <| (operand.lower_alike scopes).bind fun r => Alike.negate r
  | .unary note .addressOf operand => by
      cases operand with
      | name note symbol =>
          exact (Alike.visit _ _).seq <| (scopes.address_alike symbol note.scope).bind fun address =>
            (Alike.allocate 2).bind fun r => (Alike.emit _).seq (.pure r)
      | unary note op pointer =>
          cases op with
          | deref => exact (Alike.visit _ _).seq (pointer.lower_alike scopes)
          | _ => exact (Alike.visit _ _).seq (.lift (.error .malformedTree))
      | _ => exact (Alike.visit _ _).seq (.lift (.error .malformedTree))
  | .unary note .deref operand =>
      (Alike.visit _ _).seq <| (operand.lower_alike scopes).bind fun pair =>
        (Alike.allocate _).bind fun r => (Alike.load r (.indirect pair)).seq <|
          (Alike.free pair).seq (.pure r)
  | .unary note .increment operand => by
      refine (Alike.visit _ _).seq <| (operand.lower_alike scopes).bind fun r => ?_
      rw [operand.unplaced_type]
      exact (Alike.stepBy .increment r _).seq (.pure r)
  | .unary note .decrement operand => by
      refine (Alike.visit _ _).seq <| (operand.lower_alike scopes).bind fun r => ?_
      rw [operand.unplaced_type]
      exact (Alike.stepBy .decrement r _).seq (.pure r)
  | .call note function arguments => by
      refine (Alike.visit _ _).seq <| Alike.saveAll.bind fun saved => ?_
      refine (lowerArguments_alike scopes function.parameters arguments).bind fun pushed => ?_
      refine (Alike.finishCall function saved pushed).bind fun result => ?_
      cases result with
      | some r => exact .pure r
      | none => exact Alike.fail _

theorem lowerArguments_alike (scopes : Scopes) : ∀ (parameters : List Ty) (arguments : List Expr),
    Alike (lowerArguments scopes parameters arguments)
      (lowerArguments scopes.unplaced parameters (Expr.allUnplaced arguments))
  | [], arguments => by cases arguments <;> exact .pure 0
  | _ :: _, [] => .pure 0
  | parameter :: parameters, argument :: arguments => by
      refine (argument.lower_alike scopes).bind fun r => (Alike.coerce r _).bind fun r => ?_
      refine (Alike.save r).seq <| (lowerArguments_alike scopes parameters arguments).bind fun rest => ?_
      exact Alike.lift (addBytes parameter.size rest)

end

theorem lowerCall_alike (scopes : Scopes) (function : Symbol) (arguments : List Expr) :
    Alike (lowerCall scopes function arguments)
      (lowerCall scopes.unplaced function.unplaced (Expr.allUnplaced arguments)) := by
  refine Alike.saveAll.bind fun saved => ?_
  refine (lowerArguments_alike scopes function.parameters arguments).bind fun pushed => ?_
  exact Alike.finishCall function saved pushed

/-! ## Statements -/

namespace Frame

/-- The function that is lowered, without places. -/
def unplaced (frame : Frame) : Frame := { frame with scopes := frame.scopes.unplaced }

theorem setInitial_alike (frame : Frame) (declared : Declaration) :
    Alike (frame.setInitial declared) (frame.unplaced.setInitial declared.unplaced) := by
  obtain ⟨symbol, initial⟩ := declared
  cases initial with
  | none => exact .pure ()
  | some value =>
      refine (value.lower_alike frame.scopes).bind fun r => (Alike.coerce r _).bind fun r => ?_
      rw [Expr.unplaced_note]
      exact (frame.scopes.address_alike symbol value.note.scope).bind fun address =>
        (Alike.store address r).seq (Alike.free r)

theorem discard_alike (frame : Frame) (value : Expr) :
    Alike (frame.discard value) (frame.unplaced.discard value.unplaced) := by
  rw [discard_eq, discard_eq]
  have hgiveBack : ∀ result, Placeless (giveBack result) := by
    intro result
    cases result with
    | some r => exact Alike.free r
    | none => exact .pure ()
  refine Alike.bind ?_ hgiveBack
  have hvalue := (value.lower_alike frame.scopes).map (f := some)
  cases value with
  | call note function arguments =>
      exact (Alike.visit _ _).seq (lowerCall_alike frame.scopes function arguments)
  | _ => exact hvalue

theorem test_alike (frame : Frame) (condition : Expr) :
    Alike (frame.test condition) (frame.unplaced.test condition.unplaced) := by
  rw [test_eq, test_eq]
  refine (condition.lower_alike frame.scopes).bind fun r => Alike.seq ?_ (Alike.free r)
  unfold compareZero
  cases r.halves with
  | some halves =>
      exact .preservingAccumulator ((Alike.emit _).seq <| (Alike.emit _).seq (.emit _))
  | none => exact .ite (.emit _) (.preservingAccumulator ((Alike.emit _).seq (.emit _)))

theorem leaveResult_alike (frame : Frame) (value : Expr) :
    Alike (frame.leaveResult value) (frame.unplaced.leaveResult value.unplaced) := by
  refine (value.lower_alike frame.scopes).bind fun r => (Alike.coerce r _).bind fun r => ?_
  exact .ite ((Alike.emit _).seq (Alike.free r)) (Alike.free r)

theorem leave_alike (frame : Frame) (value : Option Expr) (scope : ScopeId) :
    Alike (frame.leave value scope) (frame.unplaced.leave (value.map Expr.unplaced) scope) := by
  have hgoToEnd : Alike (frame.goToEnd scope) (frame.unplaced.goToEnd scope) := by
    unfold goToEnd unplaced
    rw [Scopes.unplaced_framesInside]
    exact (Alike.lift _).bind fun bytes => (Alike.release bytes).seq (.emit _)
  rw [leave_eq, leave_eq]
  refine Alike.seq ?_ hgoToEnd
  cases value with
  | some value => exact frame.leaveResult_alike value
  | none => exact .pure ()

theorem settle_placeless : Placeless settle := .look fun _ _ => .ite (.lift _) (.pure ())

end Frame

/-- A branch is lowered alike if its sides are. -/
theorem branch_alike (frame : Frame) (condition : Expr) {yes yes' : Statement}
    {no no' : Option Statement} {location location' : Location}
    (hyes : Alike (yes.lower frame) (yes'.lower frame.unplaced))
    (hno : Alike (lowerElse frame no) (lowerElse frame.unplaced no')) :
    Alike ((Statement.branch condition yes no location).lower frame)
      ((Statement.branch condition.unplaced yes' no' location').lower frame.unplaced) := by
  rw [Statement.lower_branch, Statement.lower_branch]
  refine (Alike.visit _ _).seq <| (Alike.newLabel _).bind fun n => ?_
  refine (frame.test_alike condition).seq <| (Alike.emit _).seq <| (Alike.mark _).seq ?_
  refine hyes.seq <| (Alike.emit _).seq <| (Alike.mark _).seq ?_
  exact hno.seq <| (Alike.mark _).seq Frame.settle_placeless

mutual

/-- A statement without places is lowered like the statement. -/
theorem Statement.lower_alike (frame : Frame) :
    ∀ statement : Statement, Alike (statement.lower frame) (statement.unplaced.lower frame.unplaced)
  | .declaration declared => (frame.setInitial_alike declared).seq Frame.settle_placeless
  | .expression value => (frame.discard_alike value).seq Frame.settle_placeless
  | .returning value scope location =>
      (Alike.visit _ _).seq <| (frame.leave_alike value scope).seq Frame.settle_placeless
  | .branch condition yes (some no) location =>
      branch_alike frame condition (yes.lower_alike frame) (no.lower_alike frame)
  | .branch condition yes none location =>
      branch_alike frame condition (yes.lower_alike frame) (.pure ())
  | .loop condition body location =>
      (Alike.visit _ _).seq <| (Alike.newLabel _).bind fun n => (Alike.mark _).seq <|
        (frame.test_alike condition).seq <| (Alike.emit _).seq <| (Alike.mark _).seq <|
          (body.lower_alike frame).seq <| (Alike.emit _).seq <| (Alike.mark _).seq
            Frame.settle_placeless
  | .block scope body location => by
      rw [Statement.unplaced, Statement.lower, Statement.lower, Frame.unplaced, Scopes.unplaced_frame]
      refine (Alike.lift _).bind fun size => (Alike.reserve size).seq ?_
      exact (lowerStatements_alike frame body).seq <| (Alike.release size).seq Frame.settle_placeless

theorem lowerStatements_alike (frame : Frame) : ∀ body : List Statement,
    Alike (lowerStatements frame body) (lowerStatements frame.unplaced (Statement.allUnplaced body))
  | [] => .pure ()
  | statement :: rest => (statement.lower_alike frame).seq (lowerStatements_alike frame rest)

end

/-! ## Programs -/

/-- The data of a variable whose initial value is no string is that value. -/
theorem Declaration.data_of_fold (symbol : Symbol) {value : Expr} (h : value.isString = false) :
    Declaration.data ⟨symbol, some value⟩ =
      value.fold.elim (Lowering.fail .notConstant) fun value =>
        if symbol.type.size = 1 then pure (Data.byte (value &&& 0xff).toNat)
        else pure (Data.word value.toNat) := by
  unfold Declaration.data
  cases value with
  | string => cases h
  | _ =>
      dsimp only
      split
      next hfold =>
        rw [hfold]
        rfl
      next hfold =>
        rw [hfold]
        rfl

theorem Declaration.data_alike (declared : Declaration) :
    Alike declared.data declared.unplaced.data := by
  obtain ⟨symbol, initial⟩ := declared
  cases initial with
  | none => exact .pure _
  | some value =>
      by_cases hstring : value.isString = true
      · cases value with
        | string note bytes =>
            exact (Alike.stringData _ _).bind fun label => .pure (Data.address label)
        | _ => cases hstring
      · have hvalue : value.isString = false := by simpa using hstring
        have hunplaced : value.unplaced.isString = false := by rwa [Expr.unplaced_isString]
        rw [Declaration.unplaced, data_of_fold _ hvalue]
        simp only [Option.map_some]
        rw [data_of_fold _ hunplaced, Expr.unplaced_fold]
        cases value.fold with
        | none => exact .fail _
        | some value => exact .ite (.pure _) (.pure _)

theorem Declaration.lowerGlobal_alike (declared : Declaration) :
    Alike declared.lowerGlobal declared.unplaced.lowerGlobal := by
  refine .ite (.pure ()) ((Alike.visit _ _).seq <| declared.data_alike.bind fun data => ?_)
  exact (Alike.emit _).seq <| (Alike.mark _).seq (.line _)

theorem Function.lower_alike (scopes : Scopes) (function : Function) :
    Alike (function.lower scopes) (function.unplaced.lower scopes.unplaced) := by
  unfold Function.lower
  rw [scopes.unplaced_frame]
  refine (Alike.visit _ _).seq <| (Alike.lift _).bind fun size => (Alike.mark _).seq ?_
  refine (Alike.reserve size).seq <| (lowerStatements_alike _ function.body).seq ?_
  exact (Alike.mark _).seq <| (Alike.release size).seq (.emit _)

theorem Item.lower_alike (scopes : Scopes) (item : Item) :
    Alike (item.lower scopes) (item.unplaced.lower scopes.unplaced) := by
  cases item with
  | global declared => exact declared.lowerGlobal_alike
  | function defined => exact defined.lower_alike scopes

theorem items_alike (scopes : Scopes) (items : List Item) :
    Alike (items.forM (Item.lower scopes))
      ((items.map Item.unplaced).forM (Item.lower scopes.unplaced)) := by
  induction items with
  | nil => exact .pure ()
  | cons item items ih => exact (item.lower_alike scopes).seq ih

theorem Program.lower_alike (program : Program) : Alike program.lower program.unplaced.lower := by
  refine (Alike.mark _).seq <| (Alike.emit _).seq <| (Alike.mark _).seq <| (Alike.emit _).seq ?_
  exact (items_alike program.scopes program.items).seq (.mark _)

/-- A program without places has the lines of the program, or is refused for the same cause. -/
theorem Program.lines_unplaced (program : Program) :
    program.unplaced.lines.mapError (Stop.map (·.value)) =
      program.lines.mapError (Stop.map (·.value)) := by
  have hrun := program.lower_alike .initial LowerState.initial.here
  unfold Program.lines
  generalize program.lower.run .initial = result at hrun
  generalize hother : program.unplaced.lower.run _ = other at hrun
  cases hrun with
  | done value code state here => rfl
  | stopped cause here other => cases cause <;> rfl

end AccumulatorC
