import AccumulatorC.Proofs.Lowering.StatementLabels
import AccumulatorC.Proofs.Program.Nodes

/-!
# Screening for operations that the machine lacks

The machine multiplies, divides and shifts bytes only. Lowering looks at every operation of an
expression or a statement on the way: it comes to an end only if the machine lacks none of them,
and one that the machine lacks is the only reason for saying so. Operations on registers have
nothing to do with this, apart from the one that an operator is lowered to.
-/

namespace AccumulatorC

/-- What the machine lacks to apply an operator to pairs. -/
def BinaryOp.missing? : BinaryOp → Option WideOp
  | mul => some .multiplication
  | div => some .division
  | shiftLeft | shiftRight => some .shifting
  | _ => none

/-- What the machine lacks for an expression apart from its parts: it is a multiplication, a
division or a shift, and its type has two bytes. -/
def Expr.missing? : Expr → Option WideOp
  | binary note op _ _ => if note.type.size = 2 then op.missing? else none
  | _ => none

/-- What the machine lacks according to a cause. -/
def Stop.missing? : Stop LowerError → Option WideOp
  | .diagnosis (.unsupported op) => some op
  | _ => none

namespace Lowering

variable {α β : Type} {stops others : Stop LowerError → Prop} {post after : α → Prop}

/-! ## How steps conclude -/

/-- The step stops with causes of a kind only, and every value that it can give meets a
postcondition. -/
def Concludes (stops : Stop LowerError → Prop) (post : α → Prop) : Lowering α → Prop
  | give value => post value
  | stop cause => stops cause
  | look next => ∀ state, (next state).Concludes stops post
  | change _ next | write _ next => next.Concludes stops post
  | request size next =>
      (∀ r, (next r).Concludes stops post) ∧ ∀ held, stops (.diagnosis (.exhausted size held))

/-- More causes can be admitted, and the postcondition can be weakened. -/
theorem Concludes.mono {step : Lowering α} (h : step.Concludes stops post)
    (hstops : ∀ cause, stops cause → others cause) (hpost : ∀ value, post value → after value) :
    step.Concludes others after := by
  induction step with
  | give value => exact hpost value h
  | stop cause => exact hstops cause h
  | look next ih => exact fun state => ih state (h state)
  | change f next ih => exact ih h
  | write line next ih => exact ih h
  | request size next ih => exact ⟨fun r => ih r (h.1 r), fun held => hstops _ (h.2 held)⟩

/-- What a run gives meets the postcondition. -/
theorem Concludes.given {step : Lowering α} (h : step.Concludes stops post) {state : LowerState}
    {done : Lowered α} (hdone : step.run state = .ok done) : post done.value := by
  induction step generalizing state done with
  | give value =>
      cases hdone
      exact h
  | stop cause => cases hdone
  | look next ih => exact ih state (h state) hdone
  | change f next ih => exact ih h hdone
  | write line next ih =>
      obtain ⟨rest, hrest, rfl⟩ := map_eq_ok.mp hdone
      have hpost : post rest.value := ih h hrest
      exact hpost
  | request size next ih =>
      simp only [run] at hdone
      split at hdone
      next r _ => exact ih r (h.1 r) hdone
      next => cases hdone

/-- A run stops with causes of the kind only. -/
theorem Concludes.stopped {step : Lowering α} (h : step.Concludes stops post) {state : LowerState}
    {reason : Stop (Located LowerError)} (hrun : step.run state = .error reason) :
    ∃ cause here, stops cause ∧ reason = cause.map (⟨·, here⟩) := by
  induction step generalizing state with
  | give value => cases hrun
  | stop cause =>
      cases hrun
      exact ⟨cause, state.here, h, rfl⟩
  | look next ih => exact ih state (h state) hrun
  | change f next ih => exact ih h hrun
  | write line next ih => exact ih h (map_eq_error.mp hrun)
  | request size next ih =>
      simp only [run] at hrun
      split at hrun
      next r _ => exact ih r (h.1 r) hrun
      next =>
          cases hrun
          exact ⟨_, state.here, h.2 state.held, rfl⟩

/-- Two steps conclude as the first one does, followed by the second one with any value of it. -/
@[simp] theorem concludes_bind {first : Lowering α} {second : α → Lowering β} {post : β → Prop} :
    (first >>= second).Concludes stops post ↔
      first.Concludes stops fun value => (second value).Concludes stops post := by
  show (first.andThen second).Concludes stops post ↔ _
  induction first with
  | give value => exact .rfl
  | stop cause => exact .rfl
  | look next ih => exact forall_congr' ih
  | change f next ih => exact ih
  | write line next ih => exact ih
  | request size next ih => exact and_congr_left fun _ => forall_congr' ih

@[simp] theorem concludes_ite {c : Prop} [Decidable c] {yes no : Lowering α} :
    (if c then yes else no).Concludes stops post ↔
      (c → yes.Concludes stops post) ∧ (¬ c → no.Concludes stops post) := by
  by_cases hc : c <;> simp [hc]

theorem concludes_lift {result : Except Breakdown α} (h : ∀ value, post value)
    (hstops : ∀ cause, stops (.breakdown cause)) : (lift result).Concludes stops post := by
  cases result with
  | ok value => exact h value
  | error cause => exact hstops cause

@[simp] theorem concludes_emit {instr : Instr} {post : Unit → Prop} :
    (emit instr).Concludes stops post ↔ post () := .rfl

@[simp] theorem concludes_mark {label : Label} {post : Unit → Prop} :
    (mark label).Concludes stops post ↔ post () := .rfl

/-! ## Steps that need nothing -/

/-- The step never stops because the machine lacks an operation. -/
abbrev Supported (step : Lowering α) : Prop :=
  step.Concludes (fun cause => cause.missing? = none) fun _ => True

namespace Supported

theorem pure (value : α) : (Pure.pure value : Lowering α).Supported := trivial

/-- Two steps need nothing that the machine lacks if neither of them does. -/
theorem bind {first : Lowering α} {second : α → Lowering β} (h : first.Supported)
    (hsecond : ∀ value, (second value).Supported) : (first >>= second).Supported :=
  concludes_bind.mpr (h.mono (fun _ => id) fun value _ => hsecond value)

theorem ite {c : Prop} [Decidable c] {yes no : Lowering α} (hyes : yes.Supported)
    (hno : no.Supported) : (if c then yes else no).Supported :=
  concludes_ite.mpr ⟨fun _ => hyes, fun _ => hno⟩

/-- What is lifted breaks down at worst. -/
theorem lift (result : Except Breakdown α) : (Lowering.lift result).Supported :=
  concludes_lift (fun _ => trivial) fun _ => rfl

theorem get : Lowering.get.Supported := fun _ => trivial

theorem visit (location : Location) : (Lowering.visit location).Supported := trivial

theorem emit (instr : Instr) : (Lowering.emit instr).Supported := trivial

theorem mark (label : Label) : (Lowering.mark label).Supported := trivial

theorem free (r : Reg) : (Lowering.free r).Supported := trivial

theorem claim (r : Reg) : (Lowering.claim r).Supported := fun _ => trivial

theorem newLabel (family : Family) : (Lowering.newLabel family).Supported := fun _ => trivial

/-- Allocation may lack a register, never an operation. -/
theorem allocate (size : Nat) : (Lowering.allocate size).Supported :=
  ⟨fun _ => trivial, fun _ => rfl⟩

theorem deepen (bytes : Nat) : (Lowering.deepen bytes).Supported :=
  get.bind fun _ => (lift _).bind fun _ => trivial

theorem push (r : Reg) : (Lowering.push r).Supported := (deepen _).bind fun _ => emit _

theorem shallow (bytes : Nat) : (Lowering.shallow bytes).Supported :=
  get.bind fun _ => (lift _).bind fun _ => trivial

theorem pop (r : Reg) : (Lowering.pop r).Supported := (emit _).bind fun _ => shallow _

/-- A list of steps needs what its steps need. -/
theorem forM {step : α → Lowering Unit} (h : ∀ a, (step a).Supported) (list : List α) :
    (list.forM step).Supported := by
  induction list with
  | nil => trivial
  | cons a list ih => exact (h a).bind fun _ => ih

/-! ## Operations -/

/-- Saving the accumulator around a step needs nothing that the machine lacks. -/
theorem preservingAccumulator {step : Lowering Unit} (h : step.Supported) :
    (Lowering.preservingAccumulator step).Supported := by
  refine (claim .a).bind fun _ => ite (h.bind fun _ => free .a) ?_
  exact (push .a).bind fun _ => h.bind fun _ => pop .a

theorem throughAccumulator {step : Lowering Unit} (h : step.Supported) (r : Reg) :
    (Lowering.throughAccumulator r step).Supported :=
  ite h (preservingAccumulator ((emit _).bind fun _ => h.bind fun _ => emit _))

theorem accumulate {left right : Reg} {step : Reg → Lowering Unit} (h : ∀ r, (step r).Supported) :
    (Lowering.accumulate left right step).Supported := by
  have hthrough : ∀ r, Supported (do
      Lowering.throughAccumulator left (step r)
      Lowering.free r
      return left) := fun r => ((h r).throughAccumulator left).bind fun _ => free r
  refine ite ?_ (hthrough right)
  exact (allocate 1).bind fun moved => (emit _).bind fun _ => (free .a).bind fun _ => hthrough moved

theorem coerce (r : Reg) (size : Nat) : (Lowering.coerce r size).Supported := by
  refine ite ?_ (ite ((claim r.low).bind fun _ => pure r.low) (pure r))
  exact (free r).bind fun _ => (allocate 2).bind fun _ => ite trivial trivial

theorem compare (comparison : Comparison) (left right : Reg) :
    (Lowering.compare comparison left right).Supported := by
  rw [compare_eq]
  refine (newLabel _).bind fun n => ite (accumulate fun r => ?_) ?_
  · simp [comparing, decideTruth]
  · have hpairs : (comparingPairs comparison n left right).Supported := by
      simp [comparingPairs, decideTruth]
    exact (preservingAccumulator hpairs).bind fun _ => free right

theorem shift (right : Bool) (value count : Reg) : (Lowering.shift right value count).Supported := by
  rw [shift_eq]
  refine (newLabel _).bind fun n => accumulate fun r => (push .a).bind fun _ => ite ?_ ?_ <;>
    exact (pop .a).bind fun _ => trivial

theorem multiply (left right : Reg) : (Lowering.multiply left right).Supported := by
  rw [multiply_eq]
  exact (newLabel _).bind fun n => accumulate fun r => (allocate 1).bind fun _ => trivial

theorem divide (left right : Reg) : (Lowering.divide left right).Supported := by
  rw [divide_eq]
  exact (newLabel _).bind fun n => accumulate fun r => (allocate 1).bind fun _ => trivial

theorem simple (op : AccumulatorOp) (left right : Reg) : (Lowering.simple op left right).Supported :=
  accumulate fun _ => emit _

theorem combine (op : PairOp) (left right : Reg) : (Lowering.combine op left right).Supported :=
  (emit _).bind fun _ => free right

theorem halfwise (op : AccumulatorOp) (left right : Reg) :
    (Lowering.halfwise op left right).Supported :=
  ((emit _).throughAccumulator _).bind fun _ => ((emit _).throughAccumulator _).bind fun _ =>
    free right

/-- Every operator can be applied to bytes. -/
theorem operateBytes (op : BinaryOp) (left right : Reg) :
    (Lowering.operateBytes op left right).Supported := by
  cases op with
  | add | sub | and | or => exact simple _ left right
  | mul => exact multiply left right
  | div => exact divide left right
  | shiftLeft => exact shift false left right
  | shiftRight => exact shift true left right
  | _ => exact lift (.error .malformedTree)

theorem negate (r : Reg) : (Lowering.negate r).Supported :=
  (allocate _).bind fun zero => (emit _).bind fun _ => ite (combine _ zero r) (simple _ zero r)

theorem stepBy (step : Reg → Instr) (r : Reg) (count : Nat) :
    (Lowering.stepBy step r count).Supported := by
  induction count with
  | zero => trivial
  | succ count ih => exact (emit _).bind fun _ => ih

theorem stepPair (address : Address) : (Lowering.stepPair address).Supported := by
  cases address <;> trivial

theorem load (r : Reg) (address : Address) : (Lowering.load r address).Supported := by
  unfold Lowering.load
  split
  · trivial
  · exact (emit _).bind fun _ => (stepPair address).bind fun _ => (lift _).bind fun _ => emit _

/-- Registers of either size can be stored. -/
theorem store (address : Address) (r : Reg) : (Lowering.store address r).Supported := by
  unfold Lowering.store
  split
  · trivial
  · exact (emit _).bind fun _ => (stepPair address).bind fun _ => (lift _).bind fun _ => emit _

theorem stringData (inside : Bool) (bytes : List UInt8) :
    (Lowering.stringData inside bytes).Supported := fun _ => trivial

theorem address (scopes : Scopes) (symbol : Symbol) (scope : ScopeId) :
    (scopes.address symbol scope).Supported := by
  refine (lift _).bind fun found => ?_
  cases found with
  | none => trivial
  | some offset => exact get.bind fun _ => (lift _).bind fun _ => trivial

/-! ## Calls -/

/-- All registers in use can be saved. -/
theorem saveAll : Lowering.saveAll.Supported :=
  get.bind fun _ => (forM (fun r => (push r).bind fun _ => free r) _).bind fun _ => trivial

theorem claimAll (registers : List Reg) : (Lowering.claimAll registers).Supported :=
  forM (fun r => claim r) registers

theorem moveResult (clashing : List Reg) (result : Option Reg) :
    (Lowering.moveResult clashing result).Supported := by
  cases result with
  | none => trivial
  | some r => exact ite trivial ((allocate _).bind fun _ => trivial)

theorem finishCall (function : Symbol) (saved : List Reg) (pushed : Nat) :
    (Lowering.finishCall function saved pushed).Supported := by
  have hrestore : (restore function saved).Supported := by
    refine (ite (pure none) ((claim _).bind fun _ => pure _)).bind fun result => ?_
    refine (claimAll _).bind fun _ => (moveResult _ result).bind fun _ => ?_
    exact (claimAll _).bind fun _ => (forM pop _).bind fun _ => trivial
  rw [finishCall_eq]
  exact (emit _).bind fun _ => ite ((emit _).bind fun _ => (shallow _).bind fun _ => hrestore) hrestore

end Supported

end Lowering

end AccumulatorC
