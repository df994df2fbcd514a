import AccumulatorC.Proofs.Lowering.Calling
import AccumulatorC.Proofs.Lowering.Events
import AccumulatorC.Proofs.Lowering.Labels

/-!
# Steps in which nothing goes wrong

A step is sound when all that happens in it is as it should be: no two registers in use overlap,
registers are asked for with one or two bytes, a number that is put into a byte register is a
byte, and the step ends early only where registers run out, where the machine lacks an operation,
or where bytes do not fit into the address space.
-/

namespace AccumulatorC

/-- What may keep a program that has been read from being lowered. -/
def Stop.Permitted : Stop LowerError → Prop
  | .diagnosis (.exhausted size _) => size = 1 ∨ size = 2
  | .diagnosis (.unsupported _) => True
  | .diagnosis .voidValue | .diagnosis .notConstant => False
  | .breakdown cause => cause = .overflow

/-- A number that is put into a byte register is a byte. -/
def Line.NumberFits : Line → Prop
  | .instr (.setNumber r value) => r.size = 1 → value ≤ 0xff
  | _ => True

/-- What happens while a program that has been read is lowered. -/
def Event.Sound : Event → Prop
  | .enters state => state.held.ConflictFree
  | .emits line => line.NumberFits
  | .asks size => size = 1 ∨ size = 2
  | .stops cause => cause.Permitted

namespace Lowering

variable {α β : Type}

/-- Whatever conflict-free set of registers is in use, nothing goes wrong in the step. -/
def Sound (step : Lowering α) : Prop :=
  ∀ state : LowerState, state.held.ConflictFree → Always Event.Sound step state

/-- After a sound step the registers in use are free of conflicts as well. -/
theorem conflictFree_after {step : Lowering α} {state : LowerState}
    (h : Always Event.Sound step state) (hfree : state.held.ConflictFree) :
    Ensures step state fun _ _ after => after.held.ConflictFree := by
  intro done hdone
  rcases enters_mem_events hdone with heq | hmem
  · rw [heq]
    exact hfree
  · exact h _ hmem

namespace Sound

theorem pure (value : α) : Sound (Pure.pure value) := fun _ _ => always_pure

theorem bind {step : Lowering α} {next : α → Lowering β} (h : Sound step)
    (hnext : ∀ value, Sound (next value)) : Sound (step >>= next) := by
  intro state hfree
  rw [always_bind]
  refine ⟨h state hfree, (conflictFree_after (h state hfree) hfree).mono ?_⟩
  exact fun value _ after hafter => hnext value after hafter

theorem ite {c : Prop} [Decidable c] {yes no : Lowering α} (hyes : c → Sound yes)
    (hno : ¬ c → Sound no) : Sound (if c then yes else no) := fun state hfree =>
  always_ite.mpr ⟨fun hc => hyes hc state hfree, fun hc => hno hc state hfree⟩

theorem get : Sound get := fun _ _ => always_get

theorem emit {instr : Instr} (h : (Line.instr instr).NumberFits) : Sound (emit instr) :=
  fun _ _ => always_emit.mpr h

theorem mark (label : Label) : Sound (mark label) := fun _ _ => always_mark.mpr trivial

theorem visit (location : Location) : Sound (visit location) := fun _ hfree =>
  always_visit.mpr hfree

theorem newLabel (family : Family) : Sound (newLabel family) := fun _ hfree =>
  always_newLabel.mpr hfree

theorem fail {cause : LowerError} (h : (Stop.diagnosis cause).Permitted) :
    Sound (fail cause : Lowering α) := fun _ _ => always_fail.mpr h

/-- A calculation with byte counts fails only when they grow beyond the address space. -/
theorem lift {result : Except Breakdown α} (h : ∀ cause, result = .error cause → cause = .overflow) :
    Sound (lift result) := fun _ _ => always_lift.mpr h

theorem allocate {size : Nat} (h : size = 1 ∨ size = 2) : Sound (allocate size) := fun _ hfree =>
  always_allocate.mpr ⟨h, fun _ hr => hfree.insert (RegSet.firstFree_eq_some hr).1, fun _ => h⟩

theorem claim (r : Reg) : Sound (claim r) := by
  intro state hfree
  rw [always_claim]
  unfold RegSet.claim
  split
  next hr => exact hfree.insert hr
  · exact hfree

theorem free (r : Reg) : Sound (free r) := fun _ hfree => always_free.mpr (hfree.erase r)

theorem deepen (bytes : Nat) : Sound (deepen bytes) := by
  refine get.bind fun state => (lift fun _ hsum => (addBytes_eq_error.mp hsum).2).bind fun depth => ?_
  exact fun _ hfree => always_modify.mpr hfree

theorem push (r : Reg) : Sound (push r) := (deepen r.size).bind fun _ => emit trivial

theorem reserve (bytes : Nat) : Sound (reserve bytes) :=
  ite (fun _ => emit trivial) fun _ => pure ()

theorem release (bytes : Nat) : Sound (release bytes) :=
  ite (fun _ => emit trivial) fun _ => pure ()

end Sound

/-! ## Taking off the stack -/

/-- Bytes that have been counted can be taken off. -/
theorem sound_pop {r : Reg} {state : LowerState} (hfree : state.held.ConflictFree)
    (hdepth : r.size ≤ state.depth) : Always Event.Sound (pop r) state :=
  always_pop.mpr ⟨trivial, fun _ => hfree, fun hlt => absurd hdepth (Nat.not_le.mpr hlt)⟩

theorem sound_forM_pop {registers : List Reg} {state : LowerState}
    (hfree : state.held.ConflictFree) (hdepth : (registers.map Reg.size).sum ≤ state.depth) :
    Always Event.Sound (registers.forM pop) state := by
  induction registers generalizing state with
  | nil => exact always_pure
  | cons r registers ih =>
      rw [List.map_cons, List.sum_cons] at hdepth
      simp only [List.forM, always_bind, ensures_pop]
      refine ⟨sound_pop hfree (by omega), fun _ => ih hfree ?_⟩
      simp only
      omega

/-! ## Operations -/

section Operations

variable {step : Lowering Unit}

theorem Sound.preservingAccumulator (h : Sound step) (hkeeps : Keeps step) :
    Sound (preservingAccumulator step) := by
  refine (claim .a).bind fun claimed => ite (fun _ => h.bind fun _ => free .a) fun _ => ?_
  intro state hfree
  simp only [always_bind, ensures_push]
  refine ⟨push .a state hfree, fun _ => ⟨h _ hfree, (hkeeps _).mono fun _ _ after hafter => ?_⟩⟩
  refine sound_pop (by rw [hafter.1]; exact hfree) ?_
  rw [hafter.2]
  exact Nat.le_add_left _ _

theorem Sound.throughAccumulator (h : Sound step) (hkeeps : Keeps step) (r : Reg) :
    Sound (throughAccumulator r step) := by
  refine ite (fun _ => h) fun _ => preservingAccumulator ?_ ?_
  · exact .bind (.emit trivial) fun _ => h.bind fun _ => emit trivial
  · exact (Keeps.emit _).bind (hkeeps.bind (Keeps.emit _))

theorem Sound.accumulate {left right : Reg} {step : Reg → Lowering Unit}
    (h : ∀ r, Sound (step r)) (hkeeps : ∀ r, Keeps (step r)) :
    Sound (accumulate left right step) := by
  have hthrough : ∀ r, Sound (do
      Lowering.throughAccumulator left (step r)
      Lowering.free r
      return left) := fun r =>
    ((h r).throughAccumulator (hkeeps r) left).bind fun _ => (free r).bind fun _ => pure left
  refine ite (fun _ => ?_) fun _ => hthrough right
  refine .bind (allocate (.inl rfl)) fun moved => .bind (.emit trivial) fun _ => ?_
  exact (free .a).bind fun _ => hthrough moved

theorem sound_decideTruth (comparison : Comparison) (n : Nat) : Sound (decideTruth comparison n) := by
  intro state hfree
  simp [decideTruth, Event.Sound, Line.NumberFits]

theorem sound_compare (comparison : Comparison) (left right : Reg) :
    Sound (compare comparison left right) := by
  rw [compare_eq]
  refine (Sound.newLabel _).bind fun n => .ite (fun _ => ?_) fun _ => ?_
  · refine .accumulate (fun r => ?_) (keeps_comparing comparison n)
    exact .bind (.emit trivial) fun _ => sound_decideTruth comparison n
  · have hpairs : Sound (comparingPairs comparison n left right) := by
      intro state hfree
      simp [comparingPairs, decideTruth, Event.Sound, Line.NumberFits]
    refine (hpairs.preservingAccumulator (keeps_comparingPairs comparison n left right)).bind ?_
    exact fun _ => (Sound.free right).bind fun _ => .pure left

theorem sound_multiply (left right : Reg) : Sound (multiply left right) := by
  rw [multiply_eq]
  refine (Sound.newLabel _).bind fun n => .accumulate (fun r => ?_) (keeps_multiplication n)
  unfold multiplication
  refine (Sound.allocate (.inl rfl)).bind fun multiplicand => ?_
  intro state hfree
  simpa [Event.Sound, Line.NumberFits] using hfree.erase multiplicand

theorem sound_divide (left right : Reg) : Sound (divide left right) := by
  rw [divide_eq]
  refine (Sound.newLabel _).bind fun n => .accumulate (fun r => ?_) (keeps_division n)
  unfold division
  refine (Sound.allocate (.inl rfl)).bind fun quotient => ?_
  intro state hfree
  simpa [Event.Sound, Line.NumberFits] using hfree.erase quotient

theorem sound_shift (right : Bool) (value count : Reg) : Sound (shift right value count) := by
  rw [shift_eq]
  refine (Sound.newLabel _).bind fun n => .accumulate (fun r => ?_) (keeps_shifting right n)
  intro state hfree
  cases right <;> simpa [shifting, Event.Sound, Line.NumberFits, Stop.Permitted] using fun _ => hfree

theorem sound_coerce (r : Reg) (size : Nat) : Sound (coerce r size) := by
  refine .ite (fun _ => ?_) fun _ => .ite (fun _ => ?_) fun _ => .pure r
  · refine (Sound.free r).bind fun _ => (Sound.allocate (.inr rfl)).bind fun wide => ?_
    have hrest : Sound (do emit (.setNumber wide.high 0); return wide) :=
      .bind (.emit fun _ => by decide) fun _ => .pure wide
    exact .ite (fun _ => .bind (.emit trivial) fun _ => hrest) fun _ => hrest
  · exact (Sound.free r).bind fun _ => (Sound.claim r.low).bind fun _ => .pure r.low

theorem sound_simple (op : AccumulatorOp) (left right : Reg) : Sound (simple op left right) := by
  refine Sound.accumulate (fun r => ?_) fun r => .emit _
  exact .emit trivial

theorem sound_combine (op : PairOp) (left right : Reg) : Sound (combine op left right) := by
  unfold combine
  exact .bind (.emit trivial) fun _ => (Sound.free right).bind fun _ => .pure left

theorem sound_halfwise (op : AccumulatorOp) (left right : Reg) : Sound (halfwise op left right) := by
  have hhalf : ∀ half other : Reg,
      Sound (throughAccumulator half (emit (.accumulate op (.reg other)))) := by
    intro half other
    have hemit : Sound (emit (.accumulate op (.reg other))) := .emit trivial
    exact hemit.throughAccumulator (.emit _) half
  refine (hhalf _ _).bind fun _ => (hhalf _ _).bind fun _ => ?_
  exact (Sound.free right).bind fun _ => .pure left

/-- Every operator has its step: what is no comparison is an operation on bytes or on pairs, or
one that the machine lacks. -/
theorem sound_operate (op : BinaryOp) (size : Nat) (left right : Reg) :
    Sound (operate op size left right) := by
  unfold operate
  split
  · exact sound_compare _ left right
  next hnone =>
    refine .ite (fun _ => ?_) fun _ => ?_
    · cases op with
      | add | sub => exact sound_combine _ left right
      | and | or => exact sound_halfwise _ left right
      | mul | div | shiftLeft | shiftRight => exact Sound.fail trivial
      | _ => cases hnone
    · cases op with
      | add | sub | and | or => exact sound_simple _ left right
      | mul => exact sound_multiply left right
      | div => exact sound_divide left right
      | shiftLeft => exact sound_shift false left right
      | shiftRight => exact sound_shift true left right
      | _ => cases hnone

theorem sound_negate (r : Reg) : Sound (negate r) := by
  refine (Sound.allocate r.size_eq_one_or_two).bind fun zero => ?_
  refine .bind (.emit fun _ => by decide) fun _ => ?_
  exact .ite (fun _ => sound_combine .sub zero r) fun _ => sound_simple .sub zero r

theorem sound_stepBy {step : Reg → Instr} (hstep : ∀ r, (Line.instr (step r)).NumberFits) (r : Reg)
    (count : Nat) : Sound (stepBy step r count) := by
  induction count with
  | zero => exact .pure ()
  | succ count ih => exact (Sound.emit (hstep r)).bind fun _ => ih

theorem sound_nextByte (address : Address) (instr : Address → Instr)
    (hinstr : ∀ address, (Line.instr (instr address)).NumberFits) :
    Sound (do
      stepPair address
      emit (instr (← lift address.next))) := by
  have hstep : Sound (stepPair address) := by
    cases address with
    | indirect pair => exact .emit trivial
    | label name offset => exact .pure ()
    | stack offset => exact .pure ()
  refine hstep.bind fun _ => (Sound.lift fun cause hcause => ?_).bind fun next => .emit (hinstr next)
  cases address with
  | indirect pair => cases hcause
  | label name offset => exact (addBytes_eq_error.mp (map_eq_error.mp hcause)).2
  | stack offset => exact (addBytes_eq_error.mp (map_eq_error.mp hcause)).2

theorem sound_load (r : Reg) (address : Address) : Sound (load r address) := by
  unfold load
  split
  · exact .emit trivial
  · exact Sound.bind (.emit trivial) fun _ => sound_nextByte address (.load _) fun _ => trivial

theorem sound_store (address : Address) (r : Reg) : Sound (store address r) := by
  unfold store
  split
  · exact .emit trivial
  · exact Sound.bind (.emit trivial) fun _ => sound_nextByte address (.store · _) fun _ => trivial

theorem sound_stringData (inside : Bool) (bytes : List UInt8) : Sound (stringData inside bytes) := by
  intro state hfree
  simpa [stringData, Event.Sound, Line.NumberFits] using hfree

end Operations

end Lowering

end AccumulatorC
