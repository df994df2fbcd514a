import AccumulatorC.Proofs.Breakdown
import AccumulatorC.Proofs.Lowering.Allocation

/-!
# What happens while a step runs

Whether a step succeeds or ends early, it passes states, emits lines and asks for registers on
the way. A condition holds always in a step when it holds of all that happens; the rules below
take it apart into conditions on the parts, each part running from a state that the parts before
it can end in.
-/

namespace AccumulatorC

/-- Something that happens while a step runs. -/
inductive Event
  /-- The state is changed to another one. -/
  | enters (state : LowerState)
  | emits (line : Line)
  /-- A register of at least so many bytes is asked for. -/
  | asks (size : Nat)
  | stops (cause : Stop LowerError)

namespace Lowering

variable {α β : Type}

/-- All that happens while a step runs from a state, in order. -/
def events : Lowering α → LowerState → List Event
  | give _, _ => []
  | stop cause, _ => [.stops cause]
  | look next, state => (next state).events state
  | change f next, state => .enters (f state) :: next.events (f state)
  | write line next, state => .emits line :: next.events state
  | request size next, state =>
      .asks size ::
        match state.held.firstFree size with
        | some r =>
            let after := { state with held := state.held.insert r }
            .enters after :: (next r).events after
        | none => [.stops (.diagnosis (.exhausted size state.held))]

attribute [local simp] events

/-- What happens in two steps is what happens in the first and, if it gives a value, in the
second after it. -/
theorem mem_events_bind {first : Lowering α} {second : α → Lowering β} {state : LowerState}
    {event : Event} :
    event ∈ (first >>= second).events state ↔
      event ∈ first.events state ∨
        ∃ done, first.run state = .ok done ∧ event ∈ (second done.value).events done.state := by
  show event ∈ (first.andThen second).events state ↔ _
  induction first generalizing state with
  | give value =>
      simp only [andThen, events, run, List.not_mem_nil, false_or, Except.ok.injEq,
        exists_eq_left']
  | stop cause => simp [andThen, run]
  | look next ih => exact ih state
  | change f next ih =>
      simp only [andThen, events, run, List.mem_cons, ih, or_assoc]
  | write line next ih =>
      simp only [andThen, events, run, List.mem_cons, ih, or_assoc, map_eq_ok]
      refine or_congr_right (or_congr_right ?_)
      constructor
      · rintro ⟨done, hdone, hevent⟩
        exact ⟨_, ⟨done, hdone, rfl⟩, hevent⟩
      · rintro ⟨_, ⟨done, hdone, rfl⟩, hevent⟩
        exact ⟨done, hdone, hevent⟩
  | request size next ih =>
      simp only [andThen, events, run, List.mem_cons]
      cases state.held.firstFree size with
      | none => simp
      | some r => simp only [List.mem_cons, ih, or_assoc]

/-- A step that ends early says so. -/
theorem stops_mem_events {step : Lowering α} {state : LowerState}
    {cause : Stop (Located LowerError)} (h : step.run state = .error cause) :
    ∃ stop here, .stops stop ∈ step.events state ∧ cause = stop.map (⟨·, here⟩) := by
  induction step generalizing state with
  | give value => cases h
  | stop stop =>
      cases h
      exact ⟨stop, state.here, List.mem_singleton.mpr rfl, rfl⟩
  | look next ih => exact ih state h
  | change f next ih =>
      obtain ⟨stop, here, hmem, hcause⟩ := ih h
      exact ⟨stop, here, List.mem_cons_of_mem _ hmem, hcause⟩
  | write line next ih =>
      have hnext : next.run state = .error cause := by
        cases hrun : next.run state with
        | ok done => simp [run, hrun, Except.map] at h
        | error stop => simpa [run, hrun, Except.map] using h
      obtain ⟨stop, here, hmem, hcause⟩ := ih hnext
      exact ⟨stop, here, List.mem_cons_of_mem _ hmem, hcause⟩
  | request size next ih =>
      simp only [run] at h
      simp only [events]
      cases hfree : state.held.firstFree size with
      | none =>
          simp only [hfree] at h
          cases h
          exact ⟨.diagnosis (.exhausted size state.held), state.here, by simp, rfl⟩
      | some r =>
          simp only [hfree] at h
          obtain ⟨stop, here, hmem, hcause⟩ := ih r h
          exact ⟨stop, here, by simp [hmem], hcause⟩

/-- A step ends in the state that it started from or in one that it has changed to. -/
theorem enters_mem_events {step : Lowering α} {state : LowerState} {done : Lowered α}
    (h : step.run state = .ok done) :
    done.state = state ∨ .enters done.state ∈ step.events state := by
  induction step generalizing state done with
  | give value =>
      cases h
      exact Or.inl rfl
  | stop cause => cases h
  | look next ih => exact ih state h
  | change f next ih =>
      rcases ih h with heq | hmem
      · rw [heq]
        exact Or.inr List.mem_cons_self
      · exact Or.inr (List.mem_cons_of_mem _ hmem)
  | write line next ih =>
      simp only [run, map_eq_ok] at h
      obtain ⟨rest, hrest, rfl⟩ := h
      rcases ih hrest with heq | hmem
      · exact Or.inl heq
      · exact Or.inr (List.mem_cons_of_mem _ hmem)
  | request size next ih =>
      simp only [run] at h
      simp only [events]
      cases hfree : state.held.firstFree size with
      | none => simp [hfree] at h
      | some r =>
          simp only [hfree] at h
          rcases ih r h with heq | hmem
          · rw [heq]
            exact Or.inr (by simp)
          · exact Or.inr (by simp [hmem])

/-! ## What always holds -/

/-- A condition holds of all that happens while a step runs from a state. -/
def Always (good : Event → Prop) (step : Lowering α) (state : LowerState) : Prop :=
  ∀ event ∈ step.events state, good event

section Rules

variable {good : Event → Prop} {state : LowerState}

@[simp] theorem always_pure {value : α} : Always good (pure value) state := by
  intro event h
  cases h

/-- What happens in two steps happens in the first one, or in the second one after what the first
one gives. -/
@[simp] theorem always_bind {first : Lowering α} {second : α → Lowering β} :
    Always good (first >>= second) state ↔
      Always good first state ∧
        Ensures first state fun value _ after => Always good (second value) after := by
  constructor
  · intro h
    refine ⟨fun event hevent => h event (mem_events_bind.mpr (Or.inl hevent)), ?_⟩
    exact fun done hdone event hevent => h event (mem_events_bind.mpr (Or.inr ⟨done, hdone, hevent⟩))
  · rintro ⟨hfirst, hsecond⟩ event hevent
    rcases mem_events_bind.mp hevent with hevent | ⟨done, hdone, hevent⟩
    · exact hfirst event hevent
    · exact hsecond done hdone event hevent

@[simp] theorem always_map {f : α → β} {step : Lowering α} :
    Always good (f <$> step) state ↔ Always good step state := by
  have hmap : f <$> step = step >>= fun value => pure (f value) := rfl
  rw [hmap, always_bind]
  exact and_iff_left fun _ _ => always_pure

@[simp] theorem always_ite {c : Prop} [Decidable c] {yes no : Lowering α} :
    Always good (if c then yes else no) state ↔
      (c → Always good yes state) ∧ (¬ c → Always good no state) := by
  by_cases hc : c <;> simp [hc]

@[simp] theorem always_get : Always good get state := by
  intro event h
  cases h

@[simp] theorem always_modify {change : LowerState → LowerState} :
    Always good (modify change) state ↔ good (.enters (change state)) := by
  simp [Always, modify]

@[simp] theorem always_fail {cause : LowerError} :
    Always good (fail cause : Lowering α) state ↔ good (.stops (.diagnosis cause)) := by
  simp [Always, fail]

/-- Lifting a breakdown stops the step with it. -/
@[simp] theorem always_lift {result : Except Breakdown α} :
    Always good (lift result) state ↔
      ∀ cause, result = .error cause → good (.stops (.breakdown cause)) := by
  cases result <;> simp [Always, lift]

@[simp] theorem always_line {l : Line} : Always good (line l) state ↔ good (.emits l) := by
  simp [Always, line]

@[simp] theorem always_emit {instr : Instr} :
    Always good (emit instr) state ↔ good (.emits (.instr instr)) := always_line

@[simp] theorem always_mark {label : Label} :
    Always good (mark label) state ↔ good (.emits (.label label)) := always_line

@[simp] theorem always_visit {location : Location} :
    Always good (visit location) state ↔ good (.enters { state with here := location }) :=
  always_modify

@[simp] theorem always_newLabel {family : Family} :
    Always good (newLabel family) state ↔
      good (.enters { state with labels := state.labels.add family }) := by
  simp [newLabel]

/-- Allocation asks for a size, and either holds a register of it or stops for lack of one. -/
@[simp] theorem always_allocate {size : Nat} :
    Always good (allocate size) state ↔
      good (.asks size) ∧
      (∀ r, state.held.firstFree size = some r →
        good (.enters { state with held := state.held.insert r })) ∧
      (state.held.firstFree size = none →
        good (.stops (.diagnosis (.exhausted size state.held)))) := by
  simp only [Always, allocate, events]
  cases state.held.firstFree size <;> simp

@[simp] theorem always_claim {r : Reg} :
    Always good (claim r) state ↔
      good (.enters { state with held := (state.held.claim r).2 }) := by
  simp [claim]

@[simp] theorem always_free {r : Reg} :
    Always good (free r) state ↔ good (.enters { state with held := state.held.erase r }) :=
  always_modify

/-- A push adds to the byte count first, and only where the sum stays inside the address space
does it go on. -/
@[simp] theorem always_push {r : Reg} :
    Always good (push r) state ↔
      (state.depth + r.size < addressLimit →
        good (.enters { state with depth := state.depth + r.size }) ∧
          good (.emits (.instr (.push r)))) ∧
      (addressLimit ≤ state.depth + r.size → good (.stops (.breakdown .overflow))) := by
  by_cases hfit : state.depth + r.size < addressLimit
  · simp [push, deepen, addBytes, hfit, Nat.not_le.mpr hfit]
  · simp [push, deepen, addBytes, hfit, Nat.le_of_not_lt hfit]

@[simp] theorem always_shallow {bytes : Nat} :
    Always good (shallow bytes) state ↔
      (bytes ≤ state.depth → good (.enters { state with depth := state.depth - bytes })) ∧
      (state.depth < bytes → good (.stops (.breakdown .underflow))) := by
  by_cases hfit : bytes ≤ state.depth
  · simp [shallow, takeBytes, hfit, Nat.not_lt.mpr hfit]
  · simp [shallow, takeBytes, hfit, Nat.lt_of_not_le hfit]

/-- A pop writes its instruction, and only then takes the bytes off the count. -/
@[simp] theorem always_pop {r : Reg} :
    Always good (pop r) state ↔
      good (.emits (.instr (.pop r))) ∧
      (r.size ≤ state.depth → good (.enters { state with depth := state.depth - r.size })) ∧
      (state.depth < r.size → good (.stops (.breakdown .underflow))) := by
  simp [pop]

end Rules

end Lowering

end AccumulatorC
