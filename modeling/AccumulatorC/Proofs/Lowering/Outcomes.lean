import AccumulatorC.Proofs.Lowering.Ensures

/-!
# What a step comes to

A step from a state either gives a value or fails. The rules below say from the parts of a
step which of the two it comes to.
-/

namespace AccumulatorC.Lowering

variable {α β : Type} {state : LowerState}

/-- The step gives a value, and this and the state after it meet a postcondition. -/
def Gives (step : Lowering α) (state : LowerState) (post : α → LowerState → Prop) : Prop :=
  ∃ done, step.run state = .ok done ∧ post done.value done.state

/-- The step is diagnosed with a cause. -/
def Fails (step : Lowering α) (state : LowerState) (cause : LowerError) : Prop :=
  ∃ here, step.run state = .error (.diagnosis ⟨cause, here⟩)

namespace Gives

variable {post other : α → LowerState → Prop}

theorem mono {step : Lowering α} (h : Gives step state post)
    (himp : ∀ value after, post value after → other value after) : Gives step state other := by
  obtain ⟨done, hdone, hpost⟩ := h
  exact ⟨done, hdone, himp _ _ hpost⟩

/-- A step that gives a value gives one that meets what the step ensures. -/
theorem ensured {step : Lowering α} (h : Gives step state fun _ _ => True)
    (hensures : Ensures step state fun value _ after => post value after) :
    Gives step state post := by
  obtain ⟨done, hdone, -⟩ := h
  exact ⟨done, hdone, hensures.apply hdone⟩

end Gives

section Rules

variable {post : α → LowerState → Prop}

/-- What a step gives is known from its run. -/
theorem gives_iff_of_run {step : Lowering α} (done : Lowered α) (h : step.run state = .ok done) :
    Gives step state post ↔ post done.value done.state := by
  constructor
  · rintro ⟨found, hfound, hpost⟩
    cases h.symm.trans hfound
    exact hpost
  · intro hpost
    exact ⟨done, h, hpost⟩

@[simp] theorem gives_pure {value : α} : Gives (pure value) state post ↔ post value state :=
  gives_iff_of_run ⟨value, [], state⟩ rfl

/-- Two steps give something if the first one does and the second one does with it. -/
@[simp] theorem gives_bind {first : Lowering α} {second : α → Lowering β}
    {post : β → LowerState → Prop} :
    Gives (first >>= second) state post ↔
      Gives first state fun value after => Gives (second value) after post := by
  constructor
  · rintro ⟨whole, hwhole, hpost⟩
    rw [run_bind] at hwhole
    cases hfirst : first.run state with
    | error stop => simp [hfirst, Except.bind] at hwhole
    | ok done =>
        rw [hfirst] at hwhole
        cases hsecond : (second done.value).run done.state with
        | error stop => simp [Except.bind, Except.map, hsecond] at hwhole
        | ok rest =>
            simp only [Except.bind, Except.map, hsecond, Except.ok.injEq] at hwhole
            subst hwhole
            exact ⟨done, hfirst, rest, hsecond, hpost⟩
  · rintro ⟨done, hdone, rest, hrest, hpost⟩
    refine ⟨⟨rest.value, done.code ++ rest.code, rest.state⟩, ?_, hpost⟩
    rw [run_bind, hdone]
    simp only [Except.bind, Except.map, hrest]

@[simp] theorem gives_map {f : α → β} {step : Lowering α} {post : β → LowerState → Prop} :
    Gives (f <$> step) state post ↔ Gives step state fun value after => post (f value) after := by
  have hmap : f <$> step = step >>= fun value => pure (f value) := rfl
  simp only [hmap, gives_bind, gives_pure]

@[simp] theorem gives_get {post : LowerState → LowerState → Prop} :
    Gives get state post ↔ post state state :=
  gives_iff_of_run ⟨state, [], state⟩ rfl

@[simp] theorem gives_modify {change : LowerState → LowerState} {post : Unit → LowerState → Prop} :
    Gives (modify change) state post ↔ post () (change state) :=
  gives_iff_of_run ⟨(), [], change state⟩ rfl

@[simp] theorem gives_lift {result : Except Breakdown α} :
    Gives (lift result) state post ↔ ∃ value, result = .ok value ∧ post value state := by
  cases result with
  | error cause => exact iff_of_false (fun ⟨_, hdone, _⟩ => nomatch hdone) (by simp)
  | ok value =>
      have hgive : Gives (lift (.ok value)) state post ↔ post value state := gives_pure
      simp [hgive]

@[simp] theorem gives_emit {instr : Instr} {post : Unit → LowerState → Prop} :
    Gives (emit instr) state post ↔ post () state :=
  gives_iff_of_run ⟨(), [.instr instr], state⟩ rfl

@[simp] theorem gives_mark {label : Label} {post : Unit → LowerState → Prop} :
    Gives (mark label) state post ↔ post () state :=
  gives_iff_of_run ⟨(), [.label label], state⟩ rfl

@[simp] theorem gives_visit {location : Location} {post : Unit → LowerState → Prop} :
    Gives (visit location) state post ↔ post () { state with here := location } :=
  gives_modify

@[simp] theorem gives_newLabel {family : Family} {post : Nat → LowerState → Prop} :
    Gives (newLabel family) state post ↔
      post (state.labels.count family) { state with labels := state.labels.add family } := by
  simp [newLabel]

@[simp] theorem gives_free {r : Reg} {post : Unit → LowerState → Prop} :
    Gives (free r) state post ↔ post () { state with held := state.held.erase r } :=
  gives_modify

@[simp] theorem gives_allocate {size : Nat} {post : Reg → LowerState → Prop} :
    Gives (allocate size) state post ↔
      ∃ r, state.held.firstFree size = some r ∧
        post r { state with held := state.held.insert r } := by
  unfold Gives
  simp only [allocate, run]
  cases state.held.firstFree size <;> simp

@[simp] theorem gives_claim {r : Reg} {post : Bool → LowerState → Prop} :
    Gives (claim r) state post ↔
      post (state.held.claim r).1 { state with held := (state.held.claim r).2 } := by
  simp [claim]

@[simp] theorem gives_push {r : Reg} {post : Unit → LowerState → Prop} :
    Gives (push r) state post ↔
      state.depth + r.size < addressLimit ∧
        post () { state with depth := state.depth + r.size } := by
  by_cases hfit : state.depth + r.size < addressLimit <;>
    simp [push, deepen, addBytes, hfit]

@[simp] theorem gives_pop {r : Reg} {post : Unit → LowerState → Prop} :
    Gives (pop r) state post ↔
      r.size ≤ state.depth ∧ post () { state with depth := state.depth - r.size } := by
  by_cases hfit : r.size ≤ state.depth <;> simp [pop, shallow, takeBytes, hfit]

end Rules

namespace Fails

variable {cause : LowerError}

/-- A step that fails ends what it begins. -/
theorem bind {first : Lowering α} (h : Fails first state cause) (second : α → Lowering β) :
    Fails (first >>= second) state cause := by
  obtain ⟨here, hrun⟩ := h
  refine ⟨here, ?_⟩
  rw [run_bind, hrun]
  rfl

theorem after {first : Lowering α} {post : α → LowerState → Prop} (h : Gives first state post)
    {second : α → Lowering β}
    (hsecond : ∀ value middle, post value middle → Fails (second value) middle cause) :
    Fails (first >>= second) state cause := by
  obtain ⟨done, hdone, hpost⟩ := h
  obtain ⟨here, hrun⟩ := hsecond _ _ hpost
  refine ⟨here, ?_⟩
  rw [run_bind, hdone]
  simp only [Except.bind, Except.map, hrun]

theorem visit {location : Location} {second : Unit → Lowering β}
    (h : Fails (second ()) { state with here := location } cause) :
    Fails (visit location >>= second) state cause := h

/-- No register is free. -/
theorem allocate {size : Nat} (h : state.held.firstFree size = none) :
    Fails (allocate size) state (.exhausted size state.held) := by
  refine ⟨state.here, ?_⟩
  simp only [Lowering.allocate, run, h]

end Fails

end AccumulatorC.Lowering
