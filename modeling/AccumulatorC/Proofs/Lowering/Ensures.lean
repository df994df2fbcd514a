import AccumulatorC.Lowering.State

/-!
# What a step of lowering ensures

A postcondition of a step speaks about its value, its code and the state after it, and
holds of every result that the step has. The rules below turn a postcondition of a
compound step into postconditions of its parts; the code of the parts is joined on the way.
-/

namespace AccumulatorC.Lowering

variable {α β : Type}

instance : LawfulMonad Lowering := LawfulMonad.mk' Lowering
  (by
    intro α step
    show step.andThen give = step
    induction step with
    | give value => rfl
    | stop cause => rfl
    | look next ih => exact congrArg look (funext ih)
    | change f next ih => exact congrArg (change f) ih
    | write line next ih => exact congrArg (write line) ih
    | request size next ih => exact congrArg (request size) (funext ih))
  (fun _ _ => rfl)
  (by
    intro α β γ first second third
    show (first.andThen second).andThen third = first.andThen fun value => (second value).andThen third
    induction first with
    | give value => rfl
    | stop cause => rfl
    | look next ih => exact congrArg look (funext ih)
    | change f next ih => exact congrArg (change f) ih
    | write line next ih => exact congrArg (write line) ih
    | request size next ih => exact congrArg (request size) (funext ih))

/-- The code of two steps is the code of the first followed by that of the second. -/
theorem run_bind (first : Lowering α) (second : α → Lowering β) (state : LowerState) :
    (first >>= second).run state =
      (first.run state).bind fun done =>
        ((second done.value).run done.state).map fun rest =>
          { rest with code := done.code ++ rest.code } := by
  show (first.andThen second).run state = _
  induction first generalizing state with
  | give value =>
      show (second value).run state = ((second value).run state).map fun rest => rest
      cases (second value).run state <;> rfl
  | stop cause => rfl
  | look next ih => exact ih state state
  | change f next ih => exact ih (f state)
  | write line next ih =>
      show ((next.andThen second).run state).map _ = ((next.run state).map _).bind _
      rw [ih state]
      cases next.run state with
      | error stop => rfl
      | ok done =>
          simp only [Except.bind, Except.map]
          cases (second done.value).run done.state <;> rfl
  | request size next ih =>
      simp only [andThen, run]
      cases state.held.firstFree size with
      | none => rfl
      | some r => exact ih r _

/-- A postcondition of a step: of its value, its code and the state after it. -/
abbrev Post (α : Type) := α → List Line → LowerState → Prop

/-- Whatever the step gives from the state meets the postcondition. -/
def Ensures (step : Lowering α) (state : LowerState) (post : Post α) : Prop :=
  ∀ done, step.run state = .ok done → post done.value done.code done.state

theorem Ensures.apply {step : Lowering α} {state : LowerState} {post : Post α}
    (h : Ensures step state post) {done : Lowered α} (hdone : step.run state = .ok done) :
    post done.value done.code done.state := h done hdone

theorem Ensures.mono {step : Lowering α} {state : LowerState} {post other : Post α}
    (h : Ensures step state post)
    (himp : ∀ value code after, post value code after → other value code after) :
    Ensures step state other := fun done hdone => himp _ _ _ (h done hdone)

theorem Ensures.and {step : Lowering α} {state : LowerState} {post other : Post α}
    (h : Ensures step state post) (hother : Ensures step state other) :
    Ensures step state fun value code after =>
      post value code after ∧ other value code after :=
  fun done hdone => ⟨h done hdone, hother done hdone⟩

section Rules

variable {state : LowerState}

/-- A value by itself comes without code and leaves the state. -/
@[simp] theorem ensures_pure {value : α} {post : Post α} :
    Ensures (pure value) state post ↔ post value [] state := by
  constructor
  · intro h
    exact h _ rfl
  · rintro h done hdone
    cases hdone
    exact h

/-- After two steps their codes stand behind each other. -/
@[simp] theorem ensures_bind {first : Lowering α} {second : α → Lowering β} {post : Post β} :
    Ensures (first >>= second) state post ↔
      Ensures first state fun value code after =>
        Ensures (second value) after fun value' code' after' =>
          post value' (code ++ code') after' := by
  constructor
  · intro h done hdone rest hrest
    refine h ⟨rest.value, done.code ++ rest.code, rest.state⟩ ?_
    rw [run_bind, hdone]
    simp only [Except.bind, Except.map, hrest]
  · intro h whole hwhole
    rw [run_bind] at hwhole
    cases hfirst : first.run state with
    | error stop => simp [hfirst, Except.bind] at hwhole
    | ok done =>
        rw [hfirst] at hwhole
        cases hsecond : (second done.value).run done.state with
        | error stop => simp [Except.bind, Except.map, hsecond] at hwhole
        | ok rest =>
            simp only [Except.bind, Except.map, hsecond, Except.ok.injEq] at hwhole
            subst hwhole
            exact h done hfirst rest hsecond

@[simp] theorem ensures_map {f : α → β} {step : Lowering α} {post : Post β} :
    Ensures (f <$> step) state post ↔
      Ensures step state fun value code after => post (f value) code after := by
  have hmap : f <$> step = step >>= fun value => pure (f value) := rfl
  simp only [hmap, ensures_bind, ensures_pure, List.append_nil]

@[simp] theorem ensures_ite {c : Prop} [Decidable c] {yes no : Lowering α} {post : Post α} :
    Ensures (if c then yes else no) state post ↔
      (c → Ensures yes state post) ∧ (¬ c → Ensures no state post) := by
  by_cases hc : c <;> simp [hc]

@[simp] theorem ensures_get {post : Post LowerState} :
    Ensures get state post ↔ post state [] state := by
  constructor
  · intro h
    exact h _ rfl
  · rintro h done hdone
    cases hdone
    exact h

@[simp] theorem ensures_modify {change : LowerState → LowerState} {post : Post Unit} :
    Ensures (modify change) state post ↔ post () [] (change state) := by
  constructor
  · intro h
    exact h _ rfl
  · rintro h done hdone
    cases hdone
    exact h

@[simp] theorem ensures_fail {cause : LowerError} {post : Post α} :
    Ensures (fail cause) state post := by
  intro done hdone
  cases hdone

/-- A lifted result ensures what its value does, for there is nothing to ensure of a breakdown. -/
@[simp] theorem ensures_lift {result : Except Breakdown α} {post : Post α} :
    Ensures (lift result) state post ↔ ∀ value, result = .ok value → post value [] state := by
  constructor
  · rintro h value rfl
    exact h _ rfl
  · intro h done hdone
    cases result with
    | error cause => cases hdone
    | ok value =>
        cases hdone
        exact h value rfl

@[simp] theorem ensures_line {l : Line} {post : Post Unit} :
    Ensures (line l) state post ↔ post () [l] state := by
  constructor
  · intro h
    exact h _ rfl
  · rintro h done hdone
    cases hdone
    exact h

@[simp] theorem ensures_emit {instr : Instr} {post : Post Unit} :
    Ensures (emit instr) state post ↔ post () [.instr instr] state := ensures_line

@[simp] theorem ensures_mark {label : Label} {post : Post Unit} :
    Ensures (mark label) state post ↔ post () [.label label] state := ensures_line

@[simp] theorem ensures_visit {location : Location} {post : Post Unit} :
    Ensures (visit location) state post ↔ post () [] { state with here := location } :=
  ensures_modify

@[simp] theorem ensures_newLabel {family : Family} {post : Post Nat} :
    Ensures (newLabel family) state post ↔
      post (state.labels.count family) [] { state with labels := state.labels.add family } := by
  simp [newLabel]

/-- Allocation gives the first register that is free, and holds it. -/
@[simp] theorem ensures_allocate {size : Nat} {post : Post Reg} :
    Ensures (allocate size) state post ↔
      ∀ r, state.held.firstFree size = some r →
        post r [] { state with held := state.held.insert r } := by
  unfold Ensures
  simp only [allocate, run]
  cases state.held.firstFree size <;> simp

@[simp] theorem ensures_claim {r : Reg} {post : Post Bool} :
    Ensures (claim r) state post ↔
      (state.held.isFree r = true →
        post true [] { state with held := state.held.insert r }) ∧
      (state.held.isFree r = false → post false [] state) := by
  cases hfree : state.held.isFree r <;> simp [claim, RegSet.claim, hfree]

@[simp] theorem ensures_free {r : Reg} {post : Post Unit} :
    Ensures (free r) state post ↔
      post () [] { state with held := state.held.erase r } := ensures_modify

/-- A push deepens the stack, unless it would leave the address space. -/
@[simp] theorem ensures_push {r : Reg} {post : Post Unit} :
    Ensures (push r) state post ↔
      (state.depth + r.size < addressLimit →
        post () [.instr (.push r)] { state with depth := state.depth + r.size }) := by
  by_cases hfit : state.depth + r.size < addressLimit <;>
    simp [push, deepen, addBytes, hfit]

@[simp] theorem ensures_shallow {bytes : Nat} {post : Post Unit} :
    Ensures (shallow bytes) state post ↔
      (bytes ≤ state.depth → post () [] { state with depth := state.depth - bytes }) := by
  by_cases hfit : bytes ≤ state.depth <;> simp [shallow, takeBytes, hfit]

/-- A pop makes the stack shallower by the bytes of the register, if so many are there. -/
@[simp] theorem ensures_pop {r : Reg} {post : Post Unit} :
    Ensures (pop r) state post ↔
      (r.size ≤ state.depth →
        post () [.instr (.pop r)] { state with depth := state.depth - r.size }) := by
  simp [pop]

@[simp] theorem ensures_reserve {bytes : Nat} {post : Post Unit} :
    Ensures (reserve bytes) state post ↔
      post () (if bytes > 0 then [.instr (.reserve bytes)] else []) state := by
  by_cases hbytes : bytes > 0 <;> simp [reserve, hbytes]

@[simp] theorem ensures_release {bytes : Nat} {post : Post Unit} :
    Ensures (release bytes) state post ↔
      post () (if bytes > 0 then [.instr (.release bytes)] else []) state := by
  by_cases hbytes : bytes > 0 <;> simp [release, hbytes]

end Rules

end AccumulatorC.Lowering
