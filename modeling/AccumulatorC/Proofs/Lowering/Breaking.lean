import AccumulatorC.Proofs.Lowering.Headroom

/-!
# Steps that break down

A step whose calculations leave the address space is not diagnosed: it breaks down, and so does all
that comes after it. What is lowered before it only has to be undiagnosed itself.
-/

namespace AccumulatorC

open Lowering

/-- Whatever happens, it is not diagnosed. -/
def Event.Undiagnosed (event : Event) : Prop := ∀ cause, event ≠ .stops (.diagnosis cause)

namespace Lowering

variable {α β : Type}

/-- No diagnosis ends the step. -/
def Undiagnosed (step : Lowering α) : Prop := ∀ state, Always Event.Undiagnosed step state

/-- The step comes to no end but a breakdown. -/
structure Breaks (step : Lowering α) : Prop where
  undiagnosed : Undiagnosed step
  endless : ∀ state, Ensures step state fun _ _ _ => False

namespace Undiagnosed

theorem pure (value : α) : Undiagnosed (Pure.pure value) := fun _ => always_pure

/-- No diagnosis ends two steps if none ends either of them. -/
theorem bind {step : Lowering α} {next : α → Lowering β} (h : Undiagnosed step)
    (hnext : ∀ value, Undiagnosed (next value)) : Undiagnosed (step >>= next) := fun state =>
  always_bind.mpr ⟨h state, fun done _ => hnext done.value done.state⟩

theorem line (l : Line) : Undiagnosed (line l) := fun _ => always_line.mpr nofun

theorem visit (location : Location) : Undiagnosed (visit location) :=
  fun _ => always_visit.mpr nofun

/-- What is lifted can only break down. -/
theorem lift (result : Except Breakdown α) : Undiagnosed (lift result) :=
  fun _ => always_lift.mpr fun _ _ => nofun

theorem reserve (bytes : Nat) : Undiagnosed (reserve bytes) := fun _ =>
  always_ite.mpr ⟨fun _ => line _ _, fun _ => pure _ _⟩

theorem settle : Undiagnosed Frame.settle := fun _ =>
  always_bind.mpr ⟨always_get, fun _ _ => always_ite.mpr ⟨fun _ => lift _ _, fun _ => pure _ _⟩⟩

end Undiagnosed

namespace Breaks

theorem bind {step : Lowering α} (h : Breaks step) (next : α → Lowering β) :
    Breaks (step >>= next) where
  undiagnosed state := always_bind.mpr ⟨h.undiagnosed state, fun done hdone =>
    (h.endless state done hdone).elim⟩
  endless state := ensures_bind.mpr fun done hdone => (h.endless state done hdone).elim

theorem after {step : Lowering α} (h : Undiagnosed step) {next : α → Lowering β}
    (hnext : ∀ value, Breaks (next value)) : Breaks (step >>= next) where
  undiagnosed := h.bind fun value => (hnext value).undiagnosed
  endless _ := ensures_bind.mpr fun done _ => (hnext done.value).endless done.state

theorem map {step : Lowering α} (h : Breaks step) (f : α → β) : Breaks (f <$> step) :=
  h.bind fun value => Pure.pure (f value)

theorem lift (cause : Breakdown) : Breaks (lift (.error cause) : Lowering α) where
  undiagnosed := .lift _
  endless _ := ensures_lift.mpr nofun

theorem run_eq {step : Lowering α} (h : Breaks step) (state : LowerState) :
    ∃ cause, step.run state = .error (.breakdown cause) := by
  cases hrun : step.run state with
  | ok done => exact (h.endless state done hrun).elim
  | error stop =>
      obtain ⟨found, here, hmem, rfl⟩ := stops_mem_events hrun
      cases found with
      | diagnosis cause => exact absurd rfl (h.undiagnosed state _ hmem cause)
      | breakdown cause => exact ⟨cause, rfl⟩

end Breaks

end Lowering

/-- A place that is too far away has no address. -/
theorem Scopes.address_breaks {scopes : Scopes} {symbol : Symbol} {scope : ScopeId}
    {cause : Breakdown} (h : scopes.stackOffset symbol scope = .error cause) :
    Breaks (scopes.address symbol scope) := by
  unfold address
  rw [h]
  exact (Breaks.lift cause).bind _

namespace Statement

variable {frame : Frame}

/-- The statement that uses such a place alone is not lowered. -/
theorem breaks_of_name {note : Note} {symbol : Symbol} {cause : Breakdown}
    (h : frame.scopes.stackOffset symbol note.scope = .error cause) :
    Breaks ((Statement.expression (.name note symbol)).lower frame) := by
  have hname : Breaks ((Expr.name note symbol).lower frame.scopes) := by
    unfold Expr.lower
    exact .after (.visit _) fun _ => (Scopes.address_breaks h).bind _
  have hdiscard : Breaks (frame.discard (.name note symbol)) := by
    unfold Frame.discard
    exact (hname.map some).bind _
  unfold lower
  exact hdiscard.bind _

theorem undiagnosed_of_plain (symbol : Symbol) :
    Undiagnosed ((Statement.declaration ⟨symbol, none⟩).lower frame) := by
  unfold lower
  exact (Undiagnosed.pure ()).bind fun _ => .settle

theorem breaks_of_last {body : List Statement} {last : Statement}
    (hbody : ∀ statement ∈ body, Undiagnosed (statement.lower frame))
    (hlast : Breaks (last.lower frame)) : Breaks (lowerStatements frame (body ++ [last])) := by
  induction body with
  | nil =>
      rw [List.nil_append]
      unfold lowerStatements
      exact hlast.bind _
  | cons statement body ih =>
      obtain ⟨hstatement, hrest⟩ := List.forall_mem_cons.mp hbody
      rw [List.cons_append]
      unfold lowerStatements
      exact .after hstatement fun _ => ih hrest

theorem breaks_of_body {scope : ScopeId} {body : List Statement} {location : Location}
    (h : Breaks (lowerStatements frame body)) :
    Breaks ((Statement.block scope body location).lower frame) := by
  unfold lower
  exact .after (.lift _) fun size => .after (.reserve size) fun _ => h.bind _

end Statement

theorem Function.breaks_of_body {scopes : Scopes} {function : Function}
    (h : Breaks (lowerStatements (function.toFrame scopes) function.body)) :
    Breaks (function.lower scopes) := by
  unfold lower
  exact .after (.visit _) fun _ => .after (.lift _) fun size => .after (.line _) fun _ =>
    .after (.reserve size) fun _ => h.bind _

theorem Program.breaks_of_function {function : Function} {scopes : Scopes}
    (h : Breaks (function.lower scopes)) :
    Breaks (Program.mk [.function function] scopes).lower := by
  unfold lower
  exact .after (.line _) fun _ => .after (.line _) fun _ => .after (.line _) fun _ =>
    .after (.line _) fun _ => (h.bind _).bind _

end AccumulatorC
