import AccumulatorC.Proofs.Lowering.ExpressionRegisters
import AccumulatorC.Proofs.Machine.Code

/-!
# The labels of emitted code

Every numbered label is put by one step of lowering, with a number that its family did not
have before. So the labels in the code of an expression are different from one another, and
their numbers lie between the counts before and after.
-/

namespace AccumulatorC

/-! ## Numbers of labels -/

/-- Giving out a number counts in its family only. -/
theorem LabelCounts.count_add (counts : LabelCounts) (family other : Family) :
    (counts.add family).count other =
      if other = family then counts.count family + 1 else counts.count other := by
  by_cases h : other = family
  · subst h
    simp [LabelCounts.add, LabelCounts.count]
  · have hbeq : (other == family) = false := by simpa using h
    simp only [LabelCounts.add, LabelCounts.count, List.lookup_cons, hbeq, if_neg h]
    induction counts.list with
    | nil => rfl
    | cons entry rest ih =>
        obtain ⟨key, n⟩ := entry
        by_cases hkey : key = family
        · subst hkey
          simpa [List.lookup_cons, hbeq] using ih
        · by_cases hother : other = key
          · simp [hkey, hother]
          · have hbeq' : (other == key) = false := by simpa using hother
            simpa [List.lookup_cons, hkey, hbeq'] using ih

/-- The number of a label was given out between two counts. -/
def Label.NumberedIn (before after : LabelCounts) : Label → Prop
  | inner family _ number => before.count family ≤ number ∧ number < after.count family
  | string _ number | stringEnd _ number =>
      before.count .string ≤ number ∧ number < after.count .string
  | _ => False

/-- A code puts different labels, numbered between two counts. -/
structure Numbers (before after : LabelCounts) (code : List Line) : Prop where
  le : ∀ family, before.count family ≤ after.count family
  nodup : (labels code).Nodup
  numbered : ∀ l ∈ labels code, l.NumberedIn before after

namespace Label.NumberedIn

variable {before middle after : LabelCounts} {l : Label}

theorem mono_left (h : l.NumberedIn middle after)
    (hle : ∀ family, before.count family ≤ middle.count family) : l.NumberedIn before after := by
  cases l <;> first | exact ⟨Nat.le_trans (hle _) h.1, h.2⟩ | exact h

theorem mono_right (h : l.NumberedIn before middle)
    (hle : ∀ family, middle.count family ≤ after.count family) : l.NumberedIn before after := by
  cases l <;> first | exact ⟨h.1, Nat.lt_of_lt_of_le h.2 (hle _)⟩ | exact h

/-- Numbers given out one after the other are different. -/
theorem disjoint (h : l.NumberedIn before middle) (h' : l.NumberedIn middle after) : False := by
  cases l <;> first | exact Nat.not_lt_of_le h'.1 h.2 | exact h

end Label.NumberedIn

namespace Numbers

variable {before middle after : LabelCounts} {code rest : List Line}

theorem of_labels_nil (h : labels code = []) : Numbers before before code := by
  refine ⟨fun _ => Nat.le_refl _, ?_, ?_⟩ <;> simp [h]

theorem append (h : Numbers before middle code) (h' : Numbers middle after rest) :
    Numbers before after (code ++ rest) := by
  refine ⟨fun family => Nat.le_trans (h.le family) (h'.le family), ?_, ?_⟩
  · rw [labels_append]
    refine List.nodup_append.mpr ⟨h.nodup, h'.nodup, ?_⟩
    rintro l hl _ hl' rfl
    exact (h.numbered l hl).disjoint (h'.numbered l hl')
  · intro l hl
    rw [labels_append] at hl
    rcases List.mem_append.mp hl with hl | hl
    · exact (h.numbered l hl).mono_right h'.le
    · exact (h'.numbered l hl).mono_left h.le

/-- The labels of one new number. -/
theorem fresh {family : Family} (hnodup : (labels code).Nodup)
    (h : ∀ l ∈ labels code, l.NumberedIn before (before.add family)) :
    Numbers before (before.add family) code := by
  refine ⟨fun other => ?_, hnodup, h⟩
  rw [LabelCounts.count_add]
  split
  next heq =>
    rw [heq]
    exact Nat.le_succ _
  next => exact Nat.le_refl _

end Numbers

theorem Label.numberedIn_add (counts : LabelCounts) (family : Family) (role : Role) :
    (Label.inner family role (counts.count family)).NumberedIn counts (counts.add family) := by
  refine ⟨Nat.le_refl _, ?_⟩
  rw [LabelCounts.count_add, if_pos rfl]
  exact Nat.lt_succ_self _

namespace Lowering

/-! ## Operations -/

/-- The step puts the given labels and numbers no others. -/
def Marks {α : Type} (marked : List Label) (step : Lowering α) : Prop :=
  ∀ state, Ensures step state fun _ code after =>
    labels code = marked ∧ after.labels = state.labels

namespace Marks

variable {α β : Type} {marked more : List Label}

theorem pure (value : α) : Marks [] (Pure.pure value) := by
  intro state
  simp

theorem bind {step : Lowering α} {next : α → Lowering β} (h : Marks marked step)
    (hnext : ∀ value, Marks more (next value)) : Marks (marked ++ more) (step >>= next) := by
  intro state
  rw [ensures_bind]
  refine (h state).mono fun value code middle hcode => ?_
  refine (hnext value middle).mono fun _ code' after hcode' => ⟨?_, hcode'.2.trans hcode.2⟩
  rw [labels_append, hcode.1, hcode'.1]

/-- A step that puts no labels, followed by another one. -/
theorem then_ {step : Lowering α} {next : α → Lowering β} (h : Marks [] step)
    (hnext : ∀ value, Marks marked (next value)) : Marks marked (step >>= next) :=
  h.bind hnext

theorem ite {c : Prop} [Decidable c] {yes no : Lowering α} (hyes : Marks marked yes)
    (hno : Marks marked no) : Marks marked (if c then yes else no) := by
  split
  · exact hyes
  · exact hno

theorem emit (instr : Instr) : Marks [] (Lowering.emit instr) := by
  intro state
  simp

theorem fail (cause : LowerError) : Marks marked (Lowering.fail cause : Lowering α) := by
  intro state
  simp

theorem lift (result : Except Breakdown α) : Marks [] (Lowering.lift result) := by
  intro state
  simp

theorem allocate (size : Nat) : Marks [] (Lowering.allocate size) := by
  intro state
  simp

theorem claim (r : Reg) : Marks [] (Lowering.claim r) := by
  intro state
  simp

theorem free (r : Reg) : Marks [] (Lowering.free r) := by
  intro state
  simp

theorem push (r : Reg) : Marks [] (Lowering.push r) := by
  intro state
  simp

theorem pop (r : Reg) : Marks [] (Lowering.pop r) := by
  intro state
  simp

theorem shallow (bytes : Nat) : Marks [] (Lowering.shallow bytes) := by
  intro state
  simp

theorem get : Marks [] Lowering.get := by
  intro state
  simp

theorem visit (location : Location) : Marks [] (Lowering.visit location) := by
  intro state
  simp

theorem forM {registers : List Reg} {step : Reg → Lowering Unit} (h : ∀ r, Marks [] (step r)) :
    Marks [] (registers.forM step) := by
  induction registers with
  | nil => exact pure _
  | cons r registers ih => exact (h r).then_ fun _ => ih

theorem preservingAccumulator {step : Lowering Unit} (h : Marks marked step) :
    Marks marked (Lowering.preservingAccumulator step) := by
  intro state
  simp only [Lowering.preservingAccumulator, ensures_bind, ensures_claim, ensures_ite,
    ensures_push, ensures_pop, ensures_free, Bool.false_eq_true, not_true_eq_false,
    not_false_eq_true, forall_const, false_implies, and_true, true_and]
  constructor
  · intro _
    exact (h _).mono fun _ code after hafter => by simpa using hafter
  · intro _ _
    exact (h _).mono fun _ code after hafter _ => by simpa using hafter

theorem throughAccumulator {step : Lowering Unit} (h : Marks marked step) (r : Reg) :
    Marks marked (Lowering.throughAccumulator r step) := by
  refine ite h (preservingAccumulator ?_)
  intro state
  simp only [ensures_bind, ensures_emit]
  exact (h state).mono fun _ code after hafter => by simpa using hafter

theorem accumulate {left right : Reg} {step : Reg → Lowering Unit} (h : ∀ r, Marks marked (step r)) :
    Marks marked (Lowering.accumulate left right step) := by
  intro state
  simp only [Lowering.accumulate, ensures_bind, ensures_ite, ensures_allocate, ensures_emit,
    ensures_free, ensures_pure]
  constructor
  · intro _ moved _
    exact ((h moved).throughAccumulator left _).mono fun _ code after hafter => by simpa using hafter
  · intro _
    exact ((h right).throughAccumulator left _).mono fun _ code after hafter => by simpa using hafter

theorem coerce (r : Reg) (size : Nat) : Marks [] (Lowering.coerce r size) := by
  refine ite ?_ (ite ?_ (pure r))
  · refine (free r).then_ fun _ => (allocate 2).then_ fun wide => ?_
    exact ite ((emit _).then_ fun _ => (emit _).then_ fun _ => pure _)
      ((emit _).then_ fun _ => pure _)
  · exact (free r).then_ fun _ => (claim _).then_ fun _ => pure _

theorem simple (op : AccumulatorOp) (left right : Reg) : Marks [] (Lowering.simple op left right) :=
  accumulate fun _ => emit _

theorem combine (op : PairOp) (left right : Reg) : Marks [] (Lowering.combine op left right) :=
  (emit _).then_ fun _ => (free right).then_ fun _ => pure left

theorem halfwise (op : AccumulatorOp) (left right : Reg) :
    Marks [] (Lowering.halfwise op left right) :=
  ((emit _).throughAccumulator _).then_ fun _ => ((emit _).throughAccumulator _).then_ fun _ =>
    (free right).then_ fun _ => pure left

theorem negate (r : Reg) : Marks [] (Lowering.negate r) :=
  (allocate _).then_ fun _ => (emit _).then_ fun _ => ite (combine _ _ _) (simple _ _ _)

theorem stepBy (step : Reg → Instr) (r : Reg) (count : Nat) :
    Marks [] (Lowering.stepBy step r count) := by
  induction count with
  | zero => exact pure _
  | succ count ih => exact (emit _).then_ fun _ => ih

theorem stepPair (address : Address) : Marks [] (Lowering.stepPair address) := by
  cases address <;> first | exact emit _ | exact pure _

theorem load (r : Reg) (address : Address) : Marks [] (Lowering.load r address) := by
  unfold Lowering.load
  split
  · exact emit _
  · exact (emit _).then_ fun _ => (stepPair _).then_ fun _ => (lift _).then_ fun _ => emit _

theorem store (address : Address) (r : Reg) : Marks [] (Lowering.store address r) := by
  unfold Lowering.store
  split
  · exact emit _
  · exact (emit _).then_ fun _ => (stepPair _).then_ fun _ => (lift _).then_ fun _ => emit _

theorem save (r : Reg) : Marks [] (Lowering.save r) := (push r).then_ fun _ => free r

theorem saveAll : Marks [] Lowering.saveAll :=
  get.then_ fun _ => (forM save).then_ fun _ => pure _

theorem claimAll (registers : List Reg) : Marks [] (Lowering.claimAll registers) :=
  forM fun r => (claim r).then_ fun _ => pure _

theorem restore (function : Symbol) (saved : List Reg) :
    Marks [] (Lowering.restore function saved) := by
  have hclaim : Marks [] (claimResult function.resultSize) :=
    ite (pure none) ((claim _).then_ fun _ => pure _)
  have hmove : ∀ clashing result, Marks [] (moveResult clashing result) := by
    intro clashing result
    cases result with
    | none => exact pure none
    | some r =>
        refine ite (pure _) ?_
        exact (allocate _).then_ fun _ => (emit _).then_ fun _ => (free r).then_ fun _ => pure _
  refine hclaim.then_ fun result => (claimAll _).then_ fun _ => (hmove _ _).then_ fun _ => ?_
  exact (claimAll _).then_ fun _ => (forM pop).then_ fun _ => pure _

theorem finishCall (function : Symbol) (saved : List Reg) (pushed : Nat) :
    Marks [] (Lowering.finishCall function saved pushed) := by
  rw [finishCall_eq]
  refine (emit _).then_ fun _ => ite ?_ (restore function saved)
  exact (emit _).then_ fun _ => (shallow pushed).then_ fun _ => restore function saved

end Marks

/-! ## Operators -/

/-- What a step emits puts different labels, numbered between the counts before and after. -/
def Counts {α : Type} (step : Lowering α) : Prop :=
  ∀ state, Ensures step state fun _ code after => Numbers state.labels after.labels code

theorem Marks.counts {α : Type} {step : Lowering α} (h : Marks [] step) : Counts step := by
  intro state
  refine (h state).mono fun _ code after hcode => ?_
  rw [hcode.2]
  exact .of_labels_nil hcode.1

theorem Counts.bind {α β : Type} {step : Lowering α} {next : α → Lowering β} (h : Counts step)
    (hnext : ∀ value, Counts (next value)) : Counts (step >>= next) := by
  intro state
  rw [ensures_bind]
  refine (h state).mono fun value code middle hcode => ?_
  exact (hnext value middle).mono fun _ code' after hcode' => hcode.append hcode'

/-- A step that numbers its labels first and puts each of them once. -/
theorem Marks.numbered {α : Type} {family : Family} (roles : List Role) {step : Nat → Lowering α}
    (hroles : roles.Nodup) (h : ∀ n, Marks (roles.map fun role => .inner family role n) (step n)) :
    Counts (newLabel family >>= step) := by
  intro state
  rw [ensures_bind, ensures_newLabel]
  refine (h _ _).mono fun _ code after hcode => ?_
  rw [List.nil_append, hcode.2]
  refine Numbers.fresh ?_ ?_
  · rw [hcode.1]
    refine hroles.map fun role role' heq => ?_
    injection heq
  · intro l hl
    rw [hcode.1] at hl
    obtain ⟨role, -, rfl⟩ := List.mem_map.mp hl
    exact Label.numberedIn_add _ _ _

theorem marks_decideTruth (comparison : Comparison) (n : Nat) :
    Marks ([.yes, .no, .exit].map fun role => .inner comparison.family role n)
      (decideTruth comparison n) := by
  intro state
  simp [decideTruth]

theorem counts_multiply (left right : Reg) : Counts (multiply left right) := by
  rw [multiply_eq]
  refine Marks.numbered [.repetition, .exit] (by decide) fun n => Marks.accumulate fun r state => ?_
  simp [multiplication]

theorem counts_divide (left right : Reg) : Counts (divide left right) := by
  rw [divide_eq]
  refine Marks.numbered [.repetition, .step, .exit] (by decide) fun n =>
    Marks.accumulate fun r state => ?_
  simp [division]

theorem counts_shift (right : Bool) (value count : Reg) : Counts (shift right value count) := by
  rw [shift_eq]
  refine Marks.numbered [.repetition, .exit] (by decide) fun n => Marks.accumulate fun r state => ?_
  cases right <;> simp [shifting]

theorem counts_compare (comparison : Comparison) (left right : Reg) :
    Counts (compare comparison left right) := by
  rw [compare_eq]
  by_cases hsize : left.size = 1
  · simp only [if_pos hsize]
    refine Marks.numbered [.yes, .no, .exit] (by decide) fun n => Marks.accumulate fun r => ?_
    exact (Marks.emit _).then_ fun _ => marks_decideTruth comparison n
  · simp only [if_neg hsize]
    refine Marks.numbered [.decision, .yes, .no, .exit] (by decide) fun n => ?_
    have hpairs : Marks ([Role.decision, .yes, .no, .exit].map fun role =>
        Label.inner comparison.family role n) (comparingPairs comparison n left right) := by
      intro state
      simp [comparingPairs, decideTruth]
    intro state
    simp only [ensures_bind, ensures_free, ensures_pure]
    exact (hpairs.preservingAccumulator state).mono fun _ code after hcode => by simpa using hcode

/-- An operator numbers the labels of its code. -/
theorem counts_operate (op : BinaryOp) (size : Nat) (left right : Reg) :
    Counts (operate op size left right) := by
  unfold operate
  split
  · exact counts_compare _ left right
  · split
    · cases op with
      | add | sub => exact (Marks.combine _ left right).counts
      | and | or => exact (Marks.halfwise _ left right).counts
      | mul | div | shiftLeft | shiftRight => exact (Marks.fail _).counts
      | _ => exact (Marks.lift (.error .malformedTree)).counts
    · cases op with
      | add | sub | and | or => exact (Marks.simple _ left right).counts
      | mul => exact counts_multiply left right
      | div => exact counts_divide left right
      | shiftLeft => exact counts_shift false left right
      | shiftRight => exact counts_shift true left right
      | _ => exact (Marks.lift (.error .malformedTree)).counts

theorem counts_stringData (inside : Bool) (bytes : List UInt8) :
    Counts (stringData inside bytes) := by
  intro state
  simp only [stringData, ensures_bind, ensures_newLabel, ensures_emit, ensures_mark, ensures_line,
    ensures_pure]
  have hnumber : ∀ l, l = Label.string inside (state.labels.count .string) ∨
      l = Label.stringEnd inside (state.labels.count .string) →
      l.NumberedIn state.labels (state.labels.add .string) := by
    have hlt : state.labels.count .string < (state.labels.add .string).count .string := by
      rw [LabelCounts.count_add, if_pos rfl]
      exact Nat.lt_succ_self _
    rintro l (rfl | rfl) <;> exact ⟨Nat.le_refl _, hlt⟩
  refine Numbers.fresh (by simp) fun l hl => hnumber l (by simpa using hl)

end Lowering

open Lowering

theorem Scopes.marks_address (scopes : Scopes) (symbol : Symbol) (scope : ScopeId) :
    Marks [] (scopes.address symbol scope) := by
  refine (Marks.lift _).then_ fun found => ?_
  cases found with
  | none => exact Marks.pure _
  | some offset =>
      exact Marks.get.then_ fun _ => (Marks.lift _).then_ fun _ => Marks.pure _

theorem counts_lowerArguments {scopes : Scopes} {parameters : List Ty} {arguments : List Expr}
    (h : ∀ argument ∈ arguments, Counts (argument.lower scopes)) :
    Counts (lowerArguments scopes parameters arguments) := by
  induction arguments generalizing parameters with
  | nil =>
      have hnone : lowerArguments scopes parameters [] = pure 0 := by
        cases parameters <;> rw [lowerArguments] <;> simp
      rw [hnone]
      exact (Marks.pure _).counts
  | cons argument arguments ih =>
      cases parameters with
      | nil =>
          have hnone : lowerArguments scopes [] (argument :: arguments) = pure 0 := by
            rw [lowerArguments]
            simp
          rw [hnone]
          exact (Marks.pure _).counts
      | cons parameter parameters =>
          rw [lowerArguments]
          refine (h argument List.mem_cons_self).bind fun r => (Marks.coerce r _).counts.bind fun r => ?_
          refine (Marks.save r).counts.bind fun _ => (ih fun argument hmem => ?_).bind fun rest => ?_
          · exact h argument (List.mem_cons_of_mem _ hmem)
          · exact (Marks.lift _).counts

theorem counts_lowerCall {scopes : Scopes} {function : Symbol} {arguments : List Expr}
    (h : ∀ argument ∈ arguments, Counts (argument.lower scopes)) :
    Counts (lowerCall scopes function arguments) :=
  Marks.saveAll.counts.bind fun saved => (counts_lowerArguments h).bind fun pushed =>
    (Marks.finishCall function saved pushed).counts

/-- The labels in the code of an expression. -/
theorem Expr.WellFormed.counts {scopes : Scopes} {scope : ScopeId} {e : Expr}
    (h : e.WellFormed scopes scope) : Counts (e.lower scopes) := by
  have hvisit : ∀ {α : Type} {location : Location} {next : Lowering α}, Counts next →
      Counts (visit location >>= fun _ => next) := fun h =>
    (Marks.visit _).counts.bind fun _ => h
  induction h using Expr.WellFormed.alongLowering with
  | number h =>
      rw [Expr.lower]
      exact hvisit ((Marks.allocate _).then_ fun _ => (Marks.emit _).then_ fun _ => Marks.pure _).counts
  | string h =>
      rw [Expr.lower]
      refine hvisit ((counts_stringData _ _).bind fun _ => Marks.counts ?_)
      exact (Marks.allocate _).then_ fun _ => (Marks.emit _).then_ fun _ => Marks.pure _
  | name h =>
      rw [Expr.lower]
      refine hvisit (Marks.counts ?_)
      exact (Scopes.marks_address _ _ _).then_ fun _ => (Marks.allocate _).then_ fun _ =>
        (Marks.load _ _).then_ fun _ => Marks.pure _
  | assignName h hvalue ih =>
      rw [Expr.lower]
      refine hvisit (ih.bind fun r => (Marks.coerce r _).counts.bind fun r' => hvisit (Marks.counts ?_))
      exact (Scopes.marks_address _ _ _).then_ fun _ => (Marks.store _ _).then_ fun _ => Marks.pure _
  | assignDeref h hvalue hpointer ihvalue ihpointer =>
      rw [Expr.lower]
      refine hvisit (ihvalue.bind fun r => (Marks.coerce r _).counts.bind fun r' => hvisit ?_)
      refine ihpointer.bind fun pair => Marks.counts ?_
      exact (Marks.store _ _).then_ fun _ => (Marks.free _).then_ fun _ => Marks.pure _
  | binary h hleft hright ihleft ihright =>
      rw [Expr.lower]
      refine hvisit (ihleft.bind fun l => (Marks.coerce l _).counts.bind fun l' => ?_)
      exact ihright.bind fun r => (Marks.coerce r _).counts.bind fun r' => counts_operate _ _ _ _
  | addressName h =>
      rw [Expr.lower]
      refine hvisit (Marks.counts ?_)
      exact (Scopes.marks_address _ _ _).then_ fun _ => (Marks.allocate _).then_ fun _ =>
        (Marks.emit _).then_ fun _ => Marks.pure _
  | addressDeref h hpointer ih =>
      rw [Expr.lower]
      exact hvisit ih
  | deref h hoperand ih =>
      rw [Expr.lower]
      refine hvisit (ih.bind fun pair => Marks.counts ?_)
      exact (Marks.allocate _).then_ fun _ => (Marks.load _ _).then_ fun _ =>
        (Marks.free _).then_ fun _ => Marks.pure _
  | @keeping note op operand h hoperand hop htype hvoid ih =>
      cases op with
      | addressOf => cases hop
      | deref => cases hop
      | plus =>
          rw [Expr.lower]
          exact hvisit ih
      | negate =>
          rw [Expr.lower]
          exact hvisit (ih.bind fun r => (Marks.negate r).counts)
      | increment =>
          rw [Expr.lower]
          exact hvisit (ih.bind fun r => ((Marks.stepBy _ r _).then_ fun _ => Marks.pure _).counts)
      | decrement =>
          rw [Expr.lower]
          exact hvisit (ih.bind fun r => ((Marks.stepBy _ r _).then_ fun _ => Marks.pure _).counts)
  | call h harguments ih =>
      rw [Expr.lower_call]
      refine hvisit ((counts_lowerCall ih).bind fun result => ?_)
      cases result with
      | none => exact (Marks.fail _).counts
      | some r => exact (Marks.pure r).counts

end AccumulatorC
