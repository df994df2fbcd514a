import AccumulatorC.Proofs.Lowering.Labels
import AccumulatorC.Proofs.Machine.Flow

/-!
# The stack along the code of an operation

A piece of code takes one shape of the stack to another, whatever lies below. The labels that it
puts have shapes of their own; those outside it that it jumps to have given ones. The code of
an operation pops what it pushes on every path, so it leaves every shape as it was.
-/

namespace AccumulatorC

/-- A code takes one shape to another and has the given stack operands, where its own labels are
given shapes besides those around it. -/
def Level (around : LabelShapes) (first : Shape) (code : List Line) (second : Shape)
    (operands : Operands) : Prop :=
  ∃ own : LabelShapes, (own.map Prod.fst).Perm (labels code) ∧
    Flow (around ++ own) first code second operands

namespace Level

variable {around more : LabelShapes} {first second third : Shape} {code rest : List Line}
  {operands others : Operands}

theorem nil (around : LabelShapes) (shape : Shape) : Level around shape [] shape [] :=
  ⟨[], List.Perm.nil, .nil⟩

theorem append (h : Level around first code second operands)
    (h' : Level around second rest third others) :
    Level around first (code ++ rest) third (operands ++ others) := by
  obtain ⟨own, hown, hflow⟩ := h
  obtain ⟨own', hown', hflow'⟩ := h'
  refine ⟨own ++ own', ?_, ?_⟩
  · rw [List.map_append, labels_append]
    exact hown.append hown'
  · refine (hflow.mono ?_).append (hflow'.mono ?_)
    · intro p hp
      rcases List.mem_append.mp hp with hp | hp <;> simp [hp]
    · intro p hp
      rcases List.mem_append.mp hp with hp | hp <;> simp [hp]

theorem mono (h : Level around first code second operands) (hsub : ∀ p ∈ around, p ∈ more) :
    Level more first code second operands := by
  obtain ⟨own, hown, hflow⟩ := h
  refine ⟨own, hown, hflow.mono fun p hp => ?_⟩
  rcases List.mem_append.mp hp with hp | hp
  · exact List.mem_append_left _ (hsub p hp)
  · exact List.mem_append_right _ hp

theorem of_nil (h : Level [] first code second operands) (around : LabelShapes) :
    Level around first code second operands := h.mono (by simp)

/-- A line that puts no label. -/
theorem line {l : Line} (hnone : l.label? = none) (h : l.Flows around first second) :
    Level around first [l] second (l.operands first) := by
  refine ⟨[], ?_, ?_⟩
  · simp [labels, hnone]
  · rw [List.append_nil]
    exact .single h

theorem instr {i : Instr} (hflows : (Line.instr i).Flows around first second)
    (hnone : i.stackOperand? = none) : Level around first [.instr i] second [] := by
  have h := line rfl hflows
  simpa [Line.operands, Line.stackOperand?, hnone] using h

/-- Labels that were taken to be around the code are its own when lines put them. -/
theorem own {marked : LabelShapes} (h : Flow (around ++ marked) first code second operands)
    (hlabels : (marked.map Prod.fst).Perm (labels code)) :
    Level around first code second operands := ⟨marked, hlabels, h⟩

end Level

/-! ## Code that leaves the stack alone -/

/-- Lines that leave every shape as it is when they jump to given labels only. -/
def Line.IsFlat (marked : List Label) : Line → Prop
  | label _ | data _ => True
  | instr (.jump _ l) => l ∈ marked
  | instr i => i.isPlain = true

/-- The code leaves every shape as it was and has no stack operands. -/
def Even (code : List Line) : Prop := ∀ shape, Level [] shape code shape []

namespace Even

variable {code rest : List Line}

theorem nil : Even [] := fun shape => Level.nil [] shape

theorem append (h : Even code) (h' : Even rest) : Even (code ++ rest) := fun shape =>
  (h shape).append (h' shape)

theorem plain {i : Instr} (h : i.isPlain = true) (hnone : i.stackOperand? = none) :
    Even [.instr i] := fun _ => Level.instr (.plain h) hnone

theorem stackOperand_eq_none {i : Instr} (h : i.isPlain = true) : i.stackOperand? = none := by
  cases i with
  | setAddress target address => cases address <;> first | rfl | cases h
  | load target address => cases address <;> first | rfl | cases h
  | store address source => cases address <;> first | rfl | cases h
  | _ => rfl

/-- Code that does not touch the stack and jumps to its own labels. -/
theorem of_flat (h : ∀ line ∈ code, line.IsFlat (labels code)) : Even code := by
  intro shape
  let own : LabelShapes := (labels code).map fun l => (l, shape)
  have hmem : ∀ l ∈ labels code, (l, shape) ∈ own := fun l hl =>
    List.mem_map.mpr ⟨l, hl, rfl⟩
  refine ⟨own, ?_, ?_⟩
  · rw [List.map_map]
    exact List.Perm.of_eq (List.map_id _)
  · -- The labels of the rest are among those of the whole code.
    have hflow : ∀ part : List Line, (∀ line ∈ part, line.IsFlat (labels code)) →
        (∀ l ∈ labels part, l ∈ labels code) → Flow ([] ++ own) shape part shape [] := by
      intro part hflat hlabels
      induction part with
      | nil => exact .nil
      | cons line part ih =>
          have hline := hflat line List.mem_cons_self
          have hrest := ih (fun line hmem => hflat line (List.mem_cons_of_mem _ hmem)) fun l hl => by
            refine hlabels l ?_
            rw [mem_labels] at hl ⊢
            exact List.mem_cons_of_mem _ hl
          have hstep : line.Flows ([] ++ own) shape shape ∧ line.stackOperand? = none := by
            cases line with
            | label l => exact ⟨.label (hmem l (hlabels l (by simp))), rfl⟩
            | data d => exact ⟨.data, rfl⟩
            | instr i =>
                cases i with
                | jump condition l => exact ⟨.branch (hmem l hline), rfl⟩
                | _ => exact ⟨.plain hline, stackOperand_eq_none hline⟩
          have hcons := Flow.cons hstep.1 hrest
          simpa [Line.operands, hstep.2] using hcons
    exact hflow code h fun l hl => hl

/-- What is pushed before an even code is popped after it. -/
theorem bracket (h : Even code) (r : Reg) :
    Even (.instr (.push r) :: (code ++ [.instr (.pop r)])) := by
  intro shape
  have hpush : Level [] shape [.instr (.push r)] (r.size :: shape) [] := .instr .push rfl
  have hpop : Level [] (r.size :: shape) [.instr (.pop r)] shape [] := .instr .pop rfl
  exact hpush.append ((h _).append hpop)

end Even

namespace Lowering

/-- Steps whose code is even. -/
def Evens {α : Type} (step : Lowering α) : Prop :=
  ∀ state, Ensures step state fun _ code _ => Even code

namespace Evens

variable {α β : Type}

theorem pure (value : α) : Evens (Pure.pure value) := by
  intro state
  rw [ensures_pure]
  exact .nil

theorem bind {step : Lowering α} {next : α → Lowering β} (h : Evens step)
    (hnext : ∀ value, Evens (next value)) : Evens (step >>= next) := by
  intro state
  rw [ensures_bind]
  refine (h state).mono fun value code middle hcode => ?_
  exact (hnext value middle).mono fun _ code' after hcode' => hcode.append hcode'

theorem ite {c : Prop} [Decidable c] {yes no : Lowering α} (hyes : Evens yes) (hno : Evens no) :
    Evens (if c then yes else no) := by
  split
  · exact hyes
  · exact hno

theorem emit {instr : Instr} (h : instr.isPlain = true) : Evens (Lowering.emit instr) := by
  intro state
  rw [ensures_emit]
  exact .plain h (Even.stackOperand_eq_none h)

theorem fail (cause : LowerError) : Evens (Lowering.fail cause : Lowering α) := by
  intro state
  exact ensures_fail

theorem lift (result : Except Breakdown α) : Evens (Lowering.lift result) := by
  intro state
  rw [ensures_lift]
  exact fun _ _ => .nil

theorem allocate (size : Nat) : Evens (Lowering.allocate size) := by
  intro state
  rw [ensures_allocate]
  exact fun _ _ => .nil

theorem claim (r : Reg) : Evens (Lowering.claim r) := by
  intro state
  rw [ensures_claim]
  exact ⟨fun _ => .nil, fun _ => .nil⟩

theorem free (r : Reg) : Evens (Lowering.free r) := by
  intro state
  rw [ensures_free]
  exact .nil

theorem newLabel (family : Family) : Evens (Lowering.newLabel family) := by
  intro state
  rw [ensures_newLabel]
  exact .nil

theorem preservingAccumulator {step : Lowering Unit} (h : Evens step) :
    Evens (Lowering.preservingAccumulator step) := by
  intro state
  simp only [Lowering.preservingAccumulator, ensures_bind, ensures_claim, ensures_ite,
    ensures_push, ensures_pop, ensures_free, Bool.false_eq_true, not_true_eq_false,
    not_false_eq_true, forall_const, false_implies, and_true, true_and]
  constructor
  · intro _
    exact (h _).mono fun _ code after hcode => by simpa using hcode
  · intro _ _
    exact (h _).mono fun _ code after hcode _ => by simpa using hcode.bracket .a

theorem throughAccumulator {step : Lowering Unit} (h : Evens step) (r : Reg) :
    Evens (Lowering.throughAccumulator r step) :=
  ite h (preservingAccumulator ((emit rfl).bind fun _ => h.bind fun _ => emit rfl))

theorem accumulate {left right : Reg} {step : Reg → Lowering Unit} (h : ∀ r, Evens (step r)) :
    Evens (Lowering.accumulate left right step) := by
  have hthrough : ∀ r, Evens (do
      Lowering.throughAccumulator left (step r); Lowering.free r; return left) := fun r =>
    ((h r).throughAccumulator left).bind fun _ => (free r).bind fun _ => pure left
  refine ite ?_ ((pure right).bind hthrough)
  exact (allocate 1).bind fun moved => (emit rfl).bind fun _ => (free .a).bind fun _ =>
    (pure moved).bind hthrough

theorem coerce (r : Reg) (size : Nat) : Evens (Lowering.coerce r size) := by
  refine ite ?_ (ite ?_ (pure r))
  · refine (free r).bind fun _ => (allocate 2).bind fun wide => ?_
    exact ite ((emit rfl).bind fun _ => (emit rfl).bind fun _ => pure wide)
      ((emit rfl).bind fun _ => pure wide)
  · exact (free r).bind fun _ => (claim _).bind fun _ => pure _

theorem simple (op : AccumulatorOp) (left right : Reg) : Evens (Lowering.simple op left right) :=
  accumulate fun _ => emit rfl

theorem combine (op : PairOp) (left right : Reg) : Evens (Lowering.combine op left right) :=
  (emit rfl).bind fun _ => (free right).bind fun _ => pure left

theorem halfwise (op : AccumulatorOp) (left right : Reg) :
    Evens (Lowering.halfwise op left right) :=
  ((emit rfl).throughAccumulator _).bind fun _ => ((emit rfl).throughAccumulator _).bind fun _ =>
    (free right).bind fun _ => pure left

theorem negate (r : Reg) : Evens (Lowering.negate r) :=
  (allocate _).bind fun _ => (emit rfl).bind fun _ => ite (combine _ _ _) (simple _ _ _)

theorem stepBy {step : Reg → Instr} (hstep : ∀ r, (step r).isPlain = true) (r : Reg)
    (count : Nat) : Evens (Lowering.stepBy step r count) := by
  induction count with
  | zero => exact pure _
  | succ count ih => exact (emit (hstep r)).bind fun _ => ih

/-- Steps that emit flat code. -/
theorem of_flat {step : Lowering α}
    (h : ∀ state, Ensures step state fun _ code _ => ∀ line ∈ code, line.IsFlat (labels code)) :
    Evens step := fun state => (h state).mono fun _ _ _ hcode => .of_flat hcode

theorem multiply (left right : Reg) : Evens (Lowering.multiply left right) := by
  rw [multiply_eq]
  refine (newLabel _).bind fun n => accumulate fun r => of_flat fun state => ?_
  simp [multiplication, Line.IsFlat, Instr.isPlain]

theorem divide (left right : Reg) : Evens (Lowering.divide left right) := by
  rw [divide_eq]
  refine (newLabel _).bind fun n => accumulate fun r => of_flat fun state => ?_
  simp [division, Line.IsFlat, Instr.isPlain]

/-- The count of a shift is made while the value is on the stack; the rotations follow. -/
theorem shifting (right : Bool) (n : Nat) (count : Reg) :
    Evens (Lowering.shifting right n count) := by
  intro state
  have hcount : ∀ first : List Line, (∀ line ∈ first, line.IsFlat []) →
      Even (.instr (.push .a) :: (first ++ [.instr (.pop .a)])) := by
    intro first hfirst
    refine Even.bracket (.of_flat fun line hline => ?_) .a
    have hflat := hfirst line hline
    cases line with
    | instr i =>
        cases i with
        | jump condition l => cases hflat
        | _ => exact hflat
    | label => trivial
    | data => trivial
  have hloop : Even
      [.label (.inner (shiftFamily right) .repetition n), .instr (.decrement count),
        .instr (.jump .notGreater (.inner (shiftFamily right) .exit n)), .instr .rotate,
        .instr (.jump .always (.inner (shiftFamily right) .repetition n)),
        .label (.inner (shiftFamily right) .exit n)] :=
    .of_flat (by simp [Line.IsFlat, Instr.isPlain])
  cases right with
  | false =>
      have h := (hcount [.instr (.copy .a count), .instr (.accumulate .and (.lowBits 3)),
        .instr (.copy count .a)] (by simp [Line.IsFlat, Instr.isPlain])).append hloop
      simpa [Lowering.shifting] using fun _ => h
  | true =>
      have h := (hcount [.instr (.setNumber .a 8), .instr (.accumulate .sub (.reg count)),
        .instr (.accumulate .and (.lowBits 3)), .instr (.copy count .a)]
        (by simp [Line.IsFlat, Instr.isPlain])).append hloop
      simpa [Lowering.shifting] using fun _ => h

theorem shift (right : Bool) (value count : Reg) : Evens (Lowering.shift right value count) := by
  rw [shift_eq]
  exact (newLabel _).bind fun n => accumulate fun r => shifting right n r

end Evens

/-- A comparison jumps to where it yields one truth value or the other. -/
theorem comparison?_roles {op : BinaryOp} {comparison : Comparison}
    (h : comparison? op = some comparison) :
    (comparison.first.2 = .yes ∨ comparison.first.2 = .no) ∧
      (comparison.second.2 = .yes ∨ comparison.second.2 = .no) := by
  cases op <;> cases h <;> simp

theorem evens_decideTruth {op : BinaryOp} {comparison : Comparison}
    (h : comparison? op = some comparison) (n : Nat) : Evens (decideTruth comparison n) := by
  obtain ⟨hfirst, hsecond⟩ := comparison?_roles h
  refine .of_flat fun state => ?_
  simp only [decideTruth, ensures_bind, ensures_emit, ensures_mark]
  rcases hfirst with hfirst | hfirst <;> rcases hsecond with hsecond | hsecond <;>
    simp [Line.IsFlat, Instr.isPlain, hfirst, hsecond]

/-- The halves are compared one after the other, with a jump over the second comparison. -/
theorem evens_comparingPairs {op : BinaryOp} {comparison : Comparison}
    (h : comparison? op = some comparison) (n : Nat) (left right : Reg) :
    Evens (comparingPairs comparison n left right) := by
  intro state
  simp only [comparingPairs, ensures_bind, ensures_emit, ensures_mark]
  refine (evens_decideTruth h n state).mono fun _ code _ hcode => ?_
  have hhalves : Even
      [.instr (.copy .a left.high), .instr (.accumulate .compare (.reg right.high)),
        .instr (.jump .notEqual (.inner comparison.family .decision n)),
        .instr (.copy .a left.low), .instr (.accumulate .compare (.reg right.low)),
        .label (.inner comparison.family .decision n)] :=
    .of_flat (by simp [Line.IsFlat, Instr.isPlain])
  have hresult : Even [.instr (.copy left.low .a), .instr (.setNumber left.high 0)] :=
    .of_flat (by simp [Line.IsFlat, Instr.isPlain])
  exact hhalves.append (hcode.append hresult)

theorem evens_compare {op : BinaryOp} {comparison : Comparison}
    (h : comparison? op = some comparison) (left right : Reg) :
    Evens (compare comparison left right) := by
  rw [compare_eq]
  refine (Evens.newLabel _).bind fun n => Evens.ite ?_ ?_
  · exact Evens.accumulate fun r => (Evens.emit rfl).bind fun _ => evens_decideTruth h n
  · exact Evens.bind (evens_comparingPairs h n left right).preservingAccumulator fun _ =>
      (Evens.free right).bind fun _ => Evens.pure left

/-- Operators leave the stack as it was. -/
theorem evens_operate (op : BinaryOp) (size : Nat) (left right : Reg) :
    Evens (operate op size left right) := by
  unfold operate
  split
  next comparison hcomparison => exact evens_compare hcomparison left right
  next =>
    refine Evens.ite ?_ ?_
    · cases op with
      | add | sub => exact Evens.combine _ left right
      | and | or => exact Evens.halfwise _ left right
      | mul | div | shiftLeft | shiftRight => exact Evens.fail _
      | _ => exact Evens.lift (.error .malformedTree)
    · cases op with
      | add | sub | and | or => exact Evens.simple _ left right
      | mul => exact Evens.multiply left right
      | div => exact Evens.divide left right
      | shiftLeft => exact Evens.shift false left right
      | shiftRight => exact Evens.shift true left right
      | _ => exact Evens.lift (.error .malformedTree)

theorem evens_stringData (inside : Bool) (bytes : List UInt8) :
    Evens (stringData inside bytes) := by
  refine Evens.of_flat fun state => ?_
  simp [stringData, Line.IsFlat]

end Lowering

end AccumulatorC
