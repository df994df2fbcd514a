import AccumulatorC.Proofs.Lowering.Labels

/-!
# What a step can write

A step is a tree of what it does, and the lines that it can write are those in the tree, whatever
state it runs from. So a property of all lines is found from the text of the step alone. Operations
on registers write lines of a plain kind: they put numbered labels and jump to such, and name nothing
that the source names.
-/

namespace AccumulatorC

/-! ## What lines refer to -/

/-- The label whose address an operand is found from. -/
def Address.references : Address → List Label
  | label name _ => [.symbol name]
  | stack _ | indirect _ => []

/-- The labels that stand among the operands of an instruction. -/
def Instr.references : Instr → List Label
  | setLabel _ l | jump _ l => [l]
  | setAddress _ address | load _ address | store address _ => address.references
  | skip name _ | call name => [.symbol name]
  | _ => []

/-- The labels whose addresses are stored. -/
def Data.references : Data → List Label
  | address l => [l]
  | _ => []

/-- The labels that a line refers to. -/
def Line.references : Line → List Label
  | label _ => []
  | instr i => i.references
  | data d => d.references

/-- A label with a number and a role. -/
def Label.isInner : Label → Bool
  | inner _ _ _ => true
  | _ => false

/-- Whether a line belongs to an operation on registers. -/
def Line.isOperation : Line → Bool
  | label l => l.isInner
  | instr (.setLabel _ _) | instr (.call _) => false
  | instr i => i.references.all Label.isInner
  | data _ => false

namespace Line

variable {line : Line}

/-- The lines of an operation refer to numbered labels only. -/
theorem references_of_isOperation (h : line.isOperation = true) :
    ∀ l ∈ line.references, l.isInner = true := by
  intro l hl
  cases line with
  | label => cases hl
  | data => cases h
  | instr i =>
      cases i with
      | setLabel => cases h
      | call => cases h
      | _ => exact List.all_eq_true.mp h l hl

/-- They put numbered labels only. -/
theorem label_of_isOperation (h : line.isOperation = true) {l : Label}
    (hlabel : line.label? = some l) : l.isInner = true := by
  cases line with
  | label => cases hlabel; exact h
  | instr => cases hlabel
  | data => cases hlabel

end Line

namespace Lowering

variable {α β : Type} {good other : Line → Prop} {post after : α → Prop}

/-! ## Steps -/

/-- Every line that the step can write has a property, and every value that it can give meets a
postcondition. -/
def Writes (good : Line → Prop) (post : α → Prop) : Lowering α → Prop
  | give value => post value
  | stop _ => True
  | look next => ∀ state, (next state).Writes good post
  | change _ next => next.Writes good post
  | write line next => good line ∧ next.Writes good post
  | request _ next => ∀ r, (next r).Writes good post

/-- What is said of the lines and of the values can be weakened. -/
theorem Writes.mono {step : Lowering α} (h : step.Writes good post)
    (hgood : ∀ line, good line → other line) (hpost : ∀ value, post value → after value) :
    step.Writes other after := by
  induction step with
  | give value => exact hpost value h
  | stop cause => trivial
  | look next ih => exact fun state => ih state (h state)
  | change f next ih => exact ih h
  | write line next ih => exact ⟨hgood line h.1, ih h.2⟩
  | request size next ih => exact fun r => ih r (h r)

/-- What a step can write bounds what it writes in a run. -/
theorem Writes.ensures {step : Lowering α} (h : step.Writes good post) (state : LowerState) :
    Ensures step state fun value code _ => post value ∧ ∀ line ∈ code, good line := by
  induction step generalizing state with
  | give value => exact ensures_pure.mpr ⟨h, fun line hmem => by cases hmem⟩
  | stop cause =>
      intro done hdone
      cases hdone
  | look next ih => exact ih state (h state) state
  | change f next ih => exact ih h (f state)
  | write line next ih =>
      intro done hdone
      obtain ⟨rest, hrest, rfl⟩ := map_eq_ok.mp hdone
      obtain ⟨hpost, hlines⟩ := ih h.2 state rest hrest
      exact ⟨hpost, List.forall_mem_cons.mpr ⟨h.1, hlines⟩⟩
  | request size next ih =>
      intro done hdone
      simp only [run] at hdone
      split at hdone
      next r _ => exact ih r (h r) _ done hdone
      next => cases hdone

@[simp] theorem writes_pure {value : α} : (pure value : Lowering α).Writes good post ↔ post value :=
  .rfl

/-- Two steps write what the first one can and what the second one can with any value of it. -/
@[simp] theorem writes_bind {first : Lowering α} {second : α → Lowering β} {post : β → Prop} :
    (first >>= second).Writes good post ↔
      first.Writes good fun value => (second value).Writes good post := by
  show (first.andThen second).Writes good post ↔ _
  induction first with
  | give value => exact .rfl
  | stop cause => exact .rfl
  | look next ih => exact forall_congr' ih
  | change f next ih => exact ih
  | write line next ih => exact and_congr_right fun _ => ih
  | request size next ih => exact forall_congr' ih

@[simp] theorem writes_map {f : α → β} {step : Lowering α} {post : β → Prop} :
    (f <$> step).Writes good post ↔ step.Writes good fun value => post (f value) := by
  simp only [map_eq_pure_bind, writes_bind, writes_pure]

@[simp] theorem writes_ite {c : Prop} [Decidable c] {yes no : Lowering α} :
    (if c then yes else no).Writes good post ↔
      (c → yes.Writes good post) ∧ (¬ c → no.Writes good post) := by
  by_cases hc : c <;> simp [hc]

@[simp] theorem writes_get {post : LowerState → Prop} :
    get.Writes good post ↔ ∀ state, post state := .rfl

@[simp] theorem writes_modify {change : LowerState → LowerState} {post : Unit → Prop} :
    (modify change).Writes good post ↔ post () := .rfl

@[simp] theorem writes_fail {cause : LowerError} : (fail cause : Lowering α).Writes good post ↔ True :=
  .rfl

/-- A lifted result writes nothing. -/
@[simp] theorem writes_lift {result : Except Breakdown α} :
    (lift result).Writes good post ↔ ∀ value, result = .ok value → post value := by
  cases result with
  | ok value =>
      constructor
      · rintro h _ ⟨⟩
        exact h
      · exact fun h => h value rfl
  | error cause =>
      constructor
      · rintro - _ ⟨⟩
      · exact fun _ => trivial

/-- Writing a line writes that line only. -/
@[simp] theorem writes_line {l : Line} {post : Unit → Prop} :
    (line l).Writes good post ↔ good l ∧ post () := .rfl

@[simp] theorem writes_emit {instr : Instr} {post : Unit → Prop} :
    (emit instr).Writes good post ↔ good (.instr instr) ∧ post () := .rfl

@[simp] theorem writes_mark {l : Label} {post : Unit → Prop} :
    (mark l).Writes good post ↔ good (.label l) ∧ post () := .rfl

@[simp] theorem writes_visit {location : Location} {post : Unit → Prop} :
    (visit location).Writes good post ↔ post () := .rfl

/-- Allocation writes nothing, and any register may come out of it. -/
@[simp] theorem writes_allocate {size : Nat} {post : Reg → Prop} :
    (allocate size).Writes good post ↔ ∀ r, post r := .rfl

@[simp] theorem writes_free {r : Reg} {post : Unit → Prop} :
    (free r).Writes good post ↔ post () := .rfl

@[simp] theorem writes_newLabel {family : Family} {post : Nat → Prop} :
    (newLabel family).Writes good post ↔ ∀ state : LowerState, post (state.labels.count family) :=
  .rfl

@[simp] theorem writes_claim {r : Reg} {post : Bool → Prop} :
    (claim r).Writes good post ↔ ∀ state : LowerState, post (state.held.claim r).1 := .rfl

@[simp] theorem writes_push {r : Reg} {post : Unit → Prop} :
    (push r).Writes good post ↔ good (.instr (.push r)) ∧ post () := by
  simp only [push, deepen, writes_bind, writes_get, writes_lift, writes_modify, writes_emit]
  refine ⟨fun h => h ⟨.empty, 0, .empty, .startOf ""⟩ r.size ?_, fun h _ _ _ => h⟩
  rcases r.size_eq_one_or_two with hsize | hsize <;> rw [hsize] <;> rfl

@[simp] theorem writes_shallow {bytes : Nat} {post : Unit → Prop} :
    (shallow bytes).Writes good post ↔ post () := by
  simp only [shallow, writes_bind, writes_get, writes_lift, writes_modify]
  refine ⟨fun h => h ⟨.empty, bytes, .empty, .startOf ""⟩ 0 ?_, fun h _ _ _ => h⟩
  simp [takeBytes_eq_ok]

@[simp] theorem writes_pop {r : Reg} {post : Unit → Prop} :
    (pop r).Writes good post ↔ good (.instr (.pop r)) ∧ post () := by
  simp only [pop, writes_bind, writes_emit, writes_shallow]

/-! ## Operations -/

/-- The step writes lines of operations only. -/
abbrev Operates (step : Lowering α) : Prop :=
  step.Writes (fun line => line.isOperation = true) fun _ => True

namespace Operates

/-- Steps of operations make an operation. -/
theorem bind {first : Lowering α} {second : α → Lowering β} (h : first.Operates)
    (hsecond : ∀ value, (second value).Operates) : (first >>= second).Operates :=
  writes_bind.mpr (h.mono (fun _ => id) fun value _ => hsecond value)

theorem newLabel (family : Family) : (Lowering.newLabel family).Operates := fun _ => trivial

/-- Operations on each of several registers make an operation. -/
theorem forM {registers : List Reg} {step : Reg → Lowering Unit} (h : ∀ r, (step r).Operates) :
    (registers.forM step).Operates := by
  induction registers with
  | nil => trivial
  | cons r registers ih => exact (h r).bind fun _ => ih

theorem preservingAccumulator {step : Lowering Unit} (h : step.Operates) :
    (Lowering.preservingAccumulator step).Operates := by
  have hpop : step.Writes (fun line => line.isOperation = true) fun _ =>
      (pop .a).Operates := h.mono (fun _ => id) fun _ _ => writes_pop.mpr ⟨rfl, trivial⟩
  simp only [Lowering.preservingAccumulator, writes_bind, writes_claim, writes_ite, writes_push,
    writes_free]
  exact fun _ => ⟨fun _ => h, fun _ => ⟨rfl, hpop⟩⟩

/-- Running an operation through the accumulator is an operation. -/
theorem throughAccumulator {step : Lowering Unit} (h : step.Operates) (r : Reg) :
    (Lowering.throughAccumulator r step).Operates := by
  refine writes_ite.mpr ⟨fun _ => h, fun _ => preservingAccumulator ?_⟩
  simp only [writes_bind, writes_emit]
  exact ⟨rfl, h.mono (fun _ => id) fun _ _ => ⟨rfl, trivial⟩⟩

theorem accumulate {left right : Reg} {step : Reg → Lowering Unit} (h : ∀ r, (step r).Operates) :
    (Lowering.accumulate left right step).Operates := by
  simp only [Lowering.accumulate, writes_bind, writes_ite, writes_allocate, writes_emit, writes_free,
    writes_pure]
  exact ⟨fun _ r => ⟨rfl, (h r).throughAccumulator left⟩,
    fun _ => (h right).throughAccumulator left⟩

theorem coerce (r : Reg) (size : Nat) : (Lowering.coerce r size).Operates := by
  simp only [Lowering.coerce, writes_bind, writes_ite, writes_allocate, writes_emit, writes_free,
    writes_claim, writes_pure, implies_true, and_true]
  exact fun _ wide => ⟨fun _ => ⟨rfl, rfl⟩, fun _ => rfl⟩

theorem decideTruth (comparison : Comparison) (n : Nat) :
    (Lowering.decideTruth comparison n).Operates := by
  simp only [Lowering.decideTruth, writes_bind, writes_emit, writes_mark, and_true]
  and_intros <;> rfl

/-- A comparison is an operation, with the jumps that decide its truth value. -/
theorem compare (comparison : Comparison) (left right : Reg) :
    (Lowering.compare comparison left right).Operates := by
  have hpairs : ∀ n, (comparingPairs comparison n left right).Operates := by
    intro n
    simp only [comparingPairs, Lowering.decideTruth, writes_bind, writes_emit, writes_mark, and_true]
    and_intros <;> rfl
  rw [compare_eq]
  simp only [writes_bind, writes_newLabel, writes_ite, writes_free, writes_pure]
  refine fun _ => ⟨fun _ => accumulate fun r => ?_, fun _ => preservingAccumulator (hpairs _)⟩
  exact writes_bind.mpr ⟨rfl, decideTruth comparison _⟩

theorem shift (right : Bool) (value count : Reg) : (Lowering.shift right value count).Operates := by
  rw [shift_eq]
  refine writes_bind.mpr fun state => accumulate fun count => ?_
  simp only [shifting, writes_bind, writes_ite, writes_push, writes_pop, writes_emit, writes_mark,
    and_true]
  refine ⟨rfl, fun _ => ?_, fun _ => ?_⟩ <;> and_intros <;> rfl

theorem multiply (left right : Reg) : (Lowering.multiply left right).Operates := by
  rw [multiply_eq]
  refine writes_bind.mpr fun state => accumulate fun count => ?_
  simp only [multiplication, writes_bind, writes_allocate, writes_emit, writes_mark, writes_free,
    and_true]
  intro multiplicand
  and_intros <;> rfl

theorem divide (left right : Reg) : (Lowering.divide left right).Operates := by
  rw [divide_eq]
  refine writes_bind.mpr fun state => accumulate fun divisor => ?_
  simp only [division, writes_bind, writes_allocate, writes_emit, writes_mark, writes_free, and_true]
  intro quotient
  and_intros <;> rfl

theorem simple (op : AccumulatorOp) (left right : Reg) : (Lowering.simple op left right).Operates :=
  accumulate fun _ => ⟨rfl, trivial⟩

theorem combine (op : PairOp) (left right : Reg) : (Lowering.combine op left right).Operates :=
  ⟨rfl, trivial⟩

theorem halfwise (op : AccumulatorOp) (left right : Reg) :
    (Lowering.halfwise op left right).Operates := by
  have hhalf : ∀ half operand : Reg,
      (Lowering.throughAccumulator half (emit (.accumulate op (.reg operand)))).Operates := by
    intro half operand
    exact throughAccumulator (writes_emit.mpr ⟨rfl, trivial⟩) half
  exact (hhalf left.low right.low).bind fun _ => (hhalf left.high right.high).bind fun _ => trivial

/-- Every operator is an operation, whatever size it is applied to. -/
theorem operate (op : BinaryOp) (size : Nat) (left right : Reg) :
    (Lowering.operate op size left right).Operates := by
  unfold Lowering.operate
  split
  · exact compare _ left right
  · refine writes_ite.mpr ⟨fun _ => ?_, fun _ => ?_⟩
    · cases op with
      | add | sub => exact combine _ left right
      | and | or => exact halfwise _ left right
      | _ => trivial
    · cases op with
      | add | sub | and | or => exact simple _ left right
      | mul => exact multiply left right
      | div => exact divide left right
      | shiftLeft => exact shift false left right
      | shiftRight => exact shift true left right
      | _ => trivial

theorem negate (r : Reg) : (Lowering.negate r).Operates := by
  simp only [Lowering.negate, writes_bind, writes_allocate, writes_emit, writes_ite]
  exact fun zero => ⟨rfl, fun _ => combine _ _ _, fun _ => simple _ _ _⟩

/-- Steps by several units are as many operations. -/
theorem stepBy {step : Reg → Instr} (h : ∀ r, (Line.instr (step r)).isOperation = true) (r : Reg)
    (count : Nat) : (Lowering.stepBy step r count).Operates := by
  induction count with
  | zero => trivial
  | succ count ih => exact writes_bind.mpr ⟨h r, ih⟩

theorem save (r : Reg) : (Lowering.save r).Operates := by
  simp only [Lowering.save, writes_bind, writes_push, writes_free, and_true]
  rfl

theorem saveAll : Lowering.saveAll.Operates := fun _ => (forM save).bind fun _ => trivial

theorem claimAll (registers : List Reg) : (Lowering.claimAll registers).Operates :=
  forM fun _ _ => trivial

/-- Saved registers are restored by operations. -/
theorem restore (function : Symbol) (saved : List Reg) :
    (Lowering.restore function saved).Operates := by
  have hclaim : (claimResult function.resultSize).Operates := by
    simp [claimResult]
  have hmove : ∀ clashing result, (moveResult clashing result).Operates := by
    intro clashing result
    cases result with
    | none => trivial
    | some r => exact writes_ite.mpr ⟨fun _ => trivial, fun _ _ => ⟨rfl, trivial⟩⟩
  have hpop : ∀ r, (pop r).Operates := fun r => writes_pop.mpr ⟨rfl, trivial⟩
  refine hclaim.bind fun result => (claimAll _).bind fun _ => (hmove _ _).bind fun _ => ?_
  exact (claimAll _).bind fun _ => (forM hpop).bind fun _ => trivial

end Operates

end Lowering

end AccumulatorC
