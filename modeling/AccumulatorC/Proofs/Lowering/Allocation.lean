import AccumulatorC.Lowering.Operation
import AccumulatorC.Proofs.Lowering.Ensures
import AccumulatorC.Proofs.Machine.Registers

/-!
# The registers of an operation

An operation leaves its result in the register of its left operand and gives the one of the
right operand back. Whatever it takes and pushes meanwhile, it gives back and pops again.
-/

namespace AccumulatorC

namespace Lowering

/-- One register is in use besides a conflict-free set that it overlaps nothing of. -/
structure Holds (set : RegSet) (r : Reg) (state : LowerState) : Prop where
  held : state.held = set.insert r
  isFree : set.isFree r = true
  conflictFree : set.ConflictFree

theorem Holds.contains {set : RegSet} {r : Reg} {state : LowerState} (h : Holds set r state) :
    state.held.contains r = true := by
  simp [h.held]

theorem Holds.erase {set : RegSet} {r : Reg} {state : LowerState} (h : Holds set r state) :
    state.held.erase r = set := by
  rw [h.held, RegSet.erase_insert (RegSet.not_contains_of_isFree h.isFree)]

theorem Holds.held_conflictFree {set : RegSet} {r : Reg} {state : LowerState}
    (h : Holds set r state) : state.held.ConflictFree := by
  rw [h.held]
  exact h.conflictFree.insert h.isFree

/-- A register that was free is in use besides the others, and only two bytes take a pair. -/
theorem allocate_holds {size : Nat} (hle : size ≤ 2) {state : LowerState}
    (h : state.held.ConflictFree) :
    Ensures (allocate size) state fun r code after =>
      code = [] ∧ Holds state.held r after ∧ (r.size = 2 ↔ size = 2) := by
  rw [ensures_allocate]
  intro r hr
  refine ⟨rfl, ⟨rfl, (RegSet.firstFree_eq_some hr).1, h⟩, ?_⟩
  by_cases htwo : size = 2
  · rw [RegSet.size_of_firstFree (.inr htwo) hr]
  · have hone := RegSet.size_of_firstFree_le_one (by omega) hr
    omega

/-! ## Operations -/

/-- Steps after which the registers in use and the pushed bytes are as before. -/
def Keeps (step : Lowering Unit) : Prop :=
  ∀ state, Ensures step state fun _ _ after =>
    after.held = state.held ∧ after.depth = state.depth

theorem Keeps.emit (instr : Instr) : Keeps (Lowering.emit instr) := by
  intro state
  simp

theorem Keeps.mark (label : Label) : Keeps (Lowering.mark label) := by
  intro state
  simp

theorem Keeps.bind {step : Lowering Unit} {next : Unit → Lowering Unit} (h : Keeps step)
    (hnext : Keeps (next ())) : Keeps (step >>= next) := by
  intro state
  rw [ensures_bind]
  refine (h state).mono fun _ _ middle hmiddle => (hnext middle).mono fun _ _ after hafter => ?_
  exact ⟨hafter.1.trans hmiddle.1, hafter.2.trans hmiddle.2⟩

theorem Keeps.preservingAccumulator {step : Lowering Unit} (h : Keeps step) :
    Keeps (preservingAccumulator step) := by
  intro state
  simp only [Lowering.preservingAccumulator, ensures_bind, ensures_claim, ensures_ite,
    ensures_push, ensures_pop, ensures_free, Bool.false_eq_true, not_true_eq_false,
    not_false_eq_true, forall_const, false_implies, and_true, true_and]
  constructor
  · intro hfree
    refine (h _).mono fun _ _ after hafter => ⟨?_, hafter.2⟩
    rw [hafter.1, RegSet.erase_insert (RegSet.not_contains_of_isFree hfree)]
  · intro _ _
    refine (h _).mono fun _ _ after hafter hsize => ⟨hafter.1, ?_⟩
    simp [hafter.2]

theorem Keeps.throughAccumulator {step : Lowering Unit} (h : Keeps step) (r : Reg) :
    Keeps (throughAccumulator r step) := by
  intro state
  unfold Lowering.throughAccumulator
  rw [ensures_ite]
  refine ⟨fun _ => h state, fun _ => ?_⟩
  exact ((emit _).bind (h.bind (emit _))).preservingAccumulator state

/-- The result of an operation replaces its left operand, and the right one is given back. -/
def Replaces (left right : Reg) (state : LowerState) : Post Reg := fun r _ after =>
  r = left ∧ after.held = state.held.erase right ∧ after.depth = state.depth

/-- An operation through the accumulator leaves its result in the left register and gives the
right one back. -/
theorem accumulate_replaces {left right : Reg} {step : Reg → Lowering Unit} {state : LowerState}
    (hright : state.held.contains right = true) (h : ∀ r, Keeps (step r)) :
    Ensures (accumulate left right step) state (Replaces left right state) := by
  have hthrough : ∀ (r : Reg) (middle : LowerState),
      Ensures (do throughAccumulator left (step r); free r; return left) middle
        (Replaces left r middle) := by
    intro r middle
    simp only [ensures_bind, ensures_free, ensures_pure]
    refine ((h r).throughAccumulator left middle).mono fun _ _ after hafter => ?_
    exact ⟨rfl, by rw [hafter.1], hafter.2⟩
  simp only [accumulate, ensures_bind, ensures_ite]
  constructor
  · rintro ⟨rfl, -⟩
    simp only [ensures_allocate, ensures_emit, ensures_free, ensures_pure]
    intro moved hmoved
    -- The right operand has moved, so it is in `moved` that it is given back.
    have hfree := (RegSet.firstFree_eq_some hmoved).1
    have hne : moved ≠ .a := by
      rintro rfl
      simp [RegSet.not_contains_of_isFree hfree] at hright
    have hnot : (state.held.erase .a).contains moved = false := by
      simp [RegSet.not_contains_of_isFree hfree]
    refine ((h moved).throughAccumulator left _).mono fun _ _ after hafter => ⟨rfl, ?_, hafter.2⟩
    rw [hafter.1, RegSet.erase_insert_of_ne hne, RegSet.erase_insert hnot]
  · intro _
    have := hthrough right state
    simpa only [ensures_bind, ensures_free, ensures_pure, List.nil_append] using this

theorem keeps_decideTruth (comparison : Comparison) (n : Nat) : Keeps (decideTruth comparison n) := by
  intro state
  simp [decideTruth]

theorem keeps_stepBy (step : Reg → Instr) (r : Reg) (count : Nat) : Keeps (stepBy step r count) := by
  induction count with
  | zero =>
      intro state
      simp [stepBy]
  | succ count ih => exact (Keeps.emit _).bind ih

theorem keeps_stepPair (address : Address) : Keeps (stepPair address) := by
  intro state
  cases address <;> simp [stepPair]

theorem keeps_load (r : Reg) (address : Address) : Keeps (load r address) := by
  intro state
  unfold load
  split
  · simp
  · simp only [ensures_bind, ensures_emit, ensures_lift]
    exact (keeps_stepPair address state).mono fun _ _ after hafter _ _ => hafter

theorem keeps_store (address : Address) (r : Reg) : Keeps (store address r) := by
  intro state
  unfold store
  split
  · simp
  · simp only [ensures_bind, ensures_emit, ensures_lift]
    exact (keeps_stepPair address state).mono fun _ _ after hafter _ _ => hafter

/-- What a widened or narrowed value takes: a register of the new size in place of the old. -/
theorem coerce_holds {set : RegSet} {r : Reg} {state : LowerState} (h : Holds set r state)
    {size : Nat} (hsize : size = 1 ∨ size = 2) :
    Ensures (coerce r size) state fun r' _ after =>
      Holds set r' after ∧ r'.size = size ∧ after.depth = state.depth := by
  have herase := h.erase
  unfold coerce
  rw [ensures_ite]
  constructor
  · rintro ⟨-, rfl⟩
    simp only [ensures_bind, ensures_free, ensures_allocate, herase]
    intro wide hwide
    have hfree := (RegSet.firstFree_eq_some hwide).1
    have hwideSize := RegSet.size_of_firstFree_two hwide
    have hholds : Holds set wide { state with held := set.insert wide } :=
      ⟨rfl, hfree, h.conflictFree⟩
    simp only [ensures_ite, ensures_bind, ensures_emit, ensures_pure]
    exact ⟨fun _ => ⟨hholds, hwideSize, trivial⟩, fun _ => ⟨hholds, hwideSize, trivial⟩⟩
  · intro hwiden
    rw [ensures_ite]
    constructor
    · rintro ⟨-, rfl⟩
      have hlow : set.isFree r.low = true := RegSet.isFree_low h.isFree
      simp only [ensures_bind, ensures_free, ensures_claim, ensures_pure, herase, hlow]
      exact ⟨fun _ => ⟨⟨rfl, hlow, h.conflictFree⟩, Reg.size_low r, trivial⟩, by simp⟩
    · intro hnarrow
      rw [ensures_pure]
      refine ⟨h, ?_, rfl⟩
      rcases r.size_eq_one_or_two with hr | hr <;> rcases hsize with rfl | rfl <;> simp_all

/-! ## Operators -/

/-- A multiplication whose left operand is in the accumulator. -/
def multiplication (n : Nat) (count : Reg) : Lowering Unit := do
  let multiplicand ← allocate 1
  emit (.copy multiplicand .a)
  emit (.setNumber .a 0)
  mark (.inner .multiply .repetition n)
  emit (.decrement count)
  emit (.jump .notGreater (.inner .multiply .exit n))
  emit (.accumulate .add (.reg multiplicand))
  emit (.jump .always (.inner .multiply .repetition n))
  mark (.inner .multiply .exit n)
  free multiplicand

/-- A division whose left operand is in the accumulator. -/
def division (n : Nat) (divisor : Reg) : Lowering Unit := do
  let quotient ← allocate 1
  emit (.setNumber quotient 0)
  mark (.inner .divide .repetition n)
  emit (.accumulate .compare (.reg divisor))
  emit (.jump .equal (.inner .divide .step n))
  emit (.jump .notGreater (.inner .divide .exit n))
  mark (.inner .divide .step n)
  emit (.accumulate .sub (.reg divisor))
  emit (.increment quotient)
  emit (.jump .always (.inner .divide .repetition n))
  mark (.inner .divide .exit n)
  emit (.copy .a quotient)
  free quotient

/-- The family of the labels of a shift. -/
def shiftFamily (right : Bool) : Family := if right then .shiftRight else .shiftLeft

/-- A shift whose left operand is in the accumulator. -/
def shifting (right : Bool) (n : Nat) (count : Reg) : Lowering Unit := do
  push .a
  if right then
    emit (.setNumber .a 8)
    emit (.accumulate .sub (.reg count))
  else emit (.copy .a count)
  emit (.accumulate .and (.lowBits 3))
  emit (.copy count .a)
  pop .a
  mark (.inner (shiftFamily right) .repetition n)
  emit (.decrement count)
  emit (.jump .notGreater (.inner (shiftFamily right) .exit n))
  emit .rotate
  emit (.jump .always (.inner (shiftFamily right) .repetition n))
  mark (.inner (shiftFamily right) .exit n)

/-- A comparison of bytes whose left operand is in the accumulator. -/
def comparing (comparison : Comparison) (n : Nat) (right : Reg) : Lowering Unit := do
  emit (.accumulate .compare (.reg right))
  decideTruth comparison n

/-- A comparison of pairs with the accumulator at its disposal. -/
def comparingPairs (comparison : Comparison) (n : Nat) (left right : Reg) : Lowering Unit := do
  emit (.copy .a left.high)
  emit (.accumulate .compare (.reg right.high))
  emit (.jump .notEqual (.inner comparison.family .decision n))
  emit (.copy .a left.low)
  emit (.accumulate .compare (.reg right.low))
  mark (.inner comparison.family .decision n)
  decideTruth comparison n
  emit (.copy left.low .a)
  emit (.setNumber left.high 0)

theorem multiply_eq (left right : Reg) :
    multiply left right =
      newLabel .multiply >>= fun n => accumulate left right (multiplication n) := rfl

theorem divide_eq (left right : Reg) :
    divide left right =
      newLabel .divide >>= fun n => accumulate left right (division n) := rfl

theorem shift_eq (right : Bool) (value count : Reg) :
    shift right value count =
      newLabel (shiftFamily right) >>= fun n => accumulate value count (shifting right n) := rfl

theorem compare_eq (comparison : Comparison) (left right : Reg) :
    compare comparison left right =
      newLabel comparison.family >>= fun n =>
        if left.size = 1 then accumulate left right (comparing comparison n)
        else (do
          preservingAccumulator (comparingPairs comparison n left right)
          free right
          return left) := rfl

theorem keeps_multiplication (n : Nat) (count : Reg) : Keeps (multiplication n count) := by
  intro state
  simp only [multiplication, ensures_bind, ensures_allocate, ensures_emit, ensures_mark,
    ensures_free]
  intro multiplicand hfree
  have hnot := RegSet.not_contains_of_isFree (RegSet.firstFree_eq_some hfree).1
  exact ⟨RegSet.erase_insert hnot, trivial⟩

theorem keeps_division (n : Nat) (divisor : Reg) : Keeps (division n divisor) := by
  intro state
  simp only [division, ensures_bind, ensures_allocate, ensures_emit, ensures_mark, ensures_free]
  intro quotient hfree
  have hnot := RegSet.not_contains_of_isFree (RegSet.firstFree_eq_some hfree).1
  exact ⟨RegSet.erase_insert hnot, trivial⟩

theorem keeps_shifting (right : Bool) (n : Nat) (count : Reg) : Keeps (shifting right n count) := by
  intro state
  cases right <;> simp [shifting]

theorem keeps_comparing (comparison : Comparison) (n : Nat) (right : Reg) :
    Keeps (comparing comparison n right) :=
  (Keeps.emit _).bind (keeps_decideTruth comparison n)

theorem keeps_comparingPairs (comparison : Comparison) (n : Nat) (left right : Reg) :
    Keeps (comparingPairs comparison n left right) := by
  intro state
  simp [comparingPairs, decideTruth]

/-- An operation on bytes that numbers its labels first. -/
theorem numbered_replaces {family : Family} {left right : Reg} {step : Nat → Reg → Lowering Unit}
    {state : LowerState} (hright : state.held.contains right = true)
    (h : ∀ n r, Keeps (step n r)) :
    Ensures (newLabel family >>= fun n => accumulate left right (step n)) state
      (Replaces left right state) := by
  rw [ensures_bind, ensures_newLabel]
  exact (accumulate_replaces (by exact hright) (h _)).mono fun _ _ _ hafter => hafter

theorem compare_replaces {comparison : Comparison} {left right : Reg} {state : LowerState}
    (hright : state.held.contains right = true) :
    Ensures (compare comparison left right) state (Replaces left right state) := by
  rw [compare_eq, ensures_bind, ensures_newLabel, ensures_ite]
  constructor
  · intro _
    refine (accumulate_replaces (by exact hright) fun r => ?_).mono fun _ _ _ hafter => hafter
    exact keeps_comparing comparison _ r
  · intro _
    rw [ensures_bind]
    refine (keeps_comparingPairs _ _ _ _).preservingAccumulator _ |>.mono fun _ _ after hafter => ?_
    simp [Replaces, hafter.1, hafter.2]

theorem simple_replaces {op : AccumulatorOp} {left right : Reg} {state : LowerState}
    (hright : state.held.contains right = true) :
    Ensures (simple op left right) state (Replaces left right state) :=
  accumulate_replaces hright fun _ => Keeps.emit _

theorem combine_replaces {op : PairOp} {left right : Reg} {state : LowerState} :
    Ensures (combine op left right) state (Replaces left right state) := by
  simp [combine, Replaces]

theorem halfwise_replaces {op : AccumulatorOp} {left right : Reg} {state : LowerState} :
    Ensures (halfwise op left right) state (Replaces left right state) := by
  unfold halfwise
  simp only [ensures_bind, ensures_free, ensures_pure]
  refine ((Keeps.emit _).throughAccumulator _ _).mono fun _ _ middle hmiddle => ?_
  refine ((Keeps.emit _).throughAccumulator _ _).mono fun _ _ after hafter => ⟨rfl, ?_, ?_⟩
  · rw [hafter.1, hmiddle.1]
  · rw [hafter.2, hmiddle.2]

/-- Every operator leaves its result in the left register and gives the right one back. -/
theorem operate_replaces {op : BinaryOp} {size : Nat} {left right : Reg} {state : LowerState}
    (hright : state.held.contains right = true) :
    Ensures (operate op size left right) state (Replaces left right state) := by
  unfold operate
  split
  · exact compare_replaces hright
  · rw [ensures_ite]
    constructor
    · intro _
      cases op <;> simp only [operatePairs, ensures_fail, ensures_lift, reduceCtorEq, false_implies,
        implies_true]
      · exact combine_replaces
      · exact combine_replaces
      · exact halfwise_replaces
      · exact halfwise_replaces
    · intro _
      cases op <;> simp only [operateBytes, ensures_lift, reduceCtorEq, false_implies, implies_true]
      · exact simple_replaces hright
      · exact simple_replaces hright
      · exact numbered_replaces hright keeps_multiplication
      · exact numbered_replaces hright keeps_division
      · exact simple_replaces hright
      · exact simple_replaces hright
      · exact numbered_replaces hright (keeps_shifting false)
      · exact numbered_replaces hright (keeps_shifting true)

/-- After an operation on a held value and one more the set holds its result alone. -/
theorem Replaces.holds {set : RegSet} {left right r : Reg} {state after : LowerState}
    {code : List Line} (h : Replaces left right state r code after) (hleft : set.isFree left = true)
    (hset : set.ConflictFree) (hright : Holds (set.insert left) right state) :
    Holds set r after ∧ r = left ∧ after.depth = state.depth := by
  obtain ⟨rfl, hheld, hdepth⟩ := h
  exact ⟨⟨by rw [hheld, hright.erase], hleft, hset⟩, rfl, hdepth⟩

/-- Negation may leave its result in another register of the same size. -/
theorem negate_holds {set : RegSet} {r : Reg} {state : LowerState} (h : Holds set r state) :
    Ensures (negate r) state fun r' _ after =>
      Holds set r' after ∧ r'.size = r.size ∧ after.depth = state.depth := by
  unfold negate
  simp only [ensures_bind, ensures_allocate, ensures_emit]
  intro zero hzero
  have hfree := (RegSet.firstFree_eq_some hzero).1
  rw [h.held, RegSet.isFree_insert] at hfree
  have hne : r ≠ zero := by
    rintro rfl
    simp at hfree
  -- The value is given back from below the zero that stands for the left operand.
  have hholds : ∀ {r' : Reg} {code : List Line} {after : LowerState},
      Replaces zero r { state with held := state.held.insert zero } r' code after →
      Holds set r' after ∧ r'.size = r.size ∧ after.depth = state.depth := by
    rintro r' code after ⟨rfl, hheld, hdepth⟩
    refine ⟨⟨?_, hfree.1, h.conflictFree⟩, ?_, hdepth⟩
    · rw [hheld, RegSet.erase_insert_of_ne (Ne.symm hne), h.erase]
    · exact RegSet.size_of_firstFree r.size_eq_one_or_two hzero
  rw [ensures_ite]
  constructor
  · intro _
    exact combine_replaces.mono fun _ _ _ hafter => hholds hafter
  · intro _
    refine (simple_replaces ?_).mono fun _ _ _ hafter => hholds hafter
    simp [h.contains]

end Lowering

end AccumulatorC
