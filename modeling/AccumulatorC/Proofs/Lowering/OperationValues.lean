import AccumulatorC.Program.Fold
import AccumulatorC.Proofs.Lowering.Allocation
import AccumulatorC.Proofs.Machine.Loops

/-!
# The values of operations

An operation on registers leaves in the register of its left operand what the operator makes of
the two values, whichever registers the operands are in and whether or not the accumulator is in
use. All other registers in use stay as they are, and so does the stack; below the stack pointer
two bytes may change.
-/

namespace AccumulatorC

namespace Lowering

/-- The code of a step leaves a value in a register. The value is found from the registers, and
it need not exist. -/
def Computes {α : Type} (step : Lowering α) (state : LowerState) (bytes : Nat) (kept : Reg → Prop)
    (r : Reg) (value : Registers → Option UInt16) : Prop :=
  Ensures step state fun _ code _ => ∀ (platform : Platform) (m : Machine) (result : UInt16),
    value m.registers = some result → Delivers platform bytes code kept m r result

/-! ## The accumulator at disposal -/

section Accumulator

variable {state : LowerState} {step : Lowering Unit} {bytes : Nat} {kept : Reg → Prop} {r : Reg}
  {value : Registers → Option UInt16}

/-- A step that may use the accumulator is given it, and whatever was in it comes back. -/
theorem preservingAccumulator_quiet (given leaves : Machine → Prop) (hbytes : bytes < 65536)
    (hgiven : ∀ m byte, given m → given (m.pushByte byte))
    (hleaves : ∀ m, leaves m → leaves (m.pop .a))
    (h : ∀ inner : LowerState, inner.held = state.held.insert .a →
      Ensures step inner fun _ code _ => ∀ (platform : Platform) (m : Machine), given m →
        ∃ after, Quiet platform bytes code kept m after ∧ leaves after) :
    Ensures (preservingAccumulator step) state fun _ code _ =>
      ∀ (platform : Platform) (m : Machine), given m →
        ∃ after, Quiet platform (bytes + 1) code
          (fun s => s = .a ∧ state.held.contains .a = true ∨ kept s) m after ∧ leaves after := by
  simp only [preservingAccumulator, ensures_bind, ensures_claim, ensures_ite, ensures_push,
    ensures_pop, ensures_free, Bool.false_eq_true, not_true_eq_false, not_false_eq_true,
    forall_const, false_implies, and_true, true_and, List.nil_append, List.append_nil,
    List.cons_append]
  constructor
  · intro hfree
    refine (h { state with held := state.held.insert .a } rfl).mono ?_
    intro _ code _ hcode platform m hm
    obtain ⟨after, hquiet, hafter⟩ := hcode platform m hm
    refine ⟨after, hquiet.mono (Nat.le_succ _) ?_, hafter⟩
    intro s hs
    apply hs.resolve_left
    rw [RegSet.not_contains_of_isFree hfree]
    simp
  · intro hused _
    have ha : state.held.contains .a = true := by
      by_contra hnot
      apply Bool.false_ne_true
      rw [← hused, RegSet.isFree_iff]
      intro s hs
      apply Reg.a_apart_of_ne
      rintro rfl
      exact hnot hs
    refine (h { state with depth := state.depth + Reg.a.size }
      (RegSet.insert_of_contains ha).symm).mono ?_
    intro _ code _ hcode _ platform m hm
    obtain ⟨after, hquiet, hafter⟩ := hcode platform _ (hgiven m (m.read .a).toUInt8 hm)
    refine ⟨after.pop .a, (hquiet.preserving hbytes).mono (Nat.le_refl _) ?_, hleaves after hafter⟩
    intro s hs
    exact hs.imp_left And.left

/-- A value that is left in another register stays there when the accumulator comes back. -/
theorem preservingAccumulator_computes (hr : r ≠ .a) (hbytes : bytes < 65536)
    (h : ∀ inner : LowerState, inner.held = state.held.insert .a →
      Computes step inner bytes kept r value) :
    Computes (preservingAccumulator step) state (bytes + 1)
      (fun s => s = .a ∧ state.held.contains .a = true ∨ kept s) r value := by
  intro done hdone platform m result hresult
  have hstep : ∀ inner : LowerState, inner.held = state.held.insert .a →
      Ensures step inner fun _ code _ => ∀ (platform : Platform) (m : Machine),
        value m.registers = some result → Delivers platform bytes code kept m r result :=
    fun inner hinner => (h inner hinner).mono fun _ _ _ hcode platform m => hcode platform m result
  exact preservingAccumulator_quiet (fun m => value m.registers = some result)
    (fun m => m.read r = result) hbytes (fun _ _ hm => hm)
    (fun _ hm => (Machine.read_pop_a hr).trans hm) hstep done hdone platform m hresult

/-- A step on the accumulator is made a step on another register. -/
theorem throughAccumulator_computes (hsize : r.size = 1)
    (ha : r = .a → state.held.contains .a = true) (hbytes : bytes < 65536)
    (h : ∀ inner : LowerState, inner.held = state.held.insert .a →
      Computes step inner bytes kept .a value) :
    Computes (throughAccumulator r step) state (bytes + 1)
      (fun s => r.overlaps s = false ∧
        (s = .a ∧ state.held.contains .a = true ∨ s ≠ .a ∧ kept s)) r
      (fun registers => value (registers.write .a (registers.read r))) := by
  unfold throughAccumulator
  split
  next heq =>
    subst heq
    refine (h state (RegSet.insert_of_contains (ha rfl)).symm).mono ?_
    intro _ code _ hcode platform m result hresult
    have hsame : m.registers.write .a (m.registers.read .a) = m.registers := by
      simp [Registers.write, Registers.read]
    simp only [hsame] at hresult
    apply (hcode platform m result hresult).mono (Nat.le_succ _)
    intro s hs
    obtain ⟨hapart, ⟨rfl, -⟩ | hs⟩ := hs
    · cases hapart
    · exact hs.2
  next hne =>
    have hcopies : ∀ inner : LowerState, inner.held = state.held.insert .a →
        Computes (do emit (.copy .a r); step; emit (.copy r .a)) inner bytes
          (fun s => s ≠ .a ∧ kept s ∧ r.overlaps s = false) r
          (fun registers => value (registers.write .a (registers.read r))) := by
      intro inner hinner
      unfold Computes
      simp only [ensures_bind, ensures_emit]
      refine (h inner hinner).mono ?_
      intro _ code _ hcode platform m result hresult
      have hstart : Quiet platform bytes [.instr (.copy .a r)]
          (fun s => s ≠ .a ∧ kept s ∧ r.overlaps s = false) m (m.write .a (m.read r)) := by
        apply (Quiet.copy platform bytes m .a r).mono (Nat.le_refl _)
        intro s hs
        simpa using Reg.a_apart_of_ne hs.1
      apply Delivers.after hstart
      apply Delivers.copy
      · apply (hcode platform _ result hresult).mono (Nat.le_refl _)
        intro s hs
        exact hs.2.1
      · exact hsize.symm
      · intro s hs
        exact hs.2.2
    refine (preservingAccumulator_computes hne hbytes hcopies).mono ?_
    intro _ code _ hcode platform m result hresult
    apply (hcode platform m result hresult).mono (Nat.le_refl _)
    intro s hs
    obtain ⟨hapart, hs | hs⟩ := hs
    · exact Or.inl hs
    · exact Or.inr ⟨hs.1, hs.2, hapart⟩

end Accumulator

/-! ## Two operands -/

/-- A step on the accumulator, given the register of a right operand, leaves in it what a
function makes of the two. -/
def Calculates (f : UInt16 → UInt16 → Option UInt16) (step : Reg → Lowering Unit) : Prop :=
  ∀ (right : Reg) (state : LowerState), right.size = 1 → right ≠ .a →
    state.held.ConflictFree → state.held.contains .a = true → state.held.contains right = true →
    Computes (step right) state 1 (state.held.Besides [.a, right]) .a
      (fun registers => f (registers.read .a) (registers.read right))

/-- The operands of an operation: two registers in use. -/
structure BothHeld (state : LowerState) (size : Nat) (left right : Reg) : Prop where
  conflictFree : state.held.ConflictFree
  leftHeld : state.held.contains left = true
  rightHeld : state.held.contains right = true
  ne : left ≠ right
  leftSize : left.size = size
  rightSize : right.size = size

/-- Two operands that were taken one after the other. -/
theorem BothHeld.of_holds {set : RegSet} {first second : LowerState} {size : Nat} {left right : Reg}
    (hleft : Holds set left first) (hright : Holds first.held right second)
    (hleftSize : left.size = size) (hrightSize : right.size = size) :
    BothHeld second size left right where
  conflictFree := hright.held_conflictFree
  leftHeld := by rw [hright.held, RegSet.contains_insert, hleft.contains, Bool.or_true]
  rightHeld := hright.contains
  ne := by
    rintro rfl
    have hnot := RegSet.not_contains_of_isFree hright.isFree
    rw [hleft.contains] at hnot
    cases hnot
  leftSize := hleftSize
  rightSize := hrightSize

/-- A register that was in use before the operands were taken is none of them. -/
theorem Holds.besides {set : RegSet} {first second : LowerState} {left right s : Reg}
    (hleft : Holds set left first) (hright : Holds first.held right second)
    (hs : set.contains s = true) : second.held.Besides [left, right] s := by
  have hs' : first.held.contains s = true := by
    rw [hleft.held, RegSet.contains_insert, hs, Bool.or_true]
  refine ⟨by rw [hright.held, RegSet.contains_insert, hs', Bool.or_true], ?_⟩
  simp only [List.mem_cons, List.not_mem_nil, or_false, not_or]
  constructor
  · rintro rfl
    simp [RegSet.not_contains_of_isFree hleft.isFree] at hs
  · rintro rfl
    simp [RegSet.not_contains_of_isFree hright.isFree] at hs'

section Operating

variable {state : LowerState} {left right : Reg} {f : UInt16 → UInt16 → Option UInt16}
  {step : Reg → Lowering Unit}

/-- With the right operand elsewhere, the left one goes through the accumulator. -/
theorem throughAccumulator_calculates (h : Calculates f step) (hoperands : BothHeld state 1 left right)
    (hne : right ≠ .a) :
    Computes (throughAccumulator left (step right)) state 2 (state.held.Besides [left, right]) left
      (fun registers => f (registers.read left) (registers.read right)) := by
  have hinner : ∀ inner : LowerState, inner.held = state.held.insert .a →
      Computes (step right) inner 1 ((state.held.insert .a).Besides [.a, right]) .a
        (fun registers => f (registers.read .a) (registers.read right)) := by
    intro inner hheld
    have hstep := h right inner hoperands.rightSize hne
    rw [hheld] at hstep
    apply hstep hoperands.conflictFree.insert_a
    · simp
    · simp [hoperands.rightHeld]
  refine (throughAccumulator_computes hoperands.leftSize (fun heq => heq ▸ hoperands.leftHeld)
    (by decide) hinner).mono ?_
  intro _ code _ hcode platform m result hresult
  refine (hcode platform m result ?_).mono (Nat.le_refl _) ?_
  · have hleft : (m.registers.write .a (m.registers.read left)).read .a =
        m.registers.read left := Registers.read_copy .a left hoperands.leftSize _
    have hright : (m.registers.write .a (m.registers.read left)).read right =
        m.registers.read right := Registers.read_write_of_apart (Reg.a_apart_of_ne hne) _ _
    simpa only [hleft, hright] using hresult
  · intro s hs
    obtain ⟨hheld, hother⟩ := hs
    simp only [List.mem_cons, List.not_mem_nil, or_false, not_or] at hother
    refine ⟨hoperands.conflictFree left s hoperands.leftHeld hheld (Ne.symm hother.1), ?_⟩
    by_cases ha : s = .a
    · exact Or.inl ⟨ha, ha ▸ hheld⟩
    · refine Or.inr ⟨ha, by simp [hheld], ?_⟩
      simp [ha, hother.2]

/-- An operation on two bytes, wherever they are. -/
theorem accumulate_computes (h : Calculates f step) (hoperands : BothHeld state 1 left right) :
    Computes (accumulate left right step) state 2 (state.held.Besides [left, right]) left
      (fun registers => f (registers.read left) (registers.read right)) := by
  unfold Computes
  simp only [accumulate, ensures_bind, ensures_ite, ensures_allocate, ensures_emit, ensures_free,
    ensures_pure]
  constructor
  · intro hplaces
    obtain ⟨rfl, hleft⟩ := hplaces
    intro moved hmoved
    have hfree := (RegSet.firstFree_eq_some hmoved).1
    have hmovedSize := RegSet.size_of_firstFree_le_one (Nat.le_refl 1) hmoved
    have hne : ∀ s, state.held.contains s = true → s ≠ moved := by
      intro s hs heq
      rw [heq, RegSet.not_contains_of_isFree hfree] at hs
      cases hs
    have hoperands' : BothHeld { state with held := (state.held.insert moved).erase .a } 1
        left moved := by
      refine ⟨(hoperands.conflictFree.insert hfree).erase .a, ?_, ?_, hne left hoperands.leftHeld,
        hoperands.leftSize, hmovedSize⟩
      · simp [hleft, hoperands.leftHeld]
      · simp [Ne.symm (hne .a hoperands.rightHeld)]
    refine (throughAccumulator_calculates h hoperands' (Ne.symm (hne .a hoperands.rightHeld))).mono ?_
    intro _ code _ hcode platform m result hresult
    have hcopy : Quiet platform 2 [.instr (.copy moved .a)] (state.held.Besides [left, .a]) m
        (m.write moved (m.read .a)) := by
      apply (Quiet.copy platform 2 m moved .a).mono (Nat.le_refl _)
      intro s hs
      exact RegSet.apartFrom_of_isFree hfree hs.1
    have hread : (m.registers.write moved (m.registers.read .a)).read moved =
        m.registers.read .a := Registers.read_copy moved .a hmovedSize.symm _
    have hleft' : (m.registers.write moved (m.registers.read .a)).read left =
        m.registers.read left := by
      apply Registers.read_write_of_apart
      exact RegSet.isFree_iff.mp hfree left hoperands.leftHeld
    have hrest := hcode platform (m.write moved (m.read .a)) result (by
      show f ((m.registers.write moved (m.registers.read .a)).read left)
        ((m.registers.write moved (m.registers.read .a)).read moved) = some result
      rw [hread, hleft']
      exact hresult)
    rw [List.append_nil, List.append_nil]
    apply Delivers.after hcopy
    apply hrest.mono (Nat.le_refl _)
    intro s hs
    obtain ⟨hheld, hother⟩ := hs
    simp only [List.mem_cons, List.not_mem_nil, or_false, not_or] at hother
    refine ⟨by simp [hheld, hother.2], ?_⟩
    simp [hother.1, hne s hheld]
  · intro hplaces
    have hne : right ≠ .a := by
      rintro rfl
      exact hplaces ⟨rfl, hoperands.ne⟩
    refine (throughAccumulator_calculates h hoperands hne).mono ?_
    intro _ code _ hcode
    simpa using hcode

end Operating

/-! ## Operations on bytes -/

theorem emit_computes {op : AccumulatorOp} (hop : op ≠ .compare) (right : Reg)
    (state : LowerState) :
    Computes (emit (.accumulate op (.reg right))) state 0 (Reg.ApartFrom [.a]) .a
      (fun registers => some (cut 1 (op.apply (registers.read .a) (registers.read right)))) := by
  unfold Computes
  rw [ensures_emit]
  intro platform m result hresult
  have heffect : (Instr.accumulate op (.reg right)).effect platform m =
      some { m.write .a (op.apply (m.read .a) (m.read right)) with
        flags := platform.flags (.accumulate op (.reg right)) m } := by
    cases op <;> first | rfl | exact absurd rfl hop
  refine ⟨_, Quiet.write heffect rfl, ?_⟩
  rw [Option.some.injEq] at hresult
  exact (Registers.read_write_self _ .a _).trans hresult

/-- A single instruction on the accumulator. -/
theorem calculates_emit {op : AccumulatorOp} (hop : op ≠ .compare) :
    Calculates (fun left right => some (cut 1 (op.apply left right)))
      (fun right => emit (.accumulate op (.reg right))) := by
  intro right state _ _ hset ha hright
  refine (emit_computes hop right state).mono ?_
  intro _ code _ hcode platform m result hresult
  apply (hcode platform m result hresult).mono (Nat.zero_le 1)
  intro s hs
  have hapart := hset.apartFrom (by simp [ha, hright]) hs
  simp_all

/-- So many rounds of adding a byte to nothing. -/
theorem iterate_add (byte : UInt16) (n : Nat) :
    (fun value => cut 1 (value + byte))^[n] 0 = cut 1 (.ofNat n * byte) := by
  induction n with
  | zero => simp
  | succ n ih =>
      have hmore : UInt16.ofNat (n + 1) * byte = .ofNat n * byte + byte := by
        rw [UInt16.ofNat_add]
        grind
      rw [Function.iterate_succ_apply', ih, cut_one_add, hmore]

/-- The product loop leaves the low byte of the product. -/
theorem calculates_multiplication (n : Nat) :
    Calculates (fun left right => some (cut 1 (left * right))) (multiplication n) := by
  intro right state hsize hne hset ha hright
  unfold Computes
  simp only [multiplication, ensures_bind, ensures_allocate, ensures_emit, ensures_mark,
    ensures_free, List.cons_append, List.nil_append]
  intro multiplicand hmultiplicand platform m result hresult
  have hfree := RegSet.isFree_iff.mp (RegSet.firstFree_eq_some hmultiplicand).1
  have hone := RegSet.size_of_firstFree_le_one (Nat.le_refl 1) hmultiplicand
  have hkept : ∀ s, state.held.Besides [.a, right] s →
      Reg.ApartFrom [multiplicand, .a, right] s := by
    intro s hs
    have hapart := hset.apartFrom (by simp [ha, hright]) hs
    simp only [Reg.apartFrom_cons] at hapart ⊢
    exact ⟨hfree s hs.1, hapart⟩
  let copied := m.write multiplicand (m.read .a)
  have hcopied : Quiet platform 0 [.instr (.copy multiplicand .a)] (Reg.ApartFrom [multiplicand])
      m copied := .copy platform 0 m multiplicand .a
  let cleared := copied.write .a 0
  have hcleared : Quiet platform 0 [.instr (.setNumber .a 0)] (Reg.ApartFrom [.a]) copied cleared :=
    .setNumber platform 0 copied .a 0
  have hfactor : cleared.read multiplicand = m.read .a := by
    have hapart : Reg.a.overlaps multiplicand = false := by
      rw [Reg.overlaps_comm]
      exact hfree .a ha
    rw [hcleared.keeps.registers multiplicand (by simpa using hapart)]
    exact Registers.read_copy multiplicand .a hone.symm _
  have hcount : cleared.read right = m.read right := by
    rw [hcleared.keeps.registers right (by simpa using Reg.a_apart_of_ne hne)]
    exact hcopied.keeps.registers right (by simpa using hfree right hright)
  have hzero : cleared.read .a = 0 := Registers.read_write_self _ .a _
  have hbody : ∀ here : Machine, (∀ r, Reg.ApartFrom [.a, right] r → here.read r = cleared.read r) →
      ∃ flags, (Instr.accumulate .add (.reg multiplicand)).effect platform here =
        some { here.write .a (here.read .a + m.read .a) with flags } := by
    intro here hhere
    have hsame : here.read multiplicand = m.read .a := by
      rw [hhere multiplicand, hfactor]
      have ha' := Reg.overlaps_comm .a multiplicand ▸ hfree .a ha
      have hright' := Reg.overlaps_comm right multiplicand ▸ hfree right hright
      simp [ha', hright']
    refine ⟨platform.flags (.accumulate .add (.reg multiplicand)) here, ?_⟩
    rw [← hsame]
    rfl
  obtain ⟨after, hloop, hread⟩ := countedLoop_quiet (.inner .multiply .repetition n)
    (.inner .multiply .exit n) (· + m.read .a) hsize (Reg.a_apart_of_ne hne) rfl hbody
  refine ⟨after, ?_, ?_⟩
  · have hcopied' := hcopied.mono (Nat.zero_le 1) fun s hs => by
      have := hkept s hs
      simp_all
    have hcleared' := hcleared.mono (Nat.zero_le 1) fun s hs => by
      have := hkept s hs
      simp_all
    have hloop' := hloop.mono (Nat.zero_le 1) fun s hs => by
      have := hkept s hs
      simp_all
    exact hcopied'.append (hcleared'.append hloop')
  · rw [hread, hzero, hcount, iterate_add, UInt16.ofNat_toNat, UInt16.mul_comm]
    exact Option.some.inj hresult

/-- The division loop leaves the quotient, and has none for a division by zero. -/
theorem calculates_division (n : Nat) :
    Calculates (fun left right => if right = 0 then none else some (left / right)) (division n) := by
  intro right state hsize hne hset ha hright
  unfold Computes
  simp only [division, ensures_bind, ensures_allocate, ensures_emit, ensures_mark, ensures_free,
    List.cons_append, List.nil_append]
  intro quotient hquotient platform m result hresult
  have hfree := RegSet.isFree_iff.mp (RegSet.firstFree_eq_some hquotient).1
  have hone := RegSet.size_of_firstFree_le_one (Nat.le_refl 1) hquotient
  have hquotientA : Reg.a.overlaps quotient = false := Reg.overlaps_comm .a quotient ▸ hfree .a ha
  have hkept : ∀ s, state.held.Besides [.a, right] s → Reg.ApartFrom [quotient, .a] s := by
    intro s hs
    have hapart := hset.apartFrom (by simp [ha, hright]) hs
    simp only [Reg.apartFrom_cons] at hapart ⊢
    exact ⟨hfree s hs.1, hapart.1, Reg.apartFrom_nil s⟩
  let cleared := m.write quotient 0
  have hcleared : Quiet platform 0 [.instr (.setNumber quotient 0)] (Reg.ApartFrom [quotient])
      m cleared := .setNumber platform 0 m quotient 0
  have hleft : cleared.read .a = m.read .a :=
    hcleared.keeps.registers .a (by simpa using hfree .a ha)
  have hdivisor : cleared.read right = m.read right :=
    hcleared.keeps.registers right (by simpa using hfree right hright)
  have hstart : cleared.read quotient = 0 := by
    have hself : cleared.read quotient = cut quotient.size 0 := Registers.read_write_self _ _ _
    rw [hself, hone]
    rfl
  have hzero : m.read right ≠ 0 := by
    intro hzero
    have hnone : m.registers.read right = 0 := hzero
    simp [hnone] at hresult
  obtain ⟨after, hloop, hread⟩ := takingLoop_quiet (.inner .divide .repetition n)
    (.inner .divide .step n) (.inner .divide .exit n)
    (by simpa using ⟨Reg.a_apart_of_ne hne, hfree right hright⟩) hone hquotientA
    (by rwa [hdivisor]) hstart
  have hlast : Delivers platform 1 (takingLoop (.inner .divide .repetition n)
      (.inner .divide .step n) (.inner .divide .exit n) right quotient ++
        [.instr (.copy .a quotient)]) (state.held.Besides [.a, right]) cleared .a
      (m.read .a / m.read right) := by
    apply Delivers.copy
    · refine ⟨after, hloop.mono (Nat.zero_le 1) fun s hs => ?_, ?_⟩
      · have := hkept s hs
        simp_all
      · rw [hread, hleft, hdivisor]
    · exact hone
    · intro s hs
      have := hkept s hs
      simp_all
  have hresult' : m.read .a / m.read right = result := by
    have hne' : m.registers.read right ≠ 0 := hzero
    simp only [if_neg hne', Option.some.injEq] at hresult
    exact hresult
  have hcleared' := hcleared.mono (Nat.zero_le 1) fun s hs => by
    have := hkept s hs
    simp_all
  rw [← hresult']
  exact Delivers.after hcleared' hlast

/-- So many rounds of rotating a byte. -/
theorem iterate_rotated (byte : UInt8) (n : Nat) :
    (fun value => cut 1 (rotated value.toUInt8).toUInt16)^[n] byte.toUInt16 =
      (rotateLeft n byte).toUInt16 := by
  induction n generalizing byte with
  | zero => rfl
  | succ n ih =>
      rw [Function.iterate_succ_apply, cut_byte, UInt8.toUInt8_toUInt16, ih]
      rfl

/-- How often a shift rotates, as the accumulator finds it. -/
def shiftCount (right : Bool) (count : UInt16) : UInt16 :=
  (if right then cut 1 (8 - count) else count) &&& 7

theorem toNat_and_seven (value : UInt16) : (value &&& 7).toNat = value.toNat % 8 := by
  rw [UInt16.toNat_and]
  exact Nat.and_two_pow_sub_one_eq_mod value.toNat 3

theorem toNat_shiftCount (right : Bool) {count : UInt16} (h : count.toNat < 256) :
    (shiftCount right count).toNat =
      ((if right then 8 - count.toUInt8 else count.toUInt8) % 8).toNat := by
  unfold shiftCount
  rw [toNat_and_seven]
  cases right with
  | false => simp [Nat.mod_eq_of_lt h]
  | true =>
      simp only [if_true, toNat_cut_one, UInt8.toNat_mod, UInt8.toNat_sub, UInt16.toNat_sub,
        UInt16.toNat_toUInt8]
      simp
      omega

/-- The part of a shift that finds how often to rotate. -/
def countLines (right : Bool) (count : Reg) : List Line :=
  (if right then [.instr (.setNumber .a 8), .instr (.accumulate .sub (.reg count))]
    else [.instr (.copy .a count)]) ++
  [.instr (.accumulate .and (.lowBits 3)), .instr (.copy count .a)]

/-- The lines in front of the loop take the count modulo the bits of a byte, and turn it around
for a shift to the right. -/
theorem countLines_delivers (platform : Platform) (m : Machine) (right : Bool) {count : Reg}
    (hsize : count.size = 1) (hne : count ≠ .a) :
    Delivers platform 0 (countLines right count) (Reg.ApartFrom [.a, count]) m count
      (shiftCount right (m.read count)) := by
  have hstart : ∃ middle, Quiet platform 0
      (if right then [.instr (.setNumber .a 8), .instr (.accumulate .sub (.reg count))]
        else [.instr (.copy .a count)]) (Reg.ApartFrom [.a]) m middle ∧
      middle.read .a = if right then cut 1 (8 - m.read count) else m.read count := by
    cases right with
    | false =>
        exact ⟨_, Quiet.copy platform 0 m .a count, Registers.read_copy .a count hsize _⟩
    | true =>
        let eight := m.write .a 8
        have height : Quiet platform 0 [.instr (.setNumber .a 8)] (Reg.ApartFrom [.a]) m eight :=
          .setNumber platform 0 m .a 8
        have hcount : eight.read count = m.read count :=
          height.keeps.registers count (by simpa using Reg.a_apart_of_ne hne)
        have heffect : (Instr.accumulate .sub (.reg count)).effect platform eight =
            some { eight.write .a (8 - m.read count) with
              flags := platform.flags (.accumulate .sub (.reg count)) eight } := by
          rw [← hcount]
          rfl
        exact ⟨_, height.append (Quiet.write heffect rfl), Registers.read_write_self _ .a _⟩
  obtain ⟨middle, hmiddle, hread⟩ := hstart
  have heffect : (Instr.accumulate .and (.lowBits 3)).effect platform middle =
      some { middle.write .a (middle.read .a &&& 7) with
        flags := platform.flags (.accumulate .and (.lowBits 3)) middle } := rfl
  have hmasked : Delivers platform 0 [.instr (.accumulate .and (.lowBits 3))]
      (Reg.ApartFrom [.a, count]) middle .a (shiftCount right (m.read count)) := by
    refine ⟨_, (Quiet.write heffect rfl).mono (Nat.le_refl _) fun s hs => ?_, ?_⟩
    · simp_all
    · have hself : (middle.write .a (middle.read .a &&& 7)).read .a =
          cut 1 (middle.read .a &&& 7) := Registers.read_write_self _ .a _
      have hsmall : cut 1 (middle.read .a &&& 7) = middle.read .a &&& 7 := by
        apply UInt16.toNat_inj.mp
        rw [toNat_cut_one, toNat_and_seven]
        omega
      exact (hself.trans hsmall).trans (by rw [hread]; rfl)
  have hkept : ∀ s, Reg.ApartFrom [.a, count] s → Reg.ApartFrom [.a] s := by
    intro s hs
    simp_all
  apply Delivers.after (hmiddle.mono (Nat.le_refl 0) hkept)
  apply hmasked.copy
  · exact hsize.symm
  · intro s hs
    simp_all

/-- The shift loop leaves the byte shifted. -/
theorem calculates_shifting (right : Bool) (n : Nat) :
    Calculates (fun value count => some (shiftByte right value.toUInt8 count.toUInt8).toUInt16)
      (shifting right n) := by
  intro count state hsize hne hset ha hcount
  have hcode : Ensures (shifting right n count) state fun _ code _ =>
      code = (.instr (.push .a) :: (countLines right count ++ [.instr (.pop .a)])) ++
        countedLoop (.inner (shiftFamily right) .repetition n)
          (.inner (shiftFamily right) .exit n) count .rotate := by
    cases right <;> simp [shifting, countLines, countedLoop]
  refine hcode.mono ?_
  rintro _ _ _ rfl platform m result hresult
  have hkept : ∀ s, state.held.Besides [.a, count] s → Reg.ApartFrom [.a, count] s :=
    fun s hs => hset.apartFrom (by simp [ha, hcount]) hs
  obtain ⟨counted, hquiet, hread⟩ := Delivers.preserving hne (by decide)
    (countLines_delivers platform (m.pushByte (m.read .a).toUInt8) right hsize hne)
  have hbody : ∀ here : Machine, (∀ r, Reg.ApartFrom [.a, count] r → here.read r = counted.read r) →
      ∃ flags, Instr.rotate.effect platform here =
        some { here.write .a (rotated (here.read .a).toUInt8).toUInt16 with flags } := by
    intro here _
    exact ⟨_, rfl⟩
  obtain ⟨after, hloop, hafter⟩ := countedLoop_quiet (.inner (shiftFamily right) .repetition n)
    (.inner (shiftFamily right) .exit n) (fun value => (rotated value.toUInt8).toUInt16) hsize
    (Reg.a_apart_of_ne hne) rfl hbody
  refine ⟨after, ?_, ?_⟩
  · have hquiet' := hquiet.mono (Nat.le_refl 1) fun s hs => Or.inr (hkept s hs)
    exact hquiet'.append (hloop.mono (Nat.zero_le 1) hkept)
  · have hleft : counted.read .a = (m.read .a).toUInt8.toUInt16 := by
      rw [hquiet.keeps.registers .a (Or.inl rfl)]
      simp [Machine.read, Registers.read]
    have hbyte : (m.read count).toNat < 256 := Registers.toNat_read_lt hsize _
    have hcounted : counted.read count = shiftCount right (m.read count) := hread
    rw [hafter, hcounted, hleft, iterate_rotated, toNat_shiftCount right hbyte]
    exact Option.some.inj hresult

end Lowering

end AccumulatorC
