import AccumulatorC.Proofs.Lowering.OperationValues

/-!
# The values of operators

Comparisons leave one or nothing, operators on pairs work on both halves, and every operator
leaves what constants are folded to, cut to the size of its operands.
-/

namespace AccumulatorC

/-! ## Comparisons -/

/-- What a comparison decides from the flags: where the two jumps lead, and that it holds when
neither is taken. -/
def Lowering.Comparison.decided (comparison : Comparison) (flags : Flags) : Bool :=
  if flags.meets comparison.first.1 then comparison.first.2 = .yes
  else if flags.meets comparison.second.1 then comparison.second.2 = .yes
  else true

/-- The flags after two numbers have been compared. -/
def Flags.comparing (left right : UInt16) : Flags := ⟨left == right, right < left⟩

namespace Lowering

/-- A comparison is decided as it is folded. -/
theorem fold_of_comparison? {op : BinaryOp} {comparison : Comparison}
    (h : comparison? op = some comparison) (size : Nat) (left right : UInt16) :
    op.fold size left right = some (truth (comparison.decided (.comparing left right))) := by
  have hle : left ≤ right ↔ ¬ right < left := UInt16.not_lt.symm
  have hge : right ≤ left ↔ right < left ∨ left = right := by
    rw [UInt16.le_iff_lt_or_eq, eq_comm]
  have hlt : left < right ↔ ¬ right < left ∧ left ≠ right := by
    rw [UInt16.lt_iff_le_and_ne, hle]
  cases op <;> cases h <;>
    simp only [BinaryOp.fold, Comparison.decided, Flags.comparing, Flags.meets, hle, hge, hlt] <;>
    by_cases heq : left = right <;> by_cases hgreater : right < left <;> simp [heq, hgreater]

/-- The choice between one and zero after a comparison. -/
def decisionLines (comparison : Comparison) (n : Nat) : List Line :=
  [.instr (.jump comparison.first.1 (.inner comparison.family comparison.first.2 n)),
    .instr (.jump comparison.second.1 (.inner comparison.family comparison.second.2 n)),
    .label (.inner comparison.family .yes n), .instr (.setNumber .a 1),
    .instr (.jump .always (.inner comparison.family .exit n)),
    .label (.inner comparison.family .no n), .instr (.setNumber .a 0),
    .label (.inner comparison.family .exit n)]

theorem decideTruth_ensures (comparison : Comparison) (n : Nat) (state : LowerState) :
    Ensures (decideTruth comparison n) state fun _ code _ =>
      code = decisionLines comparison n := by
  simp [decideTruth, decisionLines]

/-- A comparison has places to jump to for both answers only. -/
theorem roles_of_comparison? {op : BinaryOp} {comparison : Comparison}
    (h : comparison? op = some comparison) :
    (comparison.first.2 = .yes ∨ comparison.first.2 = .no) ∧
      (comparison.second.2 = .yes ∨ comparison.second.2 = .no) := by
  cases op <;> cases h <;> decide

/-- The jumps of a comparison leave its truth value in the accumulator. -/
theorem decisionLines_quiet {op : BinaryOp} {comparison : Comparison}
    (h : comparison? op = some comparison) (platform : Platform) (m : Machine) (n : Nat) :
    ∃ after, Quiet platform 0 (decisionLines comparison n) (Reg.ApartFrom [.a]) m after ∧
      after.read .a = truth (comparison.decided m.flags) := by
  obtain ⟨hfirst, hsecond⟩ := roles_of_comparison? h
  let after := m.write .a (truth (comparison.decided m.flags))
  have hkeeps : Machine.Keeps 0 (Reg.ApartFrom [.a]) m after := .write 0 m .a _ m.flags
  refine ⟨after, ⟨?_, rfl, hkeeps⟩, ?_⟩
  · intro before rest hnodup
    have hsplit : ∀ k, before ++ (decisionLines comparison n ++ rest) =
        (before ++ (decisionLines comparison n).take k) ++
          ((decisionLines comparison n).drop k ++ rest) := by
      intro k
      rw [List.append_assoc, ← List.append_assoc (List.take k _), List.take_append_drop]
    generalize hprogram : before ++ (decisionLines comparison n ++ rest) = program at hnodup hsplit ⊢
    have hexit : afterLabel program (.inner comparison.family .exit n) = some rest := by
      rw [hsplit 7] at hnodup ⊢
      exact afterLabel_eq hnodup
    -- From each of the two labels the machine goes on to the end with its number.
    have hone : platform.Reaches program ((decisionLines comparison n).drop 3 ++ rest, m)
        (rest, m.write .a 1) :=
      .effect rfl (.step (Platform.step_taken rfl hexit) (.refl _))
    have hzero : platform.Reaches program ((decisionLines comparison n).drop 6 ++ rest, m)
        (rest, m.write .a 0) :=
      .effect rfl (.label (.refl _))
    have hyes : afterLabel program (.inner comparison.family .yes n) =
        some ((decisionLines comparison n).drop 3 ++ rest) := by
      rw [hsplit 2] at hnodup ⊢
      exact afterLabel_eq hnodup
    have hno : afterLabel program (.inner comparison.family .no n) =
        some ((decisionLines comparison n).drop 6 ++ rest) := by
      rw [hsplit 5] at hnodup ⊢
      exact afterLabel_eq hnodup
    have hjump : ∀ (condition : Condition) (role : Role) (following : List Line),
        role = .yes ∨ role = .no → m.flags.meets condition = true →
        platform.Reaches program
          (.instr (.jump condition (.inner comparison.family role n)) :: following, m)
          (rest, m.write .a (truth (role = .yes))) := by
      intro condition role following hrole hmeets
      rcases hrole with rfl | rfl
      · exact .step (Platform.step_taken hmeets hyes) hone
      · exact .step (Platform.step_taken hmeets hno) hzero
    show platform.Reaches program _ (rest, m.write .a (truth (comparison.decided m.flags)))
    unfold Comparison.decided
    by_cases hmeets : m.flags.meets comparison.first.1 = true
    · rw [if_pos hmeets]
      exact hjump _ _ _ hfirst hmeets
    · rw [if_neg hmeets]
      apply Platform.Reaches.step (Platform.step_passed (by simpa using hmeets))
      by_cases hmeets' : m.flags.meets comparison.second.1 = true
      · rw [if_pos hmeets']
        exact hjump _ _ _ hsecond hmeets'
      · rw [if_neg hmeets']
        apply Platform.Reaches.step (Platform.step_passed (by simpa using hmeets'))
        exact .label hone
  · have hself : after.read .a = cut 1 (truth (comparison.decided m.flags)) :=
      Registers.read_write_self _ .a _
    rw [hself]
    cases comparison.decided m.flags <;> rfl

theorem calculates_comparing {op : BinaryOp} {comparison : Comparison}
    (h : comparison? op = some comparison) (n : Nat) :
    Calculates (op.fold 1) (comparing comparison n) := by
  intro right state _ hne hset ha hright
  unfold Computes comparing
  rw [ensures_bind, ensures_emit]
  refine (decideTruth_ensures comparison n state).mono ?_
  rintro _ _ _ rfl platform m result hresult
  let compared : Machine := { m with flags := .comparing (m.read .a) (m.read right) }
  have hcompared : Quiet platform 1 [.instr (.accumulate .compare (.reg right))]
      (state.held.Besides [.a, right]) m compared :=
    ⟨.effect rfl, rfl, rfl, rfl, fun _ _ => rfl, fun _ _ => rfl⟩
  obtain ⟨after, hquiet, hread⟩ := decisionLines_quiet h platform compared n
  apply Delivers.after hcompared
  refine ⟨after, hquiet.mono (Nat.zero_le 1) fun s hs => ?_, ?_⟩
  · have := hset.apartFrom (by simp [ha, hright]) hs
    simp_all
  · simp only [fold_of_comparison? h] at hresult
    rw [hread]
    exact Option.some.inj hresult

/-- Two pairs compare like their high halves when these differ, and like their low halves
otherwise. -/
theorem comparing_pairs {left right : Reg} (hleft : left.size = 2) (hright : right.size = 2)
    (registers : Registers) :
    Flags.comparing (registers.read left) (registers.read right) =
      if registers.read left.high = registers.read right.high then
        .comparing (registers.read left.low) (registers.read right.low)
      else .comparing (registers.read left.high) (registers.read right.high) := by
  have hl := Registers.toNat_read_pair hleft registers
  have hr := Registers.toNat_read_pair hright registers
  have hlow := Registers.toNat_read_lt (Reg.size_low left) registers
  have hlow' := Registers.toNat_read_lt (Reg.size_low right) registers
  split
  next heq =>
    rw [heq] at hl
    simp only [Flags.comparing, Flags.mk.injEq, beq_eq_beq, decide_eq_decide,
      UInt16.lt_iff_toNat_lt, ← UInt16.toNat_inj]
    omega
  next hne =>
    rw [← UInt16.toNat_inj] at hne
    simp only [Flags.comparing, Flags.mk.injEq, beq_eq_beq, decide_eq_decide,
      UInt16.lt_iff_toNat_lt, ← UInt16.toNat_inj]
    omega

/-- The part of a comparison of pairs that decides which halves are compared. -/
def halvesLines (decision : Label) (left right : Reg) : List Line :=
  [.instr (.copy .a left.high), .instr (.accumulate .compare (.reg right.high)),
    .instr (.jump .notEqual decision), .instr (.copy .a left.low),
    .instr (.accumulate .compare (.reg right.low)), .label decision]

/-- Pairs are compared by their high bytes, and by their low ones where those are equal. -/
theorem halvesLines_quiet {left right : Reg} (hleft : left.size = 2) (hright : right.size = 2)
    (platform : Platform) (m : Machine) (decision : Label) :
    ∃ compared, Quiet platform 0 (halvesLines decision left right) (Reg.ApartFrom [.a])
        m compared ∧
      compared.flags = .comparing (m.read left) (m.read right) := by
  have hnotA : ∀ {r : Reg}, r.size = 2 →
      Reg.a.overlaps r.high = false ∧ Reg.a.overlaps r.low = false := fun hr =>
    ⟨Reg.a_apart_of_ne (Reg.halves_ne_a hr).1, Reg.a_apart_of_ne (Reg.halves_ne_a hr).2⟩
  have hcopied : ∀ (here : Machine) (r : Reg), r.size = 1 →
      (here.write .a (here.read r)).read .a = here.read r :=
    fun here r hr => Registers.read_copy .a r hr here.registers
  let high := m.write .a (m.read left.high)
  have hhigh : Quiet platform 0 [.instr (.copy .a left.high)] (Reg.ApartFrom [.a]) m high :=
    .copy platform 0 m .a left.high
  have hsame : ∀ {r : Reg}, Reg.a.overlaps r = false → high.read r = m.read r := fun hr =>
    hhigh.keeps.registers _ (by simpa using hr)
  let first : Machine := { high with flags := .comparing (high.read .a) (high.read right.high) }
  let low := first.write .a (first.read left.low)
  let second : Machine := { low with flags := .comparing (low.read .a) (low.read right.low) }
  have hlow : Machine.Keeps 0 (Reg.ApartFrom [.a]) first low := .write 0 first .a _ first.flags
  have hfirstFlags : first.flags = .comparing (m.read left.high) (m.read right.high) := by
    show Flags.comparing (high.read .a) (high.read right.high) = _
    rw [hcopied m _ (Reg.size_high left), hsame (hnotA hright).1]
  have hsecondFlags : second.flags = .comparing (m.read left.low) (m.read right.low) := by
    have hright' : low.read right.low = first.read right.low :=
      hlow.registers _ (by simpa using (hnotA hright).2)
    show Flags.comparing (low.read .a) (low.read right.low) = _
    rw [hcopied first _ (Reg.size_low left), hright']
    show Flags.comparing (high.read left.low) (high.read right.low) = _
    rw [hsame (hnotA hleft).2, hsame (hnotA hright).2]
  have hpairs := comparing_pairs hleft hright m.registers
  by_cases heq : m.read left.high = m.read right.high
  · refine ⟨second, ⟨?_, rfl, ?_⟩, ?_⟩
    · intro before rest _
      apply Platform.Reaches.effect rfl
      apply Platform.Reaches.effect rfl
      apply Platform.Reaches.step (Platform.step_passed ?_)
      · apply Platform.Reaches.effect rfl
        apply Platform.Reaches.effect rfl
        exact .label (.refl _)
      · show first.flags.meets .notEqual = false
        rw [hfirstFlags]
        simp [Flags.meets, Flags.comparing, heq]
    · have hcompared : Machine.Keeps 0 (Reg.ApartFrom [.a]) low second :=
        ⟨rfl, rfl, fun _ _ => rfl, fun _ _ => rfl⟩
      have hcompared' : Machine.Keeps 0 (Reg.ApartFrom [.a]) high first :=
        ⟨rfl, rfl, fun _ _ => rfl, fun _ _ => rfl⟩
      exact hhigh.keeps.trans (hcompared'.trans (hlow.trans hcompared))
    · rw [hsecondFlags]
      exact (hpairs.trans (if_pos heq)).symm
  · refine ⟨first, ⟨?_, rfl, ?_⟩, ?_⟩
    · intro before rest hnodup
      have hsplit : before ++ (halvesLines decision left right ++ rest) =
          (before ++ (halvesLines decision left right).take 5) ++ .label decision :: rest := by
        simp [halvesLines]
      have hdecision : afterLabel (before ++ (halvesLines decision left right ++ rest)) decision =
          some rest := by
        rw [hsplit] at hnodup ⊢
        exact afterLabel_eq hnodup
      apply Platform.Reaches.effect rfl
      apply Platform.Reaches.effect rfl
      apply Platform.Reaches.step (Platform.step_taken ?_ hdecision) (.refl _)
      show first.flags.meets .notEqual = true
      rw [hfirstFlags]
      simp [Flags.meets, Flags.comparing, heq]
    · have hcompared' : Machine.Keeps 0 (Reg.ApartFrom [.a]) high first :=
        ⟨rfl, rfl, fun _ _ => rfl, fun _ _ => rfl⟩
      exact hhigh.keeps.trans hcompared'
    · rw [hfirstFlags]
      exact (hpairs.trans (if_neg heq)).symm

/-- A truth value that was found in the accumulator is put into a pair. -/
theorem spreadTruth_quiet {left : Reg} (hleft : left.size = 2) (platform : Platform) (m : Machine)
    {holds : Bool} (hread : m.read .a = truth holds) :
    ∃ after, Quiet platform 0 [.instr (.copy left.low .a), .instr (.setNumber left.high 0)]
        (fun s => left.overlaps s = false) m after ∧ after.read left = truth holds := by
  let low := m.write left.low (m.read .a)
  have hlow : Quiet platform 0 [.instr (.copy left.low .a)] (Reg.ApartFrom [left.low]) m low :=
    .copy platform 0 m left.low .a
  have hhigh : Quiet platform 0 [.instr (.setNumber left.high 0)] (Reg.ApartFrom [left.high]) low
      (low.write left.high 0) := .setNumber platform 0 low left.high 0
  refine ⟨low.write left.high 0, ?_, ?_⟩
  · exact (hlow.mono (Nat.le_refl 0) fun s hs => by simpa using Reg.low_apart hs).append
      (hhigh.mono (Nat.le_refl 0) fun s hs => by simpa using Reg.high_apart hs)
  · have hzero : (low.write left.high 0).read left.high = 0 := by
      have hself : (low.write left.high 0).read left.high = cut left.high.size 0 :=
        Registers.read_write_self _ _ _
      rw [hself, Reg.size_high]
      rfl
    have hone : (low.write left.high 0).read left.low = truth holds := by
      rw [hhigh.keeps.registers left.low (by simpa using Reg.high_not_overlaps_low hleft), ← hread]
      exact Registers.read_copy left.low .a (Reg.size_low left).symm _
    have hpair := Registers.toNat_read_pair hleft (low.write left.high 0).registers
    apply UInt16.toNat_inj.mp
    simp only [Machine.read] at hzero hone ⊢
    rw [hpair, hzero, hone]
    simp

theorem comparingPairs_computes {op : BinaryOp} {comparison : Comparison}
    (h : comparison? op = some comparison) {left right : Reg} (hleft : left.size = 2)
    (hright : right.size = 2) (n : Nat) (state : LowerState) :
    Computes (comparingPairs comparison n left right) state 0
      (fun s => Reg.a.overlaps s = false ∧ left.overlaps s = false) left
      (fun registers => op.fold 2 (registers.read left) (registers.read right)) := by
  have hcode : Ensures (comparingPairs comparison n left right) state fun _ code _ =>
      code = halvesLines (.inner comparison.family .decision n) left right ++
        (decisionLines comparison n ++
          [.instr (.copy left.low .a), .instr (.setNumber left.high 0)]) := by
    simp [comparingPairs, decideTruth, halvesLines, decisionLines]
  refine hcode.mono ?_
  rintro _ _ _ rfl platform m result hresult
  simp only [fold_of_comparison? h, Option.some.injEq] at hresult
  obtain ⟨compared, hcompared, hflags⟩ := halvesLines_quiet hleft hright platform m
    (.inner comparison.family .decision n)
  obtain ⟨decided, hdecided, hread⟩ := decisionLines_quiet h platform compared n
  rw [hflags] at hread
  obtain ⟨after, hafter, hvalue⟩ := spreadTruth_quiet hleft platform decided hread
  have hkept : ∀ s, Reg.a.overlaps s = false ∧ left.overlaps s = false → Reg.ApartFrom [.a] s := by
    intro s hs
    simpa using hs.1
  refine ⟨after, ?_, hvalue.trans hresult⟩
  exact (hcompared.mono (Nat.le_refl 0) hkept).append
    ((hdecided.mono (Nat.le_refl 0) hkept).append
      (hafter.mono (Nat.le_refl 0) fun s hs => hs.2))

/-- A comparison of two values of one size. -/
theorem compare_computes {op : BinaryOp} {comparison : Comparison}
    (h : comparison? op = some comparison) {state : LowerState} {size : Nat} {left right : Reg}
    (hoperands : BothHeld state size left right) :
    Computes (compare comparison left right) state 2 (state.held.Besides [left, right]) left
      (fun registers => op.fold size (registers.read left) (registers.read right)) := by
  unfold Computes
  rw [compare_eq, ensures_bind, ensures_newLabel, ensures_ite]
  constructor
  · intro hone
    have hsize : size = 1 := hoperands.leftSize.symm.trans hone
    subst hsize
    have hoperands' : BothHeld { state with labels := state.labels.add comparison.family } 1
        left right := { hoperands with }
    refine (accumulate_computes (calculates_comparing h _) hoperands').mono ?_
    intro _ code _ hcode
    exact hcode
  · intro hnot
    have hsize : left.size = 2 := by
      rcases left.size_eq_one_or_two with hone | htwo
      · exact absurd hone hnot
      · exact htwo
    have hsame : size = 2 := hoperands.leftSize.symm.trans hsize
    subst hsame
    have hne : left ≠ .a := by
      rintro rfl
      cases hsize
    rw [ensures_bind]
    refine (preservingAccumulator_computes hne (by decide) fun inner _ =>
      comparingPairs_computes h hsize hoperands.rightSize _ inner).mono ?_
    intro _ code after hcode
    simp only [ensures_bind, ensures_free, ensures_pure, List.append_nil]
    intro platform m result hresult
    apply (hcode platform m result hresult).mono (by decide)
    intro s hs
    obtain ⟨hheld, hother⟩ := hs
    simp only [List.mem_cons, List.not_mem_nil, or_false, not_or] at hother
    by_cases ha : s = .a
    · exact Or.inl ⟨ha, ha ▸ hheld⟩
    · refine Or.inr ⟨Reg.a_apart_of_ne ha, ?_⟩
      exact hoperands.conflictFree left s hoperands.leftHeld hheld (Ne.symm hother.1)

/-! ## Pairs -/

theorem BothHeld.apart {state : LowerState} {size : Nat} {left right : Reg}
    (h : BothHeld state size left right) : left.overlaps right = false :=
  h.conflictFree left right h.leftHeld h.rightHeld h.ne

/-- A register in use that is none of the operands shares no byte with them. -/
theorem BothHeld.apart_of_besides {state : LowerState} {size : Nat} {left right s : Reg}
    (h : BothHeld state size left right) (hs : state.held.Besides [left, right] s) :
    left.overlaps s = false ∧ right.overlaps s = false := by
  have hapart := h.conflictFree.apartFrom (by simp [h.leftHeld, h.rightHeld]) hs
  simpa using hapart

theorem combine_computes (op : PairOp) {state : LowerState} {left right : Reg}
    (hoperands : BothHeld state 2 left right) :
    Computes (combine op left right) state 2 (state.held.Besides [left, right]) left
      (fun registers => some (op.apply (registers.read left) (registers.read right))) := by
  unfold Computes combine
  simp only [ensures_bind, ensures_emit, ensures_free, ensures_pure, List.append_nil]
  intro platform m result hresult
  have heffect : (Instr.combine op left right).effect platform m =
      some { m.write left (op.apply (m.read left) (m.read right)) with
        flags := platform.flags (.combine op left right) m } := rfl
  refine ⟨_, (Quiet.write heffect rfl).mono (Nat.le_refl 2) ?_, ?_⟩
  · intro s hs
    simpa using (hoperands.apart_of_besides hs).1
  · rw [Option.some.injEq] at hresult
    have hself := Registers.read_write_self m.registers left (op.apply (m.read left) (m.read right))
    rw [hoperands.leftSize, cut_two] at hself
    exact hself.trans hresult

/-- Operations that treat every bit by itself. -/
def Bitwise (op : AccumulatorOp) : Prop := op = .and ∨ op = .or

theorem Bitwise.ne_compare {op : AccumulatorOp} (h : Bitwise op) : op ≠ .compare := by
  rcases h with rfl | rfl <;> decide

/-- On pairs such an operation works on each half by itself. -/
theorem Bitwise.toNat_apply {op : AccumulatorOp} (h : Bitwise op) (left right : UInt16) :
    (op.apply left right).toNat / 256 =
        (op.apply (.ofNat (left.toNat / 256)) (.ofNat (right.toNat / 256))).toNat ∧
      (op.apply left right).toNat % 256 =
        (op.apply (.ofNat (left.toNat % 256)) (.ofNat (right.toNat % 256))).toNat := by
  have hleft := left.toNat_lt
  have hright := right.toNat_lt
  have hfit : ∀ n, n < 65536 → n % 2 ^ 16 = n := fun n hn => Nat.mod_eq_of_lt hn
  rcases h with rfl | rfl
  · simp only [AccumulatorOp.apply, UInt16.toNat_and, UInt16.toNat_ofNat']
    rw [hfit _ (by omega), hfit _ (by omega), hfit _ (by omega), hfit _ (by omega)]
    exact ⟨Nat.and_div_two_pow (n := 8), Nat.and_mod_two_pow (n := 8)⟩
  · simp only [AccumulatorOp.apply, UInt16.toNat_or, UInt16.toNat_ofNat']
    rw [hfit _ (by omega), hfit _ (by omega), hfit _ (by omega), hfit _ (by omega)]
    exact ⟨Nat.or_div_two_pow (n := 8), Nat.or_mod_two_pow (n := 8)⟩

theorem Bitwise.apply_read {op : AccumulatorOp} (h : Bitwise op) {left right : Reg}
    (hleft : left.size = 2) (hright : right.size = 2) (registers : Registers) :
    (op.apply (registers.read left) (registers.read right)).toNat / 256 =
        (op.apply (registers.read left.high) (registers.read right.high)).toNat ∧
      (op.apply (registers.read left) (registers.read right)).toNat % 256 =
        (op.apply (registers.read left.low) (registers.read right.low)).toNat := by
  have hhalves : ∀ {r : Reg}, r.size = 2 →
      UInt16.ofNat ((registers.read r).toNat / 256) = registers.read r.high ∧
      UInt16.ofNat ((registers.read r).toNat % 256) = registers.read r.low := by
    intro r hr
    have hpair := Registers.toNat_read_pair hr registers
    have hhigh := Registers.toNat_read_lt (Reg.size_high r) registers
    have hlow := Registers.toNat_read_lt (Reg.size_low r) registers
    have hdiv : (registers.read r).toNat / 256 = (registers.read r.high).toNat := by omega
    have hmod : (registers.read r).toNat % 256 = (registers.read r.low).toNat := by omega
    rw [hdiv, hmod, UInt16.ofNat_toNat, UInt16.ofNat_toNat]
    exact ⟨rfl, rfl⟩
  have happly := h.toNat_apply (registers.read left) (registers.read right)
  rw [(hhalves hleft).1, (hhalves hright).1, (hhalves hleft).2, (hhalves hright).2] at happly
  exact happly

/-- One half of such an operation, through the accumulator. -/
theorem throughHalf_computes {op : AccumulatorOp} (hop : Bitwise op) (state : LowerState)
    {half other : Reg} (hhalf : half.size = 1) (hne : half ≠ .a) (hother : other ≠ .a) :
    Computes (throughAccumulator half (emit (.accumulate op (.reg other)))) state 1
      (fun s => half.overlaps s = false ∧ (s = .a → state.held.contains .a = true)) half
      (fun registers => some (cut 1 (op.apply (registers.read half) (registers.read other)))) := by
  refine (throughAccumulator_computes hhalf (fun h => absurd h hne) (by decide) fun inner _ =>
    emit_computes hop.ne_compare other inner).mono ?_
  intro _ code _ hcode platform m result hresult
  refine (hcode platform m result ?_).mono (Nat.le_refl 1) ?_
  · have hleft : (m.registers.write .a (m.registers.read half)).read .a = m.registers.read half :=
      Registers.read_copy .a half hhalf _
    have hright : (m.registers.write .a (m.registers.read half)).read other =
        m.registers.read other := Registers.read_write_of_apart (Reg.a_apart_of_ne hother) _ _
    simpa only [hleft, hright] using hresult
  · intro s hs
    refine ⟨hs.1, ?_⟩
    by_cases ha : s = .a
    · exact Or.inl ⟨ha, hs.2 ha⟩
    · exact Or.inr ⟨ha, by simpa using Reg.a_apart_of_ne ha⟩

/-- A bitwise operator on pairs works on one half after the other. -/
theorem halfwise_computes {op : AccumulatorOp} (hop : Bitwise op) {state : LowerState}
    {left right : Reg} (hoperands : BothHeld state 2 left right) :
    Computes (halfwise op left right) state 2 (state.held.Besides [left, right]) left
      (fun registers => some (op.apply (registers.read left) (registers.read right))) := by
  have hleft := hoperands.leftSize
  have hright := hoperands.rightSize
  obtain ⟨hhighA, hlowA⟩ := Reg.halves_ne_a hleft
  obtain ⟨hhighA', hlowA'⟩ := Reg.halves_ne_a hright
  obtain ⟨⟨-, hlowHigh⟩, -⟩ := Reg.halves_apart hleft hright hoperands.apart
  unfold Computes halfwise
  simp only [ensures_bind, ensures_free, ensures_pure, List.append_nil]
  refine ((throughHalf_computes hop state (Reg.size_low left) hlowA hlowA').and
    ((Keeps.emit _).throughAccumulator left.low state)).mono ?_
  rintro _ lowCode middle ⟨hlowCode, hheld, -⟩
  refine (throughHalf_computes hop middle (Reg.size_high left) hhighA hhighA').mono ?_
  intro _ highCode _ hhighCode platform m result hresult
  obtain ⟨low, hlow, hlowRead⟩ := hlowCode platform m _ rfl
  obtain ⟨after, hafter, hhighRead⟩ := hhighCode platform low _ rfl
  have hsame : ∀ r : Reg, left.low.overlaps r = false → r ≠ .a → low.read r = m.read r := by
    intro r hr hne
    exact hlow.keeps.registers r ⟨hr, fun h => absurd h hne⟩
  have hhigh : low.read left.high = m.read left.high := by
    apply hsame _ _ hhighA
    rw [Reg.overlaps_comm]
    exact Reg.high_not_overlaps_low hleft
  have hhigh' : low.read right.high = m.read right.high := hsame _ hlowHigh hhighA'
  have hstill : after.read left.low = low.read left.low :=
    hafter.keeps.registers _ ⟨Reg.high_not_overlaps_low hleft, fun h => absurd h hlowA⟩
  refine ⟨after, (hlow.mono (by decide) ?_).append (hafter.mono (by decide) ?_), ?_⟩
  · intro s hs
    exact ⟨Reg.low_apart (hoperands.apart_of_besides hs).1, fun ha => ha ▸ hs.1⟩
  · intro s hs
    exact ⟨Reg.high_apart (hoperands.apart_of_besides hs).1, fun ha => hheld ▸ ha ▸ hs.1⟩
  · obtain ⟨hdiv, hmod⟩ := hop.apply_read hleft hright m.registers
    have hpair := Registers.toNat_read_pair hleft after.registers
    have hbound := (op.apply (m.registers.read left) (m.registers.read right)).toNat_lt
    have hhighValue : after.registers.read left.high =
        cut 1 (op.apply (m.registers.read left.high) (m.registers.read right.high)) := by
      have hread : after.read left.high = cut 1 (op.apply (low.read left.high)
          (low.read right.high)) := hhighRead
      rw [hhigh, hhigh'] at hread
      exact hread
    have hlowValue : after.registers.read left.low =
        cut 1 (op.apply (m.registers.read left.low) (m.registers.read right.low)) :=
      hstill.trans hlowRead
    rw [Option.some.injEq] at hresult
    rw [← hresult]
    apply UInt16.toNat_inj.mp
    show (after.registers.read left).toNat = _
    rw [hpair, hhighValue, hlowValue, toNat_cut_one, toNat_cut_one, ← hdiv, ← hmod]
    omega

/-! ## Every operator -/

/-- What is folded of a byte operator is a byte already, or is cut to one. -/
theorem operateBytes_computes {op : BinaryOp} (hop : comparison? op = none) {state : LowerState}
    {left right : Reg} (hoperands : BothHeld state 1 left right) :
    Computes (operateBytes op left right) state 2 (state.held.Besides [left, right]) left
      (fun registers => (op.fold 1 (registers.read left) (registers.read right)).map (cut 1)) := by
  have hnumbered : ∀ {family : Family} {step : Nat → Reg → Lowering Unit}
      {f : UInt16 → UInt16 → Option UInt16}, (∀ n, Calculates f (step n)) →
      Computes (newLabel family >>= fun n => accumulate left right (step n)) state 2
        (state.held.Besides [left, right]) left
        (fun registers => f (registers.read left) (registers.read right)) := by
    intro family step f h
    unfold Computes
    rw [ensures_bind, ensures_newLabel]
    have hoperands' : BothHeld { state with labels := state.labels.add family } 1 left right :=
      { hoperands with }
    exact (accumulate_computes (h _) hoperands').mono fun _ _ _ hcode => hcode
  have hshift : ∀ (right : Bool) (value count : UInt16),
      ((if right then BinaryOp.shiftRight else .shiftLeft).fold 1 value count).map (cut 1) =
        some (shiftByte right value.toUInt8 count.toUInt8).toUInt16 := by
    intro right value count
    cases right <;> simp [BinaryOp.fold]
  cases op <;> simp only [comparison?, reduceCtorEq] at hop <;> simp only [operateBytes]
  · exact accumulate_computes (calculates_emit (by decide)) hoperands
  · exact accumulate_computes (calculates_emit (by decide)) hoperands
  · exact hnumbered calculates_multiplication
  · -- A quotient is no larger than the byte that is divided.
    have hquotient : (fun registers : Registers =>
        (BinaryOp.div.fold 1 (registers.read left) (registers.read right)).map (cut 1)) =
        fun registers => if registers.read right = 0 then none
          else some (registers.read left / registers.read right) := by
      funext registers
      have hbyte := Registers.toNat_read_lt hoperands.leftSize registers
      have hle := Nat.div_le_self (registers.read left).toNat (registers.read right).toNat
      simp only [BinaryOp.fold]
      split
      · rfl
      · rw [Option.map_some, Option.some.injEq]
        apply UInt16.toNat_inj.mp
        rw [toNat_cut_one, UInt16.toNat_div]
        exact Nat.mod_eq_of_lt (by omega)
    rw [hquotient]
    exact hnumbered calculates_division
  · exact accumulate_computes (calculates_emit (by decide)) hoperands
  · exact accumulate_computes (calculates_emit (by decide)) hoperands
  · have hleft := funext fun registers : Registers =>
      hshift false (registers.read left) (registers.read right)
    exact hleft ▸ hnumbered (calculates_shifting false)
  · have hright := funext fun registers : Registers =>
      hshift true (registers.read left) (registers.read right)
    exact hright ▸ hnumbered (calculates_shifting true)

theorem operatePairs_computes {op : BinaryOp} (hop : comparison? op = none) {state : LowerState}
    {left right : Reg} (hoperands : BothHeld state 2 left right) :
    Computes (operatePairs op left right) state 2 (state.held.Besides [left, right]) left
      (fun registers => (op.fold 2 (registers.read left) (registers.read right)).map (cut 2)) := by
  cases op <;> simp only [comparison?, reduceCtorEq] at hop <;> simp only [operatePairs]
  · exact combine_computes .add hoperands
  · exact combine_computes .sub hoperands
  · exact ensures_fail
  · exact ensures_fail
  · exact halfwise_computes (Or.inl rfl) hoperands
  · exact halfwise_computes (Or.inr rfl) hoperands
  · exact ensures_fail
  · exact ensures_fail

/-- Every operator leaves in the left register what it makes of the two values. -/
theorem operate_computes (op : BinaryOp) {state : LowerState} {size : Nat} {left right : Reg}
    (hsize : size = 1 ∨ size = 2) (hoperands : BothHeld state size left right) :
    Computes (operate op size left right) state 2 (state.held.Besides [left, right]) left
      (fun registers =>
        (op.fold size (registers.read left) (registers.read right)).map (cut size)) := by
  unfold operate
  split
  next comparison hcomparison =>
    have hsame : (fun registers : Registers =>
        (op.fold size (registers.read left) (registers.read right)).map (cut size)) =
        fun registers => op.fold size (registers.read left) (registers.read right) := by
      funext registers
      rw [fold_of_comparison? hcomparison, Option.map_some]
      cases comparison.decided _ <;> rcases hsize with rfl | rfl <;> rfl
    rw [hsame]
    exact compare_computes hcomparison hoperands
  next hnone =>
    rcases hsize with rfl | rfl
    · exact operateBytes_computes hnone hoperands
    · exact operatePairs_computes hnone hoperands

end Lowering

end AccumulatorC
