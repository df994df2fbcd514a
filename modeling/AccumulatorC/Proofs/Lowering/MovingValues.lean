import AccumulatorC.Proofs.Breakdown
import AccumulatorC.Proofs.Lowering.OperatorValues

/-!
# Moving values

A value that is brought to another size keeps what fits it, one that is negated or stepped is
calculated with at its own size, and values of variables are loaded and stored byte by byte, the
low byte first.
-/

namespace AccumulatorC

namespace Lowering

section Sizes

variable {set : RegSet} {r : Reg} {state : LowerState}

/-- A number is put into the register that is taken for it. -/
theorem number_delivers {size : Nat} (hsize : size = 1 ∨ size = 2) (value : UInt16) :
    Ensures (do
      let r ← allocate size
      emit (.setNumber r value.toNat)
      return r) state fun r code _ => ∀ (platform : Platform) (m : Machine),
      Delivers platform 0 code (fun s => state.held.contains s = true) m r (cut size value) := by
  simp only [ensures_bind, ensures_emit, ensures_pure, ensures_allocate]
  intro r hr platform m
  obtain ⟨hfree, -⟩ := RegSet.firstFree_eq_some hr
  have hset : Quiet platform 0 [.instr (.setNumber r value.toNat)] (Reg.ApartFrom [r]) m
      (m.write r (.ofNat value.toNat)) := .setNumber platform 0 m r value.toNat
  refine ⟨_, hset.mono (Nat.le_refl 0) fun s hs => RegSet.apartFrom_of_isFree hfree hs, ?_⟩
  rw [Machine.read, Machine.write, Registers.read_write_self, RegSet.size_of_firstFree hsize hr,
    UInt16.ofNat_toNat]

/-- A value of another size keeps what fits it, and all other registers in use stay as they
are. -/
theorem coerce_delivers (h : Holds set r state) {size : Nat} (hsize : size = 1 ∨ size = 2) :
    Ensures (coerce r size) state fun r' code _ => ∀ (platform : Platform) (m : Machine),
      Delivers platform 0 code (fun s => set.contains s = true) m r' (cut size (m.read r)) := by
  have herase := h.erase
  have hapart : ∀ s, set.contains s = true → r.overlaps s = false :=
    RegSet.isFree_iff.mp h.isFree
  unfold coerce
  rw [ensures_ite]
  constructor
  · intro hwiden
    obtain ⟨hone, rfl⟩ := hwiden
    simp only [ensures_bind, ensures_free, ensures_allocate, herase, ensures_ite, ensures_emit,
      ensures_pure, List.nil_append, List.append_nil]
    intro wide hwide
    have hfree := RegSet.isFree_iff.mp (RegSet.firstFree_eq_some hwide).1
    have hwideSize := RegSet.size_of_firstFree_two hwide
    -- The high half is cleared last, since the byte may be in it.
    have hspread : ∀ (platform : Platform) (m low : Machine) (code : List Line),
        Quiet platform 0 code (fun s => set.contains s = true) m low →
        low.read wide.low = m.read r →
        Delivers platform 0 (code ++ [.instr (.setNumber wide.high 0)])
          (fun s => set.contains s = true) m wide (cut 2 (m.read r)) := by
      intro platform m low code hcode hlow
      have hhigh : Quiet platform 0 [.instr (.setNumber wide.high 0)] (Reg.ApartFrom [wide.high])
          low (low.write wide.high 0) := .setNumber platform 0 low wide.high 0
      refine ⟨_, hcode.append (hhigh.mono (Nat.le_refl 0) fun s hs => ?_), ?_⟩
      · simpa using Reg.high_apart (hfree s hs)
      · have hzero : (low.write wide.high 0).registers.read wide.high = 0 := by
          rw [Machine.write, Registers.read_write_self, Reg.size_high]
          rfl
        have hsame : (low.write wide.high 0).registers.read wide.low = m.read r :=
          (hhigh.keeps.registers wide.low
            (by simpa using Reg.high_not_overlaps_low hwideSize)).trans hlow
        have hpair := Registers.toNat_read_pair hwideSize (low.write wide.high 0).registers
        apply UInt16.toNat_inj.mp
        show ((low.write wide.high 0).registers.read wide).toNat = _
        rw [hpair, hzero, hsame, cut_two]
        simp
    constructor
    · intro _ platform m
      have hcopy : Quiet platform 0 [.instr (.copy wide.low r)] (Reg.ApartFrom [wide.low]) m
          (m.write wide.low (m.read r)) := .copy platform 0 m wide.low r
      apply hspread platform m (m.write wide.low (m.read r)) [.instr (.copy wide.low r)]
      · apply hcopy.mono (Nat.le_refl 0)
        intro s hs
        simpa using Reg.low_apart (hfree s hs)
      · exact Registers.read_copy wide.low r (hone.trans (Reg.size_low wide).symm) _
    · intro hsame platform m
      have heq : wide.low = r := by simpa using hsame
      exact hspread platform m m [] (.nil platform 0 _ m) (by rw [heq])
  · intro _
    rw [ensures_ite]
    constructor
    · intro hnarrow
      obtain ⟨-, rfl⟩ := hnarrow
      simp only [ensures_bind, ensures_free, ensures_claim, ensures_pure]
      refine ⟨fun _ platform m => ?_, fun _ platform m => ?_⟩ <;>
        exact ⟨m, .nil platform 0 _ m, Registers.read_low r m.registers⟩
    · intro hnarrow
      rw [ensures_pure]
      intro platform m
      refine ⟨m, .nil platform 0 _ m, (Registers.cut_read ?_ m.registers).symm⟩
      rcases r.size_eq_one_or_two with hr | hr <;> rcases hsize with rfl | rfl <;> simp_all

/-- A register is stepped one by one. -/
theorem stepBy_delivers {step : Reg → Instr} (change : UInt16 → UInt16) {r : Reg}
    (hstep : ∀ (platform : Platform) (m : Machine), ∃ flags,
      (step r).effect platform m = some { m.write r (change (m.read r)) with flags })
    (hrise : (step r).rise = 0)
    (hcut : ∀ value, cut r.size (change (cut r.size value)) = cut r.size (change value))
    (count : Nat) (state : LowerState) :
    Ensures (stepBy step r count) state fun _ code _ => ∀ (platform : Platform) (m : Machine),
      Delivers platform 0 code (Reg.ApartFrom [r]) m r (cut r.size (change^[count] (m.read r))) := by
  induction count generalizing state with
  | zero =>
      rw [stepBy, ensures_pure]
      intro platform m
      exact ⟨m, .nil platform 0 _ m, (Registers.cut_read rfl m.registers).symm⟩
  | succ count ih =>
      rw [stepBy, ensures_bind, ensures_emit]
      refine (ih state).mono ?_
      intro _ code _ hcode platform m
      obtain ⟨flags, heffect⟩ := hstep platform m
      have hfirst : Quiet platform 0 [.instr (step r)] (Reg.ApartFrom [r]) m
          { m.write r (change (m.read r)) with flags } := .write heffect hrise
      have hread : ({ m.write r (change (m.read r)) with flags } : Machine).read r =
          cut r.size (change (m.read r)) := Registers.read_write_self _ _ _
      have hrounds : ∀ (n : Nat) (value : UInt16),
          cut r.size (change^[n] (cut r.size value)) = cut r.size (change^[n] value) := by
        intro n
        induction n with
        | zero =>
            intro value
            exact cut_cut r.size value
        | succ n ihn =>
            intro value
            rw [Function.iterate_succ_apply, Function.iterate_succ_apply, ← ihn, hcut, ihn]
      have hrest := hcode platform { m.write r (change (m.read r)) with flags }
      rw [hread, hrounds, ← Function.iterate_succ_apply] at hrest
      exact Delivers.after hfirst hrest

theorem cut_add_one (size : Nat) (value : UInt16) :
    cut size (cut size value + 1) = cut size (value + 1) := by
  by_cases h : size = 2
  · simp [cut, h]
  · simp only [cut, if_neg h]
    exact cut_one_add value 1

theorem cut_sub_one (size : Nat) (value : UInt16) :
    cut size (cut size value - 1) = cut size (value - 1) := by
  by_cases h : size = 2
  · simp [cut, h]
  · simp only [cut, if_neg h]
    apply UInt16.toNat_inj.mp
    simp [UInt16.toNat_sub]

/-- So many increments add a number. -/
theorem increments_deliver (r : Reg) (count : Nat) (state : LowerState) :
    Ensures (stepBy .increment r count) state fun _ code _ => ∀ (platform : Platform) (m : Machine),
      Delivers platform 0 code (Reg.ApartFrom [r]) m r (cut r.size (m.read r + .ofNat count)) := by
  have hiterate : ∀ value : UInt16, (· + 1)^[count] value = value + .ofNat count := by
    intro value
    induction count with
    | zero => simp
    | succ count ih =>
        rw [Function.iterate_succ_apply', ih, UInt16.ofNat_add, UInt16.add_assoc]
        rfl
  refine (stepBy_delivers (· + 1) (fun platform m => ⟨platform.flags (.increment r) m, rfl⟩) rfl
    (cut_add_one r.size) count state).mono ?_
  intro _ code _ hcode platform m
  rw [← hiterate]
  exact hcode platform m

theorem decrements_deliver (r : Reg) (count : Nat) (state : LowerState) :
    Ensures (stepBy .decrement r count) state fun _ code _ => ∀ (platform : Platform) (m : Machine),
      Delivers platform 0 code (Reg.ApartFrom [r]) m r (cut r.size (m.read r - .ofNat count)) := by
  have hiterate : ∀ value : UInt16, (· - 1)^[count] value = value - .ofNat count := by
    intro value
    induction count with
    | zero => simp
    | succ count ih =>
        rw [Function.iterate_succ_apply', ih, UInt16.ofNat_add]
        grind
  refine (stepBy_delivers (· - 1) (fun platform m => ⟨_, rfl⟩) rfl (cut_sub_one r.size) count
    state).mono ?_
  intro _ code _ hcode platform m
  rw [← hiterate]
  exact hcode platform m

/-- Negation delivers the difference from zero, in a byte or in a pair. -/
theorem negate_delivers (h : Holds set r state) :
    Ensures (negate r) state fun r' code _ => ∀ (platform : Platform) (m : Machine),
      Delivers platform 2 code (fun s => set.contains s = true) m r'
        (cut r.size (0 - m.read r)) := by
  unfold negate
  simp only [ensures_bind, ensures_allocate, ensures_emit, List.nil_append]
  intro zero hzero
  have hsize := RegSet.size_of_firstFree r.size_eq_one_or_two hzero
  have hfree := (RegSet.firstFree_eq_some hzero).1
  have hne : zero ≠ r := by
    rintro rfl
    have := RegSet.not_contains_of_isFree hfree
    simp [h.contains] at this
  have hoperands : BothHeld { state with held := state.held.insert zero } r.size zero r := by
    refine ⟨h.held_conflictFree.insert hfree, by simp, ?_, hne, hsize, rfl⟩
    simp [h.contains]
  have hbesides : ∀ s, set.contains s = true →
      (state.held.insert zero).Besides [zero, r] s := by
    intro s hs
    have hheld : state.held.contains s = true := by simp [h.held, hs]
    refine ⟨by simp [hheld], ?_⟩
    simp only [List.mem_cons, List.not_mem_nil, or_false, not_or]
    constructor
    · rintro rfl
      rw [RegSet.not_contains_of_isFree hfree] at hheld
      cases hheld
    · rintro rfl
      rw [RegSet.not_contains_of_isFree h.isFree] at hs
      cases hs
  have hcleared : ∀ (platform : Platform) (m : Machine),
      Quiet platform 2 [.instr (.setNumber zero 0)] (fun s => set.contains s = true) m
        (m.write zero 0) ∧
      (m.write zero 0).read zero = 0 ∧ (m.write zero 0).read r = m.read r := by
    intro platform m
    have hset : Quiet platform 2 [.instr (.setNumber zero 0)] (Reg.ApartFrom [zero]) m
        (m.write zero 0) := .setNumber platform 2 m zero 0
    refine ⟨hset.mono (Nat.le_refl 2) fun s hs => ?_, ?_, ?_⟩
    · apply RegSet.apartFrom_of_isFree hfree
      simp [h.held, hs]
    · have hself : (m.write zero 0).read zero = cut zero.size 0 := Registers.read_write_self _ _ _
      rw [hself]
      unfold cut
      split <;> rfl
    · exact hset.keeps.registers r (RegSet.apartFrom_of_isFree hfree h.contains)
  -- Taking the value away from the zero in front of it.
  have hwhole : ∀ {step : Lowering Reg}, Ensures step { state with held := state.held.insert zero }
        (fun r' _ _ => r' = zero) →
      Computes step { state with held := state.held.insert zero } 2
        ((state.held.insert zero).Besides [zero, r]) zero (fun registers =>
          some (cut r.size (registers.read zero - registers.read r))) →
      Ensures step { state with held := state.held.insert zero } fun r' code _ =>
        ∀ (platform : Platform) (m : Machine),
          Delivers platform 2 ([.instr (.setNumber zero 0)] ++ code)
            (fun s => set.contains s = true) m r' (cut r.size (0 - m.read r)) := by
    intro step hresult hstep
    refine (hresult.and hstep).mono ?_
    intro r' code _ hboth platform m
    obtain ⟨hr', hcode⟩ := hboth
    obtain ⟨hquiet, hself, hother⟩ := hcleared platform m
    have hrest := hcode platform (m.write zero 0) _ rfl
    simp only [Machine.read] at hself hother
    rw [hself, hother] at hrest
    rw [hr']
    exact Delivers.after hquiet (hrest.mono (Nat.le_refl 2) hbesides)
  rw [ensures_ite]
  constructor
  · intro htwo
    apply hwhole
    · exact combine_replaces.mono fun _ _ _ hafter => hafter.1
    · rw [htwo] at hoperands ⊢
      exact combine_computes .sub hoperands
  · intro hnot
    have hone : r.size = 1 := r.size_eq_one_or_two.resolve_right hnot
    apply hwhole
    · refine (simple_replaces ?_).mono fun _ _ _ hafter => hafter.1
      simp [h.contains]
    · rw [hone] at hoperands ⊢
      exact accumulate_computes (calculates_emit (by decide)) hoperands

end Sizes

/-! ## Strings -/

/-- The bytes of a string are jumped over. -/
theorem stringData_quiet (inside : Bool) (bytes : List UInt8) (state : LowerState) :
    Ensures (stringData inside bytes) state fun label code after =>
      label = .string inside (state.labels.count .string) ∧ after.held = state.held ∧
        ∀ (platform : Platform) (m : Machine), Quiet platform 0 code (fun _ => True) m m := by
  simp only [stringData, ensures_bind, ensures_newLabel, ensures_emit, ensures_mark, ensures_line,
    ensures_pure, List.nil_append, List.append_nil, true_and]
  intro platform m
  have hover : Executes platform
      (.instr (.jump .always (.stringEnd inside (state.labels.count .string))) ::
        ([.label (.string inside (state.labels.count .string)), .data (.text bytes)] ++
          [.label (.stringEnd inside (state.labels.count .string))])) m m := .taken rfl _ _
  exact ⟨hover, rfl, .refl 0 _ m⟩

/-! ## Loading and storing -/

section Memory

variable {address : Address} {r : Reg} {state : LowerState}

/-- The register shares no byte with the pair through which an operand is found. -/
def ClearOf (address : Address) (r : Reg) : Prop :=
  ∀ pair, address = .indirect pair → pair.overlaps r = false

theorem ClearOf.halves (h : ClearOf address r) : ClearOf address r.low ∧ ClearOf address r.high := by
  constructor
  · intro pair hpair
    rw [Reg.overlaps_comm]
    exact Reg.low_apart (Reg.overlaps_comm r pair ▸ h pair hpair)
  · intro pair hpair
    rw [Reg.overlaps_comm]
    exact Reg.high_apart (Reg.overlaps_comm r pair ▸ h pair hpair)

/-- The operand of the second byte is found one byte further on. -/
theorem next_locates (hpair : ∀ pair, address = .indirect pair → pair.size = 2) :
    Ensures (stepPair address) state fun _ code middle =>
      Ensures (lift address.next) middle fun next code' _ => code' = [] ∧
        ∀ (platform : Platform) (m : Machine), ∃ stepped,
          Quiet platform 0 code (ClearOf address) m stepped ∧
          next.locate platform stepped = address.locate platform m + 1 := by
  have hone : ∀ (x : UInt16) (offset : Nat), x + .ofNat (offset + 1) = x + .ofNat offset + 1 := by
    intro x offset
    rw [UInt16.ofNat_add, UInt16.add_assoc]
    rfl
  cases address with
  | label name offset =>
      simp only [stepPair, ensures_pure, ensures_lift]
      intro next hnext
      simp only [Address.next, map_eq_ok, addBytes_eq_ok] at hnext
      obtain ⟨sum, ⟨-, rfl⟩, rfl⟩ := hnext
      exact ⟨trivial, fun platform m => ⟨m, .nil platform 0 _ m, hone _ _⟩⟩
  | stack offset =>
      simp only [stepPair, ensures_pure, ensures_lift]
      intro next hnext
      simp only [Address.next, map_eq_ok, addBytes_eq_ok] at hnext
      obtain ⟨sum, ⟨-, rfl⟩, rfl⟩ := hnext
      exact ⟨trivial, fun platform m => ⟨m, .nil platform 0 _ m, hone _ _⟩⟩
  | indirect pair =>
      simp only [stepPair, ensures_emit, ensures_lift]
      intro next hnext
      cases hnext
      refine ⟨trivial, fun platform m => ?_⟩
      have heffect : (Instr.increment pair).effect platform m =
          some { m.write pair (m.read pair + 1) with
            flags := platform.flags (.increment pair) m } := rfl
      refine ⟨_, (Quiet.write heffect rfl).mono (Nat.le_refl 0) fun s hs => ?_, ?_⟩
      · simpa using hs pair rfl
      · have hself := Registers.read_write_self m.registers pair (m.read pair + 1)
        rw [hpair pair rfl, cut_two] at hself
        exact hself

/-- A register is loaded with the bytes from an address on. -/
theorem load_delivers (hpair : ∀ pair, address = .indirect pair → pair.size = 2)
    (hclear : ClearOf address r) :
    Ensures (load r address) state fun _ code _ => ∀ (platform : Platform) (m : Machine),
      Delivers platform 0 code (fun s => r.overlaps s = false ∧ ClearOf address s) m r
        (valueAt m.memory r.size (address.locate platform m)) := by
  have hload : ∀ (platform : Platform) (m : Machine) (half : Reg) (place : Address),
      Quiet platform 0 [.instr (.load half place)] (Reg.ApartFrom [half]) m
        (m.write half (m.memory (place.locate platform m)).toUInt16) := fun _ _ _ _ =>
    .write rfl rfl
  unfold load
  split
  next hhalves =>
    have hone := (Reg.halves_eq_none_iff r).mp hhalves
    rw [ensures_emit]
    intro platform m
    refine ⟨_, (hload platform m r address).mono (Nat.le_refl 0) fun s hs => ?_, ?_⟩
    · simpa using hs.1
    · have hself := Registers.read_write_self m.registers r
        (m.memory (address.locate platform m)).toUInt16
      rw [cut_byte] at hself
      rw [hone]
      exact hself
  next high low hhalves =>
    obtain ⟨htwo, rfl, rfl⟩ := Reg.eq_of_halves hhalves
    have hapart : ∀ s, r.overlaps s = false →
        r.low.overlaps s = false ∧ r.high.overlaps s = false := by
      intro s hs
      exact ⟨Reg.low_apart hs, Reg.high_apart hs⟩
    simp only [ensures_bind, ensures_emit]
    refine (next_locates hpair).mono ?_
    intro _ code middle hnext
    refine hnext.mono ?_
    rintro next _ _ ⟨rfl, hstepped⟩ platform m
    let first := m.write r.low (m.memory (address.locate platform m)).toUInt16
    have hfirst : Quiet platform 0 [.instr (.load r.low address)] (Reg.ApartFrom [r.low]) m first :=
      hload platform m r.low address
    have hplace : address.locate platform first = address.locate platform m := by
      cases address with
      | indirect pair =>
          apply hfirst.keeps.registers pair
          have := (hapart pair (Reg.overlaps_comm r pair ▸ hclear pair rfl)).1
          simpa using this
      | label | stack => rfl
    obtain ⟨stepped, hquiet, hlocate⟩ := hstepped platform first
    rw [hplace] at hlocate
    have hmemory : ∀ x, stepped.memory x = m.memory x := fun x =>
      hquiet.keeps.memory x (Nat.zero_le _)
    let last := stepped.write r.high (stepped.memory (next.locate platform stepped)).toUInt16
    have hlast : Quiet platform 0 [.instr (.load r.high next)] (Reg.ApartFrom [r.high]) stepped
        last := hload platform stepped r.high next
    refine ⟨last, ?_, ?_⟩
    · exact (hfirst.mono (Nat.le_refl 0) fun s hs => by simpa using (hapart s hs.1).1).append
        ((hquiet.mono (Nat.le_refl 0) fun s hs => hs.2).append
          (hlast.mono (Nat.le_refl 0) fun s hs => by simpa using (hapart s hs.1).2))
    · have hlow : last.read r.low = (m.memory (address.locate platform m)).toUInt16 := by
        rw [hlast.keeps.registers r.low (by simpa using Reg.high_not_overlaps_low htwo),
          hquiet.keeps.registers r.low hclear.halves.1]
        have hself := Registers.read_write_self m.registers r.low
          (m.memory (address.locate platform m)).toUInt16
        rwa [cut_byte] at hself
      have hhigh : last.read r.high = (m.memory (address.locate platform m + 1)).toUInt16 := by
        have hself := Registers.read_write_self stepped.registers r.high
          (stepped.memory (next.locate platform stepped)).toUInt16
        rw [cut_byte] at hself
        rw [← hlocate, ← hmemory]
        exact hself
      have hpair' := Registers.read_pair htwo last.registers
      simp only [Machine.read] at hlow hhigh
      rw [hlow, hhigh] at hpair'
      rw [htwo]
      simpa [valueAt, Machine.read] using hpair'

/-- The bytes of a register are stored from an address on. -/
theorem store_executes (hpair : ∀ pair, address = .indirect pair → pair.size = 2)
    (hclear : ClearOf address r) :
    Ensures (store address r) state fun _ code _ => ∀ (platform : Platform) (m : Machine),
      ∃ after, Executes platform code m after ∧ netRise code = 0 ∧ after.sp = m.sp ∧
        after.outcomes = m.outcomes ∧
        after.memory = storeAt m.memory r.size (address.locate platform m) (m.read r) ∧
        ∀ s, ClearOf address s → after.read s = m.read s := by
  unfold store
  split
  next hhalves =>
    have hone := (Reg.halves_eq_none_iff r).mp hhalves
    rw [ensures_emit, hone]
    intro platform m
    exact ⟨_, .effect rfl, rfl, rfl, rfl, rfl, fun _ _ => rfl⟩
  next high low hhalves =>
    obtain ⟨htwo, rfl, rfl⟩ := Reg.eq_of_halves hhalves
    simp only [ensures_bind, ensures_emit]
    refine (next_locates hpair).mono ?_
    intro _ code middle hnext
    refine hnext.mono ?_
    rintro next _ _ ⟨rfl, hstepped⟩ platform m
    let first := m.put (address.locate platform m) (m.read r.low).toUInt8
    obtain ⟨stepped, hquiet, hlocate⟩ := hstepped platform first
    have hplace : address.locate platform first = address.locate platform m := by
      cases address <;> rfl
    rw [hplace] at hlocate
    have hmemory : stepped.memory = first.memory := funext fun x =>
      hquiet.keeps.memory x (Nat.zero_le _)
    have hhigh : stepped.read r.high = m.read r.high :=
      hquiet.keeps.registers r.high hclear.halves.2
    have hbytes : (m.read r.low).toUInt8 = (m.read r).toUInt8 ∧
        (m.read r.high).toUInt8 = highByte (m.read r) := by
      have hword := Registers.read_pair htwo m.registers
      simp only [Machine.read]
      rw [hword, toUInt8_word, highByte_word]
      exact ⟨rfl, rfl⟩
    refine ⟨stepped.put (next.locate platform stepped) (stepped.read r.high).toUInt8, ?_, ?_,
      hquiet.keeps.sp, hquiet.keeps.outcomes, ?_, hquiet.keeps.registers⟩
    · exact .cons rfl (hquiet.executes.append (.effect rfl))
    · simp [hquiet.rise, Line.rise, Instr.rise]
    · rw [htwo, hlocate, hhigh, hbytes.2]
      show Function.update stepped.memory _ _ = storeAt m.memory 2 _ _
      rw [hmemory]
      simp only [first, Machine.put, hbytes.1]
      rfl

end Memory

end Lowering

end AccumulatorC
