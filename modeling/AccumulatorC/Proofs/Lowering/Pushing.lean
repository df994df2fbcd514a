import AccumulatorC.Proofs.Lowering.Tracking

/-!
# Values on the stack

Registers that are pushed lie below one another on the stack, and popped in the opposite order
they have their values again. What lies on the stack stays there as long as its bytes do.
-/

namespace AccumulatorC

namespace Site

variable {site : Site} {depth : Nat} {m : Machine} {r : Reg}

/-! ## The bytes of the stack -/

/-- The byte that is pushed on so many bytes. -/
theorem level_sub (hused : site.used ≤ depth) (hdepth : depth < site.used + addressLimit) :
    site.level (site.entry - .ofNat (depth + 1)) = depth := by
  have hsub : site.start - 1 - (site.entry - .ofNat (depth + 1)) =
      .ofNat (depth - site.used) := by
    rw [entry_sub (by omega), Nat.sub_add_comm hused, UInt16.ofNat_add]
    grind
  rw [level, hsub, UInt16.toNat_ofNat', Nat.mod_eq_of_lt]
  · omega
  · simp only [addressLimit] at hdepth
    omega

/-- What lies on so many bytes of the stack is decided by its own bytes. -/
theorem valueAt_congr {memory other : UInt16 → UInt8} {size : Nat} (hsize : size = 1 ∨ size = 2)
    (hused : site.used ≤ depth) (hlimit : depth + size ≤ site.used + addressLimit)
    (h : ∀ x, depth ≤ site.level x → site.level x < depth + size → other x = memory x) :
    valueAt other size (site.entry - .ofNat (depth + size)) =
      valueAt memory size (site.entry - .ofNat (depth + size)) := by
  have hhigh : site.level (site.entry - .ofNat (depth + 1)) = depth := level_sub (by omega) (by omega)
  rcases hsize with rfl | rfl
  · show (other _).toUInt16 = (memory _).toUInt16
    rw [h _ (by omega) (by omega)]
  · have hlow : site.level (site.entry - .ofNat (depth + 2)) = depth + 1 := level_sub (by omega) (by omega)
    have hnext : site.entry - .ofNat (depth + 2) + 1 = site.entry - .ofNat (depth + 1) := by
      rw [UInt16.ofNat_add, UInt16.ofNat_add]
      grind
    show word (other _) (other _) = word (memory _) (memory _)
    rw [hnext, h _ (by omega) (by omega), h _ (by omega) (by omega)]

/-- A register that is pushed lies on top of so many bytes, which stay as they are. -/
structure Pushed (site : Site) (depth : Nat) (r : Reg) (m after : Machine) : Prop where
  sp : after.sp = site.entry - .ofNat (depth + r.size)
  value : valueAt after.memory r.size (site.entry - .ofNat (depth + r.size)) = m.read r
  memory : ∀ x, site.level x < depth ∨ depth + r.size ≤ site.level x → after.memory x = m.memory x
  registers : after.registers = m.registers
  outcomes : after.outcomes = m.outcomes

/-- One byte below so many. -/
theorem pushByte_eq (hsp : m.sp = site.entry - .ofNat depth) (hused : site.used ≤ depth)
    (hlimit : depth < site.used + addressLimit) (byte : UInt8) :
    (m.pushByte byte).sp = site.entry - .ofNat (depth + 1) ∧
    (m.pushByte byte).memory (site.entry - .ofNat (depth + 1)) = byte ∧
    ∀ x, site.level x ≠ depth → (m.pushByte byte).memory x = m.memory x := by
  have hsp' : m.sp - 1 = site.entry - .ofNat (depth + 1) := by
    rw [hsp, UInt16.ofNat_add]
    grind
  refine ⟨hsp', ?_, fun x hx => ?_⟩
  · rw [← hsp']
    exact Function.update_self _ _ _
  · apply Function.update_of_ne
    rintro rfl
    rw [hsp', level_sub hused hlimit] at hx
    exact hx rfl

/-- A push leaves what was pushed before where it is. -/
theorem pushed_push (hsp : m.sp = site.entry - .ofNat depth) (r : Reg) (hused : site.used ≤ depth)
    (hlimit : depth + r.size ≤ site.used + addressLimit) : site.Pushed depth r m (m.push r) := by
  rcases r.size_eq_one_or_two with hsize | hsize
  · rw [hsize] at hlimit
    obtain ⟨hsp', hbyte, hmemory⟩ := pushByte_eq hsp hused hlimit (m.read r).toUInt8
    have hpush : m.push r = m.pushByte (m.read r).toUInt8 := by
      rw [Machine.push, hsize]
      rfl
    rw [hpush]
    refine ⟨by rw [hsize]; exact hsp', ?_, fun x hx => hmemory x (by omega), rfl, rfl⟩
    rw [hsize]
    show ((m.pushByte (m.read r).toUInt8).memory _).toUInt16 = m.read r
    rw [hbyte, UInt16.toUInt16_toUInt8]
    exact Registers.cut_read hsize m.registers
  · rw [hsize] at hlimit
    let first := m.pushByte (highByte (m.read r))
    obtain ⟨hsp', hhigh, hmemory⟩ := pushByte_eq hsp hused (by omega) (highByte (m.read r))
    obtain ⟨hsp'', hlow, hmemory'⟩ := pushByte_eq (m := first) hsp' (by omega) (by omega) (m.read r).toUInt8
    have hpush : m.push r = first.pushByte (m.read r).toUInt8 := by
      rw [Machine.push, hsize]
      rfl
    rw [hpush]
    refine ⟨by rw [hsize]; exact hsp'', ?_, fun x hx => ?_, rfl, rfl⟩
    · have hnext : site.entry - .ofNat (depth + 2) + 1 = site.entry - .ofNat (depth + 1) := by
        rw [UInt16.ofNat_add, UInt16.ofNat_add]
        grind
      have hlevel : site.level (site.entry - .ofNat (depth + 1)) = depth := level_sub (by omega) (by omega)
      rw [hsize]
      show word ((first.pushByte (m.read r).toUInt8).memory _)
        ((first.pushByte (m.read r).toUInt8).memory _) = m.read r
      rw [hnext, hlow, hmemory' _ (by omega), hhigh, word_highByte]
    · exact (hmemory' x (by omega)).trans (hmemory x (by omega))

/-! ## Values below one another -/

/-- Values of given sizes lie below one another from so many bytes of the stack on. -/
def Stacked (site : Site) (memory : UInt16 → UInt8) : Nat → List (Nat × UInt16) → Prop
  | _, [] => True
  | depth, (size, value) :: rest =>
      valueAt memory size (site.entry - .ofNat (depth + size)) = value ∧
        site.Stacked memory (depth + size) rest

/-- Values stay on the stack as long as their bytes do. -/
theorem Stacked.congr {memory other : UInt16 → UInt8} {values : List (Nat × UInt16)}
    (h : site.Stacked memory depth values) (hsizes : ∀ entry ∈ values, entry.1 = 1 ∨ entry.1 = 2)
    (hused : site.used ≤ depth)
    (hlimit : depth + (values.map Prod.fst).sum ≤ site.used + addressLimit)
    (hsame : ∀ x, depth ≤ site.level x → site.level x < depth + (values.map Prod.fst).sum →
      other x = memory x) :
    site.Stacked other depth values := by
  induction values generalizing depth with
  | nil => trivial
  | cons first rest ih =>
      obtain ⟨size, value⟩ := first
      obtain ⟨hvalue, hrest⟩ := h
      simp only [List.map_cons, List.sum_cons] at hlimit hsame
      refine ⟨?_, ih hrest (fun entry hmem => hsizes entry (List.mem_cons_of_mem _ hmem)) (by omega)
        (by omega) fun x hx hx' => hsame x (by omega) (by omega)⟩
      rw [valueAt_congr (hsizes _ List.mem_cons_self) hused (by omega)
        fun x hx hx' => hsame x hx (by omega)]
      exact hvalue

/-- Registers with their values, as they are pushed. -/
def savedValues (m : Machine) (registers : List Reg) : List (Nat × UInt16) :=
  registers.map fun r => (r.size, m.read r)

theorem map_fst_savedValues (m : Machine) (registers : List Reg) :
    (savedValues m registers).map Prod.fst = registers.map Reg.size := by
  simp [savedValues]

theorem Stacked.congr_saved {memory other : UInt16 → UInt8} {registers : List Reg}
    (h : site.Stacked memory depth (savedValues m registers)) (hused : site.used ≤ depth)
    (hlimit : depth + (registers.map Reg.size).sum ≤ site.used + addressLimit)
    (hsame : ∀ x, depth ≤ site.level x → site.level x < depth + (registers.map Reg.size).sum →
      other x = memory x) :
    site.Stacked other depth (savedValues m registers) := by
  refine h.congr (fun entry hmem => ?_) hused (by rwa [map_fst_savedValues])
    (by rwa [map_fst_savedValues])
  obtain ⟨r, -, rfl⟩ := List.mem_map.mp hmem
  exact r.size_eq_one_or_two

/-- Registers that are pushed one after the other lie below one another. -/
theorem pushes_execute (registers : List Reg) (hsp : m.sp = site.entry - .ofNat depth)
    (hused : site.used ≤ depth)
    (hlimit : depth + (registers.map Reg.size).sum ≤ site.used + addressLimit) :
    ∃ after, Executes site.platform (registers.map fun r => .instr (.push r)) m after ∧
      after.sp = site.entry - .ofNat (depth + (registers.map Reg.size).sum) ∧
      site.Stacked after.memory depth (savedValues m registers) ∧
      (∀ x, site.level x < depth ∨ depth + (registers.map Reg.size).sum ≤ site.level x →
        after.memory x = m.memory x) ∧
      after.outcomes = m.outcomes := by
  induction registers generalizing m depth with
  | nil => exact ⟨m, .nil site.platform m, hsp, trivial, fun _ _ => rfl, rfl⟩
  | cons r rest ih =>
      simp only [List.map_cons, List.sum_cons] at hlimit ⊢
      have hpushed := pushed_push hsp r hused (by omega)
      obtain ⟨after, hexecutes, hsp', hstacked, hmemory, houtcomes⟩ :=
        ih hpushed.sp (by omega) (by omega)
      have hread : ∀ s, (m.push r).read s = m.read s := fun s =>
        congrArg (·.read s) hpushed.registers
      refine ⟨after, .cons rfl hexecutes, by rw [hsp', Nat.add_assoc], ⟨?_, ?_⟩, fun x hx => ?_,
        houtcomes.trans hpushed.outcomes⟩
      · rw [valueAt_congr r.size_eq_one_or_two hused (by omega) fun x _ hx => hmemory x (.inl hx)]
        exact hpushed.value
      · simpa only [savedValues, hread] using hstacked
      · exact (hmemory x (by omega)).trans (hpushed.memory x (by omega))

/-- Registers that share no byte get back what they were pushed with when they are popped in the
opposite order. -/
theorem pops_execute {registers : List Reg} (hapart : registers.Pairwise Reg.Apart)
    {before : Machine} (hsp : m.sp = site.entry - .ofNat (depth + (registers.map Reg.size).sum))
    (hstacked : site.Stacked m.memory depth (savedValues before registers)) :
    ∃ after, Executes site.platform (registers.reverse.map fun r => .instr (.pop r)) m after ∧
      after.sp = site.entry - .ofNat depth ∧
      (∀ r ∈ registers, after.read r = before.read r) ∧
      (∀ s, (∀ r ∈ registers, r.overlaps s = false) → after.read s = m.read s) ∧
      after.memory = m.memory ∧ after.outcomes = m.outcomes := by
  induction registers generalizing depth with
  | nil => exact ⟨m, .nil site.platform m, hsp, by simp, fun _ _ => rfl, rfl, rfl⟩
  | cons r rest ih =>
      rw [List.pairwise_cons] at hapart
      obtain ⟨hvalue, hrest⟩ := hstacked
      simp only [List.map_cons, List.sum_cons, ← Nat.add_assoc] at hsp
      obtain ⟨middle, hexecutes, hsp', hpopped, hkept, hmemory, houtcomes⟩ := ih hapart.2 hsp hrest
      have hother : ∀ s, r.overlaps s = false → (middle.pop r).read s = middle.read s :=
        fun s hs => Registers.read_write_of_apart hs _ _
      rw [List.reverse_cons, List.map_append]
      refine ⟨middle.pop r, hexecutes.append (.effect rfl), ?_, ?_, fun s hs => ?_, hmemory,
        houtcomes⟩
      · show middle.sp + .ofNat r.size = _
        rw [hsp', UInt16.ofNat_add]
        grind
      · intro s hs
        rcases List.mem_cons.mp hs with rfl | hmem
        · have hself : (middle.pop s).read s = cut s.size (valueAt middle.memory s.size middle.sp) :=
            Registers.read_write_self _ _ _
          rw [hself, hmemory, hsp', hvalue]
          exact Registers.cut_read rfl before.registers
        · exact (hother s (hapart.1 s hmem)).trans (hpopped s hmem)
      · exact (hother s (hs r List.mem_cons_self)).trans
          (hkept s fun t ht => hs t (List.mem_cons_of_mem _ ht))

end Site

end AccumulatorC
