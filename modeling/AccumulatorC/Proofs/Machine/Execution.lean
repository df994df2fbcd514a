import AccumulatorC.Proofs.Machine.Semantics

/-!
# Running code

Code runs line by line, and a jump to a label goes on after the one place where the label is
put. Two codes that run one after the other run as one.
-/

namespace AccumulatorC

/-- Where labels are different, a jump leads behind the only line that puts its label. -/
theorem afterLabel_eq {before rest : List Line} {l : Label}
    (h : (labels (before ++ .label l :: rest)).Nodup) :
    afterLabel (before ++ .label l :: rest) l = some rest := by
  induction before with
  | nil => simp [afterLabel]
  | cons line before ih =>
      rw [List.cons_append] at h ⊢
      cases line with
      | label found =>
          rw [labels_label, List.nodup_cons] at h
          have hne : found ≠ l := by
            rintro rfl
            exact h.1 (by simp)
          rw [afterLabel, if_neg hne]
          exact ih h.2
      | instr i =>
          rw [labels_instr] at h
          exact ih h
      | data d =>
          rw [labels_data] at h
          exact ih h

namespace Platform

variable {platform : Platform} {program rest : List Line} {m : Machine}

@[simp] theorem step_label {l : Label} :
    platform.step program (.label l :: rest, m) = some (rest, m) := rfl

/-- An instruction with an effect goes on to the line behind it. -/
theorem step_effect {i : Instr} {after : Machine} (h : i.effect platform m = some after) :
    platform.step program (.instr i :: rest, m) = some (rest, after) := by
  cases i <;> first | cases h; done | simp only [step, h, Option.map_some]

/-- A jump whose condition is met goes on behind its label. -/
theorem step_taken {condition : Condition} {l : Label} {there : List Line}
    (h : m.flags.meets condition = true) (hthere : afterLabel program l = some there) :
    platform.step program (.instr (.jump condition l) :: rest, m) = some (there, m) := by
  simp only [step, if_pos h, hthere, Option.map_some]

theorem step_passed {condition : Condition} {l : Label} (h : m.flags.meets condition = false) :
    platform.step program (.instr (.jump condition l) :: rest, m) = some (rest, m) := by
  simp only [step, h, Bool.false_eq_true, if_false]

/-- A call goes on with the next outcome that the environment has for it. -/
theorem step_call {function : String} {outcome : Returned} {others : List Returned}
    (h : m.outcomes = outcome :: others) :
    platform.step program (.instr (.call function) :: rest, m) =
      some (rest, (m.enter platform rest).comeBack platform function outcome others) := by
  simp only [step, h]

namespace Reaches

variable {here there goal : List Line × Machine}

theorem refl (here : List Line × Machine) : platform.Reaches program here here :=
  Relation.ReflTransGen.refl

theorem step (h : platform.step program here = some there)
    (hthere : platform.Reaches program there goal) : platform.Reaches program here goal :=
  .head h hthere

/-- One run goes on where another one has come to. -/
theorem trans (h : platform.Reaches program here there)
    (hthere : platform.Reaches program there goal) : platform.Reaches program here goal :=
  Relation.ReflTransGen.trans h hthere

theorem effect {i : Instr} {after : Machine} (h : i.effect platform m = some after)
    (hafter : platform.Reaches program (rest, after) goal) :
    platform.Reaches program (.instr i :: rest, m) goal := .step (step_effect h) hafter

theorem label {l : Label} (h : platform.Reaches program (rest, m) goal) :
    platform.Reaches program (.label l :: rest, m) goal := .step step_label h

end Reaches

end Platform

namespace Executes

variable {platform : Platform} {code rest : List Line} {m middle after : Machine}

theorem nil (platform : Platform) (m : Machine) : Executes platform [] m m :=
  fun _ _ _ => .refl _

theorem append (h : Executes platform code m middle) (h' : Executes platform rest middle after) :
    Executes platform (code ++ rest) m after := by
  intro before following hlabels
  have hfirst := h before (rest ++ following) (by simpa using hlabels)
  have hsecond := h' (before ++ code) following (by simpa using hlabels)
  simp only [List.append_assoc] at hfirst hsecond ⊢
  exact hfirst.trans hsecond

theorem effect {i : Instr} (h : i.effect platform m = some after) :
    Executes platform [.instr i] m after := fun _ _ _ => .effect h (.refl _)

theorem label (platform : Platform) (l : Label) (m : Machine) : Executes platform [.label l] m m :=
  fun _ _ _ => .label (.refl _)

/-- An instruction and what follows. -/
theorem cons {i : Instr} (h : i.effect platform m = some middle)
    (h' : Executes platform rest middle after) : Executes platform (.instr i :: rest) m after :=
  (effect h).append h'

/-- Lines are jumped over when a condition is met. -/
theorem taken {condition : Condition} (h : m.flags.meets condition = true) (l : Label)
    (skipped : List Line) :
    Executes platform (.instr (.jump condition l) :: (skipped ++ [.label l])) m m := by
  intro before rest hnodup
  have hsplit : before ++ (.instr (.jump condition l) :: (skipped ++ [.label l]) ++ rest) =
      (before ++ .instr (.jump condition l) :: skipped) ++ .label l :: rest := by simp
  refine .step (Platform.step_taken h ?_) (.refl _)
  rw [hsplit] at hnodup ⊢
  exact afterLabel_eq hnodup

/-- A jump whose condition is not met is passed. -/
theorem passed {condition : Condition} (h : m.flags.meets condition = false) (l : Label) :
    Executes platform [.instr (.jump condition l)] m m :=
  fun _ _ _ => .step (Platform.step_passed h) (.refl _)

end Executes

/-! ## Moving the stack pointer -/

/-- A machine that differs from another one in its stack pointer and its flags alone. -/
structure Machine.Moves (m after : Machine) (sp : UInt16) : Prop where
  sp : after.sp = sp
  registers : after.registers = m.registers
  memory : after.memory = m.memory
  outcomes : after.outcomes = m.outcomes

/-- Bytes are reserved, if there are any. -/
theorem Executes.reserve (platform : Platform) (bytes : Nat) (m : Machine) :
    ∃ after, Executes platform (if bytes > 0 then [.instr (.reserve bytes)] else []) m after ∧
      m.Moves after (m.sp - .ofNat bytes) := by
  split
  · exact ⟨_, .effect rfl, rfl, rfl, rfl, rfl⟩
  next hnone =>
    obtain rfl : bytes = 0 := Nat.eq_zero_of_not_pos hnone
    exact ⟨m, .nil platform m, (UInt16.sub_zero _).symm, rfl, rfl, rfl⟩

/-- Bytes are released, if there are any. -/
theorem Executes.release (platform : Platform) (bytes : Nat) (m : Machine) :
    ∃ after, Executes platform (if bytes > 0 then [.instr (.release bytes)] else []) m after ∧
      m.Moves after (m.sp + .ofNat bytes) := by
  split
  · exact ⟨_, .effect rfl, rfl, rfl, rfl, rfl⟩
  next hnone =>
    obtain rfl : bytes = 0 := Nat.eq_zero_of_not_pos hnone
    exact ⟨m, .nil platform m, (UInt16.add_zero _).symm, rfl, rfl, rfl⟩

/-! ## What a code leaves alone -/

/-- Between two states nothing changes but registers, flags and some bytes below the stack
pointer; some registers stay as they are. -/
structure Machine.Keeps (bytes : Nat) (kept : Reg → Prop) (m after : Machine) : Prop where
  sp : after.sp = m.sp
  outcomes : after.outcomes = m.outcomes
  memory : ∀ x, bytes ≤ (m.sp - 1 - x).toNat → after.memory x = m.memory x
  registers : ∀ r, kept r → after.read r = m.read r

namespace Machine.Keeps

variable {bytes more : Nat} {kept other : Reg → Prop} {m middle after : Machine}

theorem refl (bytes : Nat) (kept : Reg → Prop) (m : Machine) : Machine.Keeps bytes kept m m :=
  ⟨rfl, rfl, fun _ _ => rfl, fun _ _ => rfl⟩

theorem trans (h : Machine.Keeps bytes kept m middle) (h' : Machine.Keeps bytes kept middle after) :
    Machine.Keeps bytes kept m after where
  sp := h'.sp.trans h.sp
  outcomes := h'.outcomes.trans h.outcomes
  memory x hx := (h'.memory x (by rwa [h.sp])).trans (h.memory x hx)
  registers r hr := (h'.registers r hr).trans (h.registers r hr)

theorem mono (h : Machine.Keeps bytes kept m after) (hbytes : bytes ≤ more)
    (hkept : ∀ r, other r → kept r) : Machine.Keeps more other m after :=
  { h with
    memory := fun x hx => h.memory x (Nat.le_trans hbytes hx)
    registers := fun r hr => h.registers r (hkept r hr) }

theorem write (bytes : Nat) (m : Machine) (r : Reg) (value : UInt16) (flags : Flags) :
    Machine.Keeps bytes (Reg.ApartFrom [r]) m { m.write r value with flags } where
  sp := rfl
  outcomes := rfl
  memory _ _ := rfl
  registers _ hs :=
    Registers.read_write_of_apart (hs r List.mem_cons_self) m.registers value

end Machine.Keeps

/-- The accumulator is popped into no other register. -/
theorem Machine.read_pop_a {m : Machine} {r : Reg} (hr : r ≠ .a) : (m.pop .a).read r = m.read r :=
  Registers.read_write_of_apart (Reg.a_apart_of_ne hr) _ _

/-- A code takes one state to another without changing anything but registers, flags and some
bytes below the stack pointer. -/
structure Quiet (platform : Platform) (bytes : Nat) (code : List Line) (kept : Reg → Prop)
    (m after : Machine) : Prop where
  executes : Executes platform code m after
  rise : netRise code = 0
  keeps : Machine.Keeps bytes kept m after

namespace Quiet

variable {platform : Platform} {bytes more : Nat} {code rest : List Line}
  {kept other : Reg → Prop} {m middle after : Machine}

theorem nil (platform : Platform) (bytes : Nat) (kept : Reg → Prop) (m : Machine) :
    Quiet platform bytes [] kept m m := ⟨.nil platform m, rfl, .refl bytes kept m⟩

theorem append (h : Quiet platform bytes code kept m middle)
    (h' : Quiet platform bytes rest kept middle after) :
    Quiet platform bytes (code ++ rest) kept m after where
  executes := h.executes.append h'.executes
  rise := by rw [netRise_append, h.rise, h'.rise, Int.add_zero]
  keeps := h.keeps.trans h'.keeps

theorem mono (h : Quiet platform bytes code kept m after) (hbytes : bytes ≤ more)
    (hkept : ∀ r, other r → kept r) : Quiet platform more code other m after :=
  ⟨h.executes, h.rise, h.keeps.mono hbytes hkept⟩

/-- An instruction that writes a register and nothing else but flags. -/
theorem write {i : Instr} {r : Reg} {value : UInt16} {flags : Flags}
    (h : i.effect platform m = some { m.write r value with flags }) (hrise : i.rise = 0) :
    Quiet platform bytes [.instr i] (Reg.ApartFrom [r]) m { m.write r value with flags } :=
  ⟨.effect h, by simp [Line.rise, hrise], .write bytes m r value flags⟩

theorem copy (platform : Platform) (bytes : Nat) (m : Machine) (r s : Reg) :
    Quiet platform bytes [.instr (.copy r s)] (Reg.ApartFrom [r]) m (m.write r (m.read s)) :=
  write rfl rfl

theorem setNumber (platform : Platform) (bytes : Nat) (m : Machine) (r : Reg) (value : Nat) :
    Quiet platform bytes [.instr (.setNumber r value)] (Reg.ApartFrom [r]) m
      (m.write r (.ofNat value)) :=
  write rfl rfl

/-- The accumulator is pushed before a code and popped after it. The code may change as many
bytes below the stack pointer as there are besides the one that holds the accumulator. -/
theorem preserving (hbytes : bytes < 65536)
    (h : Quiet platform bytes code kept (m.pushByte (m.read .a).toUInt8) after) :
    Quiet platform (bytes + 1) (.instr (.push .a) :: (code ++ [.instr (.pop .a)]))
      (fun s => s = .a ∨ kept s) m (after.pop .a) := by
  obtain ⟨hexecutes, hrise, hsp, houtcomes, hmemory, hregisters⟩ := h
  have hpushed : (Instr.push .a).effect platform m =
      some (m.pushByte (m.read .a).toUInt8) := rfl
  have hpopped : (Instr.pop .a).effect platform after = some (after.pop .a) := rfl
  refine ⟨?_, ?_, ?_, houtcomes, ?_, ?_⟩
  · exact .cons hpushed (hexecutes.append (.effect hpopped))
  · simp only [netRise_cons, netRise_append, hrise, netRise_nil]
    rfl
  · show after.sp + 1 = m.sp
    rw [hsp]
    exact UInt16.sub_add_cancel m.sp 1
  · intro x hx
    obtain ⟨n, hn⟩ : ∃ n, (m.sp - 1 - x).toNat = n + 1 := ⟨_, (Nat.sub_add_cancel (by omega)).symm⟩
    have hbelow : (m.sp - 1 - 1 - x).toNat = n := by
      have hcomm : m.sp - 1 - 1 - x = m.sp - 1 - x - 1 := by grind
      rw [hcomm]
      exact toNat_sub_one hn
    have hne : x ≠ m.sp - 1 := by
      intro heq
      rw [heq, UInt16.sub_self] at hn
      cases hn
    exact (hmemory x (by simp only [Machine.pushByte, hbelow]; omega)).trans
      (Function.update_of_ne hne _ _)
  · intro s hs
    by_cases ha : s = .a
    · subst ha
      -- The byte that was pushed is still there.
      have hstill : after.memory (m.sp - 1) = (m.read .a).toUInt8 := by
        have hbelow : (m.sp - 1 - 1 - (m.sp - 1)).toNat = 65535 := by
          have hone : m.sp - 1 - 1 - (m.sp - 1) = 65535 := by grind
          rw [hone]
          rfl
        rw [hmemory _ (by simp only [Machine.pushByte, hbelow]; omega)]
        exact Function.update_self _ _ _
      have hpop : (after.pop .a).read .a = cut 1 (after.memory after.sp).toUInt16 :=
        Registers.read_write_self _ .a _
      have hsp' : after.sp = m.sp - 1 := hsp
      rw [hpop, hsp', hstill]
      simp [Machine.read, Registers.read]
    · exact (Machine.read_pop_a ha).trans (hregisters s (hs.resolve_left ha))

end Quiet

/-- A code leaves a value in a register and changes nothing else but some registers, the flags
and some bytes below the stack pointer. -/
def Delivers (platform : Platform) (bytes : Nat) (code : List Line) (kept : Reg → Prop)
    (m : Machine) (r : Reg) (value : UInt16) : Prop :=
  ∃ after, Quiet platform bytes code kept m after ∧ after.read r = value

namespace Delivers

variable {platform : Platform} {bytes more : Nat} {code rest : List Line}
  {kept other : Reg → Prop} {m middle : Machine} {r s : Reg} {value : UInt16}

theorem mono (h : Delivers platform bytes code kept m r value) (hbytes : bytes ≤ more)
    (hkept : ∀ s, other s → kept s) : Delivers platform more code other m r value := by
  obtain ⟨after, hquiet, hread⟩ := h
  exact ⟨after, hquiet.mono hbytes hkept, hread⟩

theorem after (hcode : Quiet platform bytes code kept m middle)
    (h : Delivers platform bytes rest kept middle r value) :
    Delivers platform bytes (code ++ rest) kept m r value := by
  obtain ⟨after, hquiet, hread⟩ := h
  exact ⟨after, hcode.append hquiet, hread⟩

/-- What was delivered is copied to another register. -/
theorem copy (h : Delivers platform bytes code kept m s value) (hsize : s.size = r.size)
    (hkept : ∀ t, kept t → r.overlaps t = false) :
    Delivers platform bytes (code ++ [.instr (.copy r s)]) kept m r value := by
  obtain ⟨after, hquiet, hread⟩ := h
  refine ⟨_, hquiet.append ((Quiet.copy platform bytes after r s).mono (Nat.le_refl _) ?_), ?_⟩
  · intro t ht
    simpa using hkept t ht
  · exact (Registers.read_copy r s hsize after.registers).trans hread

/-- The accumulator may be preserved around a code that delivers in another register. -/
theorem preserving (hr : r ≠ .a) (hbytes : bytes < 65536)
    (h : Delivers platform bytes code kept (m.pushByte (m.read .a).toUInt8) r value) :
    Delivers platform (bytes + 1) (.instr (.push .a) :: (code ++ [.instr (.pop .a)]))
      (fun s => s = .a ∨ kept s) m r value := by
  obtain ⟨after, hquiet, hread⟩ := h
  exact ⟨after.pop .a, hquiet.preserving hbytes, (Machine.read_pop_a hr).trans hread⟩

end Delivers

end AccumulatorC
