import Mathlib.Logic.Function.Iterate
import AccumulatorC.Proofs.Machine.Execution

/-!
# Loops and decisions

Three pieces of code that jump: a loop that counts a register down, a loop that takes one number
away from another as often as it can, and the choice between two numbers after a comparison. What
each of them leaves in the accumulator is found by induction on the number of rounds, whatever
program stands around it.
-/

namespace AccumulatorC

variable {platform : Platform} {m : Machine}

/-! ## Counting down -/

/-- Runs an instruction as often as a register says. -/
def countedLoop (again exit : Label) (count : Reg) (body : Instr) : List Line :=
  [.label again, .instr (.decrement count), .instr (.jump .notGreater exit), .instr body,
    .instr (.jump .always again), .label exit]

section Counting

variable {again exit : Label} {count : Reg} {body : Instr} {f : UInt16 → UInt16}

/-- From the line after the first label the rounds go on until the count is used up. -/
theorem countedLoop_rounds (hsize : count.size = 1) (hcount : Reg.a.overlaps count = false)
    (hbody : ∀ here : Machine, (∀ r, Reg.ApartFrom [.a, count] r → here.read r = m.read r) →
      ∃ flags, body.effect platform here = some { here.write .a (f (here.read .a)) with flags })
    (n : Nat) (here : Machine) (hn : (here.read count).toNat = n)
    (hhere : ∀ r, Reg.ApartFrom [.a, count] r → here.read r = m.read r) :
    ∃ after, Machine.Keeps 0 (Reg.ApartFrom [.a, count]) here after ∧
      after.read .a = (fun value => cut 1 (f value))^[n] (here.read .a) ∧
      ∀ program rest : List Line,
        afterLabel program again =
          some ((countedLoop again exit count body).tail ++ rest) →
        afterLabel program exit = some rest →
        platform.Reaches program ((countedLoop again exit count body).tail ++ rest, here)
          (rest, after) := by
  induction n generalizing here with
  | zero =>
      have hzero : here.read count = 0 := UInt16.toNat_inj.mp hn
      let after : Machine := { here.write count (here.read count - 1) with
        flags := ⟨(platform.flags (.decrement count) here).equal, here.read count != 0⟩ }
      refine ⟨after, ?_, ?_, ?_⟩
      · exact (Machine.Keeps.write 0 here count _ _).mono (Nat.le_refl _) fun r hr => by simp_all
      · exact Registers.read_write_of_apart (Reg.overlaps_comm .a count ▸ hcount) _ _
      · intro program rest _ hexit
        refine .effect rfl (.step (Platform.step_taken ?_ hexit) (.refl _))
        simp [Flags.meets, hzero]
  | succ n ih =>
      have hne : here.read count ≠ 0 := by
        intro hzero
        rw [hzero] at hn
        cases hn
      let counted : Machine := { here.write count (here.read count - 1) with
        flags := ⟨(platform.flags (.decrement count) here).equal, here.read count != 0⟩ }
      have hcounted : Machine.Keeps 0 (Reg.ApartFrom [count]) here counted :=
        .write 0 here count _ _
      obtain ⟨flags, heffect⟩ := hbody counted fun r hr =>
        (hcounted.registers r (by simp_all)).trans (hhere r hr)
      let done : Machine := { counted.write .a (f (counted.read .a)) with flags }
      have hdone : Machine.Keeps 0 (Reg.ApartFrom [.a]) counted done :=
        .write 0 counted .a _ _
      have hboth : Machine.Keeps 0 (Reg.ApartFrom [.a, count]) here done :=
        (hcounted.mono (Nat.le_refl _) fun r hr => by simp_all).trans
          (hdone.mono (Nat.le_refl _) fun r hr => by simp_all)
      have hleft : (done.read count).toNat = n := by
        have hread : counted.read count = cut 1 (here.read count - 1) := by
          rw [← hsize]
          exact Registers.read_write_self _ _ _
        have hlt : (here.read count).toNat < 256 := Registers.toNat_read_lt hsize _
        rw [hdone.registers count (by simpa using hcount), hread, toNat_cut_one, toNat_sub_one hn]
        exact Nat.mod_eq_of_lt (by omega)
      have hvalue : done.read .a = cut 1 (f (here.read .a)) := by
        have ha : counted.read .a = here.read .a :=
          hcounted.registers .a (by simpa [Reg.overlaps_comm] using hcount)
        rw [← ha]
        exact Registers.read_write_self _ .a _
      obtain ⟨after, hkeeps, hread, hreaches⟩ := ih done hleft fun r hr =>
        (hboth.registers r hr).trans (hhere r hr)
      refine ⟨after, hboth.trans hkeeps, ?_, ?_⟩
      · rw [hread, hvalue, Function.iterate_succ_apply]
      · intro program rest hagain hexit
        refine .effect rfl (.step (Platform.step_passed ?_) (.effect heffect
          (.step (Platform.step_taken rfl hagain) (hreaches program rest hagain hexit))))
        simp [Flags.meets, hne]

/-- A counted loop leaves in the accumulator what so many rounds make of it. -/
theorem countedLoop_quiet (again exit : Label) (f : UInt16 → UInt16) (hsize : count.size = 1)
    (hcount : Reg.a.overlaps count = false) (hrise : body.rise = 0)
    (hbody : ∀ here : Machine, (∀ r, Reg.ApartFrom [.a, count] r → here.read r = m.read r) →
      ∃ flags, body.effect platform here = some { here.write .a (f (here.read .a)) with flags }) :
    ∃ after, Quiet platform 0 (countedLoop again exit count body) (Reg.ApartFrom [.a, count]) m after ∧
      after.read .a = (fun value => cut 1 (f value))^[(m.read count).toNat] (m.read .a) := by
  obtain ⟨after, hkeeps, hread, hreaches⟩ :=
    countedLoop_rounds hsize hcount hbody _ m rfl fun _ _ => rfl
  refine ⟨after, ⟨?_, ?_, hkeeps⟩, hread⟩
  · intro before rest hnodup
    apply Platform.Reaches.label
    apply hreaches
    · exact afterLabel_eq hnodup
    · have hsplit : before ++ (countedLoop again exit count body ++ rest) =
          (before ++ [.label again, .instr (.decrement count), .instr (.jump .notGreater exit),
            .instr body, .instr (.jump .always again)]) ++ .label exit :: rest := by
        simp [countedLoop]
      rw [hsplit] at hnodup ⊢
      exact afterLabel_eq hnodup
  · simp only [countedLoop, netRise_cons, Line.rise, hrise]
    rfl

end Counting

/-! ## Taking away -/

/-- Takes a register away from the accumulator as often as it can, and counts how often. -/
def takingLoop (again next exit : Label) (divisor quotient : Reg) : List Line :=
  [.label again, .instr (.accumulate .compare (.reg divisor)), .instr (.jump .equal next),
    .instr (.jump .notGreater exit), .label next, .instr (.accumulate .sub (.reg divisor)),
    .instr (.increment quotient), .instr (.jump .always again), .label exit]

section Taking

variable {again next exit : Label} {divisor quotient : Reg}

/-- From the comparison on the rounds go on while the accumulator is no smaller. -/
theorem takingLoop_rounds (hdivisor : Reg.ApartFrom [.a, quotient] divisor)
    (hsize : quotient.size = 1) (hquotient : Reg.a.overlaps quotient = false)
    (n : Nat) (here : Machine) (hn : (here.read .a).toNat / (here.read divisor).toNat = n)
    (hzero : here.read divisor ≠ 0) (hroom : (here.read quotient).toNat + n < 256) :
    ∃ after, Machine.Keeps 0 (Reg.ApartFrom [.a, quotient]) here after ∧
      (after.read quotient).toNat = (here.read quotient).toNat + n ∧
      ∀ program rest : List Line,
        afterLabel program again =
          some ((takingLoop again next exit divisor quotient).tail ++ rest) →
        afterLabel program next =
          some ((takingLoop again next exit divisor quotient).drop 5 ++ rest) →
        afterLabel program exit = some rest →
        platform.Reaches program
          ((takingLoop again next exit divisor quotient).tail ++ rest, here) (rest, after) := by
  have hpos : 0 < (here.read divisor).toNat := by
    apply Nat.pos_of_ne_zero
    intro h
    exact hzero (UInt16.toNat_inj.mp h)
  let compared : Machine := { here with
    flags := ⟨here.read .a == here.read divisor, here.read divisor < here.read .a⟩ }
  have hcompared : Machine.Keeps 0 (Reg.ApartFrom [.a, quotient]) here compared :=
    ⟨rfl, rfl, fun _ _ => rfl, fun _ _ => rfl⟩
  induction n generalizing here with
  | zero =>
      have hlt : here.read .a < here.read divisor := by
        rw [UInt16.lt_iff_toNat_lt]
        rcases Nat.div_eq_zero_iff.mp hn with h | h
        · omega
        · exact h
      refine ⟨compared, hcompared, rfl, ?_⟩
      intro program rest _ _ hexit
      apply Platform.Reaches.effect rfl
      refine .step (Platform.step_passed ?_) (.step (Platform.step_taken ?_ hexit) (.refl _))
      · simpa [Flags.meets, compared] using UInt16.ne_of_lt hlt
      · apply (Bool.not_eq_true' _).mpr
        exact decide_eq_false (UInt16.not_lt.mpr (UInt16.le_of_lt hlt))
  | succ n ih =>
      have hle : (here.read divisor).toNat ≤ (here.read .a).toNat := by
        by_contra hlt
        rw [Nat.div_eq_of_lt (by omega)] at hn
        cases hn
      let reduced : Machine := { compared.write .a (here.read .a - here.read divisor) with
        flags := platform.flags (.accumulate .sub (.reg divisor)) compared }
      have hreduced : Machine.Keeps 0 (Reg.ApartFrom [.a]) compared reduced := .write 0 compared .a _ _
      let done : Machine := { reduced.write quotient (reduced.read quotient + 1) with
        flags := platform.flags (.increment quotient) reduced }
      have hdone : Machine.Keeps 0 (Reg.ApartFrom [quotient]) reduced done :=
        .write 0 reduced quotient _ _
      have hboth : Machine.Keeps 0 (Reg.ApartFrom [.a, quotient]) here done :=
        hcompared.trans ((hreduced.mono (Nat.le_refl _) fun r hr => by simp_all).trans
          (hdone.mono (Nat.le_refl _) fun r hr => by simp_all))
      have hsame : done.read divisor = here.read divisor := hboth.registers divisor hdivisor
      have hless : (done.read .a).toNat = (here.read .a).toNat - (here.read divisor).toNat := by
        have ha : done.read .a = reduced.read .a :=
          hdone.registers .a (by simpa [Reg.overlaps_comm] using hquotient)
        have hread : reduced.read .a = cut 1 (here.read .a - here.read divisor) :=
          Registers.read_write_self _ .a _
        have hbyte : (here.read .a).toNat < 256 := Registers.toNat_read_lt rfl _
        rw [ha, hread, toNat_cut_one, UInt16.toNat_sub_of_le _ _ (UInt16.le_iff_toNat_le.mpr hle)]
        exact Nat.mod_eq_of_lt (by omega)
      have hcounted : (done.read quotient).toNat = (here.read quotient).toNat + 1 := by
        have hread : done.read quotient = cut quotient.size (reduced.read quotient + 1) :=
          Registers.read_write_self _ _ _
        have hquotient' : reduced.read quotient = here.read quotient :=
          hreduced.registers quotient (by simpa using hquotient)
        rw [hread, hquotient', hsize, toNat_cut_one, UInt16.toNat_add]
        simp
        omega
      have hrounds : (done.read .a).toNat / (done.read divisor).toNat = n := by
        have hstep := Nat.div_eq_sub_div hpos hle
        rw [hsame, hless]
        omega
      obtain ⟨after, hkeeps, hread, hreaches⟩ := ih done hrounds (by rwa [hsame]) (by omega)
        (by rwa [hsame])
        ⟨rfl, rfl, fun _ _ => rfl, fun _ _ => rfl⟩
      refine ⟨after, hboth.trans hkeeps, by omega, ?_⟩
      intro program rest hagain hnext hexit
      -- Equal numbers jump to where a greater accumulator falls through.
      have hgo : platform.Reaches program
          ((takingLoop again next exit divisor quotient).drop 5 ++ rest, compared)
          (rest, after) := by
        apply Platform.Reaches.effect rfl
        apply Platform.Reaches.effect rfl
        apply Platform.Reaches.step (Platform.step_taken rfl hagain)
        exact hreaches program rest hagain hnext hexit
      apply Platform.Reaches.effect rfl
      by_cases heq : here.read .a = here.read divisor
      · refine .step (Platform.step_taken ?_ hnext) hgo
        simpa [Flags.meets] using heq
      · refine .step (Platform.step_passed ?_) (.step (Platform.step_passed ?_) (.label hgo))
        · simpa [Flags.meets] using heq
        · have hlt : here.read divisor < here.read .a := by
            rw [UInt16.lt_iff_toNat_lt]
            have hne : (here.read .a).toNat ≠ (here.read divisor).toNat := fun h =>
              heq (UInt16.toNat_inj.mp h)
            omega
          exact (Bool.not_eq_false' _).mpr (decide_eq_true hlt)

/-- The loop counts how often the register goes into the accumulator. -/
theorem takingLoop_quiet (again next exit : Label)
    (hdivisor : Reg.ApartFrom [.a, quotient] divisor)
    (hsize : quotient.size = 1) (hquotient : Reg.a.overlaps quotient = false)
    (hzero : m.read divisor ≠ 0) (hstart : m.read quotient = 0) :
    ∃ after, Quiet platform 0 (takingLoop again next exit divisor quotient)
        (Reg.ApartFrom [.a, quotient]) m after ∧
      after.read quotient = m.read .a / m.read divisor := by
  have hbyte : (m.read .a).toNat < 256 := Registers.toNat_read_lt rfl _
  have hroom : (m.read quotient).toNat + (m.read .a).toNat / (m.read divisor).toNat < 256 := by
    rw [hstart]
    exact Nat.lt_of_le_of_lt (by simpa using Nat.div_le_self _ _) hbyte
  obtain ⟨after, hkeeps, hread, hreaches⟩ :=
    takingLoop_rounds hdivisor hsize hquotient _ m rfl hzero hroom
  refine ⟨after, ⟨?_, rfl, hkeeps⟩, ?_⟩
  · intro before rest hnodup
    apply Platform.Reaches.label
    apply hreaches
    · exact afterLabel_eq hnodup
    · have hsplit : before ++ (takingLoop again next exit divisor quotient ++ rest) =
          (before ++ (takingLoop again next exit divisor quotient).take 4) ++
            .label next :: ((takingLoop again next exit divisor quotient).drop 5 ++ rest) := by
        simp [takingLoop]
      rw [hsplit] at hnodup ⊢
      exact afterLabel_eq hnodup
    · have hsplit : before ++ (takingLoop again next exit divisor quotient ++ rest) =
          (before ++ (takingLoop again next exit divisor quotient).take 8) ++
            .label exit :: rest := by
        simp [takingLoop]
      rw [hsplit] at hnodup ⊢
      exact afterLabel_eq hnodup
  · apply UInt16.toNat_inj.mp
    rw [hread, hstart, UInt16.toNat_div]
    simp

end Taking

end AccumulatorC
