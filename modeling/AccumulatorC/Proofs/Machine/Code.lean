import Mathlib.Algebra.Ring.Int.Defs
import Mathlib.Algebra.Ring.Nat
import AccumulatorC.Machine.Assembly

/-!
# Code from top to bottom

The labels that a code puts, how far it raises the stack pointer when it is read from top to
bottom, and how far below its start it pushes on the way. A call pushes its return address and
takes it off again.
-/

namespace AccumulatorC

/-- The label that a line puts. -/
def Line.label? : Line → Option Label
  | label l => some l
  | instr _ | data _ => none

/-- The labels that a code puts, in order. -/
def labels (code : List Line) : List Label := code.filterMap Line.label?

@[simp] theorem labels_nil : labels [] = [] := rfl

@[simp] theorem labels_label (l : Label) (code : List Line) :
    labels (.label l :: code) = l :: labels code := rfl

@[simp] theorem labels_instr (i : Instr) (code : List Line) :
    labels (.instr i :: code) = labels code := rfl

@[simp] theorem labels_data (d : Data) (code : List Line) :
    labels (.data d :: code) = labels code := rfl

@[simp] theorem labels_append (code rest : List Line) :
    labels (code ++ rest) = labels code ++ labels rest := List.filterMap_append

theorem mem_labels {l : Label} {code : List Line} : l ∈ labels code ↔ .label l ∈ code := by
  simp only [labels, List.mem_filterMap]
  constructor
  · rintro ⟨line, hmem, hline⟩
    cases line with
    | label found =>
        cases hline
        exact hmem
    | instr => cases hline
    | data => cases hline
  · intro h
    exact ⟨_, h, rfl⟩

/-- How far the stack pointer is raised. Calls count as neutral. -/
def Instr.rise : Instr → Int
  | push r => -r.size
  | pop r => r.size
  | reserve bytes => -bytes
  | release bytes => bytes
  | _ => 0

def Line.rise : Line → Int
  | instr i => i.rise
  | label _ | data _ => 0

/-- How far the stack pointer is raised from the start of a code to its end. -/
def netRise (code : List Line) : Int := (code.map Line.rise).sum

/-- Bytes that a line pushes and takes off again: the return address of a call. -/
def Line.dip : Line → Nat
  | instr (.call _) => 2
  | _ => 0

/-- How many bytes below its start a code pushes. -/
def reach : List Line → Nat
  | [] => 0
  | line :: rest => max line.dip (reach rest - line.rise).toNat

@[simp] theorem netRise_nil : netRise [] = 0 := rfl

@[simp] theorem netRise_cons (line : Line) (rest : List Line) :
    netRise (line :: rest) = line.rise + netRise rest := by
  simp [netRise]

@[simp] theorem netRise_append (code rest : List Line) :
    netRise (code ++ rest) = netRise code + netRise rest := by
  simp [netRise]

theorem netRise_pushes (registers : List Reg) :
    netRise (registers.map fun r => .instr (.push r)) = -((registers.map Reg.size).sum : Nat) := by
  induction registers with
  | nil => rfl
  | cons r registers ih =>
      rw [List.map_cons, netRise_cons, ih]
      simp only [Line.rise, Instr.rise, List.map_cons, List.sum_cons]
      omega

theorem netRise_pops (registers : List Reg) :
    netRise (registers.map fun r => .instr (.pop r)) = (registers.map Reg.size).sum := by
  induction registers with
  | nil => rfl
  | cons r registers ih =>
      rw [List.map_cons, netRise_cons, ih]
      simp only [Line.rise, Instr.rise, List.map_cons, List.sum_cons]
      omega

@[simp] theorem reach_nil : reach [] = 0 := rfl

theorem reach_cons (line : Line) (rest : List Line) :
    reach (line :: rest) = max line.dip (reach rest - line.rise).toNat := rfl

/-- A code pushes as far as its first part does, and as far as its last part does from where that
starts. -/
theorem reach_append (code rest : List Line) :
    reach (code ++ rest) = max (reach code) (reach rest - netRise code).toNat := by
  induction code with
  | nil => simp
  | cons line code ih =>
      rw [List.cons_append, reach_cons, reach_cons, netRise_cons, ih]
      omega

/-- Code after a part that has moved the stack pointer. -/
theorem reach_sub_le (code rest : List Line) :
    (reach rest : Int) - netRise code ≤ reach (code ++ rest) := by
  rw [reach_append]
  omega

/-- Code after a part that leaves the stack as it was. -/
theorem reach_le_after {code : List Line} (h : netRise code = 0) (rest : List Line) :
    reach rest ≤ reach (code ++ rest) := by
  rw [reach_append, h]
  omega

theorem reach_le_append (code rest : List Line) : reach code ≤ reach (code ++ rest) := by
  rw [reach_append]
  exact Nat.le_max_left _ _

end AccumulatorC
