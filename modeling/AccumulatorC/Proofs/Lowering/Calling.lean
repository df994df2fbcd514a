import Mathlib.Algebra.Ring.Nat
import Mathlib.Data.List.Pairwise
import AccumulatorC.Lowering.Expression
import AccumulatorC.Proofs.Lowering.Allocation

/-!
# The registers around a call

A call gives back all registers in use, so that its arguments find them free, and takes them
again after it. Whatever its result clashes with, every saved register can be taken again, and
the result ends up in a register that overlaps none of them.
-/

namespace AccumulatorC

namespace Lowering

theorem forM_save {registers : List Reg} {state : LowerState} :
    Ensures (registers.forM save) state fun _ code after =>
      code = registers.map (fun r => .instr (.push r)) ∧
      (∀ r, after.held.contains r = (state.held.contains r && decide (r ∉ registers))) ∧
      after.depth = state.depth + (registers.map Reg.size).sum ∧ after.labels = state.labels := by
  induction registers generalizing state with
  | nil => simp
  | cons r registers ih =>
      simp only [List.forM_eq_forM, List.forM_cons, save, ensures_bind, ensures_push, ensures_free]
      intro _
      refine ih.mono ?_
      rintro _ code after ⟨rfl, hheld, hdepth, hlabels⟩
      refine ⟨by simp, fun s => ?_, ?_, hlabels⟩
      · rw [hheld]
        by_cases hs : s = r <;> simp [hs]
      · simp [hdepth, Nat.add_assoc]

theorem saveAll_ensures {state : LowerState} :
    Ensures saveAll state fun saved code after =>
      saved = state.held.toList ∧ code = saved.map (fun r => .instr (.push r)) ∧
      after.held = .empty ∧ after.depth = state.depth + (saved.map Reg.size).sum ∧
      after.labels = state.labels := by
  simp only [saveAll, ensures_bind, ensures_get, ensures_pure]
  refine forM_save.mono ?_
  rintro _ code after ⟨rfl, hheld, hdepth, hlabels⟩
  refine ⟨trivial, by simp, RegSet.ext fun r => ?_, hdepth, hlabels⟩
  rw [hheld]
  by_cases hr : state.held.contains r = true <;> simp [RegSet.mem_toList, hr]

/-- Free registers that overlap neither the set nor one another are all taken. -/
theorem claimAll_ensures {registers : List Reg} {state : LowerState}
    (hfree : ∀ r ∈ registers, state.held.isFree r = true)
    (hapart : registers.Pairwise Reg.Apart) :
    Ensures (claimAll registers) state fun _ code after =>
      code = [] ∧
      (∀ r, after.held.contains r = (state.held.contains r || decide (r ∈ registers))) ∧
      after.depth = state.depth ∧ after.labels = state.labels := by
  induction registers generalizing state with
  | nil => simp [claimAll]
  | cons r registers ih =>
      have hr := hfree r List.mem_cons_self
      rw [List.pairwise_cons] at hapart
      have hrest : ∀ s ∈ registers, (state.held.insert r).isFree s = true := by
        intro s hs
        rw [RegSet.isFree_insert, Reg.overlaps_comm]
        exact ⟨hfree s (List.mem_cons_of_mem _ hs), hapart.1 s hs⟩
      have hunfold : claimAll (r :: registers) =
          (claim r >>= fun _ => pure ()) >>= fun _ => claimAll registers := rfl
      simp only [hunfold, ensures_bind, ensures_claim, ensures_pure, hr, true_implies,
        Bool.true_eq_false, false_implies, and_true]
      refine (ih hrest hapart.2).mono ?_
      rintro _ code after ⟨rfl, hheld, hdepth, hlabels⟩
      refine ⟨rfl, fun s => ?_, hdepth, hlabels⟩
      rw [hheld]
      by_cases hs : s = r <;> simp [hs]

theorem forM_pop {registers : List Reg} {state : LowerState} :
    Ensures (registers.forM pop) state fun _ code after =>
      code = registers.map (fun r => .instr (.pop r)) ∧ after.held = state.held ∧
      state.depth = after.depth + (registers.map Reg.size).sum ∧ after.labels = state.labels := by
  induction registers generalizing state with
  | nil => simp
  | cons r registers ih =>
      simp only [List.forM_eq_forM, List.forM_cons, ensures_bind, ensures_pop]
      intro hsize
      refine ih.mono ?_
      rintro _ code after ⟨rfl, hheld, hdepth, hlabels⟩
      refine ⟨by simp, hheld, ?_, hlabels⟩
      simp only at hdepth
      simp only [List.map_cons, List.sum_cons]
      omega

/-- What is left of a call when its arguments are off the stack: its result is taken, and the
saved registers after it. -/
def restore (function : Symbol) (saved : List Reg) : Lowering (Option Reg) := do
  let result ← claimResult function.resultSize
  let (clashing, clear) := saved.partition fun r => result.any (·.overlaps r)
  claimAll clear
  let result ← moveResult clashing result
  claimAll clashing
  saved.reverse.forM pop
  return result

theorem finishCall_eq (function : Symbol) (saved : List Reg) (pushed : Nat) :
    finishCall function saved pushed = (do
      emit (.call function.name)
      if pushed > 0 then
        emit (.release pushed)
        shallow pushed
      restore function saved) := rfl

/-- What a call does with the registers it saved: they are popped in the opposite order and in
use again, besides the result, which overlaps none of them. A result that clashed with one of
them has been copied to another register. -/
structure Restores (function : Symbol) (saved : List Reg) (state : LowerState)
    (result : Option Reg) (code : List Line) (after : LowerState) : Prop where
  held : ∀ r, after.held.contains r = true ↔ r ∈ saved ∨ result = some r
  depth : state.depth = after.depth + (saved.map Reg.size).sum
  labels : after.labels = state.labels
  none : result = none → function.resultSize = 0 ∧
    code = saved.reverse.map fun r => .instr (.pop r)
  some : ∀ r, result = some r → function.resultSize ≠ 0 ∧
    r.size = (Reg.result function.resultSize).size ∧ (∀ s ∈ saved, r.overlaps s = false) ∧
    code = (if r = .result function.resultSize then []
        else [.instr (.copy r (.result function.resultSize))]) ++
      saved.reverse.map fun r => .instr (.pop r)

/-- A register that is taken while a result is held is apart from what clashes with the
result. -/
theorem overlaps_eq_false_of_clash {size : Nat} {moved s : Reg}
    (hfree : moved.overlaps (.result size) = false) (hsize : moved.size = (Reg.result size).size)
    (hclash : (Reg.result size).overlaps s = true) : moved.overlaps s = false := by
  unfold Reg.result at *
  split at hfree <;> cases moved <;> cases s <;> simp_all [Reg.overlaps, Reg.pair, Reg.size]

theorem claimResult_ensures {size : Nat} {state : LowerState} (hempty : state.held = .empty) :
    Ensures (claimResult size) state fun result code after =>
      code = [] ∧ after.depth = state.depth ∧ after.labels = state.labels ∧
      ((size = 0 ∧ result = none ∧ after.held = .empty) ∨
        (size ≠ 0 ∧ result = some (.result size) ∧
          after.held = RegSet.empty.insert (.result size))) := by
  simp only [claimResult, ensures_ite, ensures_bind, ensures_claim, ensures_pure, hempty,
    RegSet.isFree_empty]
  constructor
  · intro hzero
    simp [hzero]
  · intro hsome
    simp [hsome]

/-- The last part of a call: what clashed with the result is taken, and all is popped. -/
theorem claimAndPop_ensures {saved clashing : List Reg} {state : LowerState}
    (hfree : ∀ r ∈ clashing, state.held.isFree r = true)
    (hapart : clashing.Pairwise Reg.Apart) :
    Ensures (claimAll clashing) state fun _ claims middle =>
      Ensures (saved.reverse.forM pop) middle fun _ pops after =>
        claims = [] ∧ pops = saved.reverse.map (fun r => .instr (.pop r)) ∧
        (∀ r, after.held.contains r = true ↔ state.held.contains r = true ∨ r ∈ clashing) ∧
        state.depth = after.depth + (saved.map Reg.size).sum ∧ after.labels = state.labels := by
  refine (claimAll_ensures hfree hapart).mono ?_
  rintro _ _ middle ⟨rfl, hheld, hdepth, hlabels⟩
  refine forM_pop.mono ?_
  rintro _ _ after ⟨rfl, hheld', hdepth', hlabels'⟩
  refine ⟨rfl, rfl, fun r => by simp [hheld', hheld], ?_, hlabels'.trans hlabels⟩
  rw [← hdepth, hdepth', List.map_reverse, List.sum_reverse]

/-- Saved registers come back in the opposite order, and the result moves out of the way of
theirs. -/
theorem restore_ensures {function : Symbol} {saved : List Reg} {state : LowerState}
    (hempty : state.held = .empty) (hapart : saved.Pairwise Reg.Apart) :
    Ensures (restore function saved) state (Restores function saved state) := by
  unfold restore
  rw [ensures_bind]
  refine (claimResult_ensures hempty).mono ?_
  rintro result _ claimed ⟨rfl, hdepth, hlabels, ⟨hsize, rfl, hheld⟩ | ⟨hsize, rfl, hheld⟩⟩
  · -- Without a result nothing clashes.
    simp only [List.partition_eq_filter_filter, Option.any_none, Function.comp_def, Bool.not_false,
      List.filter_false, List.filter_true, moveResult, ensures_bind, ensures_pure]
    refine (claimAll_ensures (by simp [hheld]) hapart).mono ?_
    rintro _ _ cleared ⟨rfl, hcleared, hdepth', hlabels'⟩
    refine (claimAndPop_ensures (by simp) .nil).mono fun _ _ _ hpop => hpop.mono ?_
    rintro _ _ after ⟨rfl, rfl, hheld', hpopped, hkept⟩
    refine ⟨fun r => ?_, ?_, ?_, fun _ => ⟨hsize, by simp⟩, by simp⟩
    · rw [hheld', hcleared, hheld]
      simp
    · rw [← hdepth, ← hdepth', hpopped]
    · rw [hkept, hlabels', hlabels]
  · generalize hR : Reg.result function.resultSize = R at hheld
    simp only [List.partition_eq_filter_filter, Function.comp_def, Option.any_some, ensures_bind]
    have hclear : ∀ r, r ∈ saved.filter (fun s => !R.overlaps s) ↔ r ∈ saved ∧ R.overlaps r = false := by
      simp
    have hclash : ∀ r, r ∈ saved.filter R.overlaps ↔ r ∈ saved ∧ R.overlaps r = true := by
      simp
    have hclearFree : ∀ r ∈ saved.filter (fun s => !R.overlaps s),
        claimed.held.isFree r = true := by
      intro r hr
      rw [hheld, RegSet.isFree_insert, Reg.overlaps_comm]
      exact ⟨RegSet.isFree_empty r, ((hclear r).mp hr).2⟩
    refine (claimAll_ensures hclearFree (hapart.filter _)).mono ?_
    rintro _ _ cleared ⟨rfl, hcleared, hdepth', hlabels'⟩
    have hheldCleared : ∀ r, cleared.held.contains r = true ↔
        r = R ∨ r ∈ saved ∧ R.overlaps r = false := by
      intro r
      rw [hcleared, hheld]
      simp
    unfold moveResult
    rw [ensures_ite]
    constructor
    · intro hnone
      have happart : ∀ r ∈ saved, R.overlaps r = false := by
        simpa [List.isEmpty_iff, List.filter_eq_nil_iff] using hnone
      have hempty' : saved.filter R.overlaps = [] := List.isEmpty_iff.mp hnone
      simp only [ensures_pure, hempty']
      refine (claimAndPop_ensures (by simp) .nil).mono fun _ _ _ hpop => hpop.mono ?_
      rintro _ _ after ⟨rfl, rfl, hheld', hpopped, hkept⟩
      refine ⟨fun r => ?_, ?_, ?_, by simp, ?_⟩
      · rw [hheld', hheldCleared]
        constructor
        · rintro ((rfl | hr) | hr)
          · exact Or.inr rfl
          · exact Or.inl hr.1
          · cases hr
        · rintro (hr | hr)
          · exact Or.inl (Or.inr ⟨hr, happart r hr⟩)
          · exact Or.inl (Or.inl (Option.some.inj hr).symm)
      · rw [← hdepth, ← hdepth', hpopped]
      · rw [hkept, hlabels', hlabels]
      · rintro r ⟨⟩
        exact ⟨hsize, by rw [hR], happart, by simp [hR]⟩
    · intro hsome
      simp only [ensures_bind, ensures_allocate, ensures_emit, ensures_free, ensures_pure]
      intro moved hmoved
      have hmovedFree := RegSet.isFree_iff.mp (RegSet.firstFree_eq_some hmoved).1
      have hmovedSize : moved.size = R.size :=
        RegSet.size_of_firstFree R.size_eq_one_or_two hmoved
      have hmovedR : moved.overlaps R = false := hmovedFree R ((hheldCleared R).mpr (Or.inl rfl))
      have hne : moved ≠ R := by
        rintro rfl
        simp at hmovedR
      have hmovedSaved : ∀ s ∈ saved, moved.overlaps s = false := by
        intro s hs
        cases hover : R.overlaps s with
        | false => exact hmovedFree s ((hheldCleared s).mpr (Or.inr ⟨hs, hover⟩))
        | true =>
            subst hR
            exact overlaps_eq_false_of_clash hmovedR hmovedSize hover
      have hheldMoved : ∀ r, ((cleared.held.insert moved).erase R).contains r = true ↔
          r = moved ∨ r ∈ saved ∧ R.overlaps r = false := by
        intro r
        simp only [RegSet.contains_erase, RegSet.contains_insert, Bool.and_eq_true,
          Bool.not_eq_true', decide_eq_false_iff_not, Bool.or_eq_true, decide_eq_true_eq,
          hheldCleared]
        constructor
        · rintro ⟨hr, rfl | rfl | hr'⟩
          · exact Or.inl rfl
          · exact absurd rfl hr
          · exact Or.inr hr'
        · rintro (rfl | ⟨hr, hover⟩)
          · exact ⟨hne, Or.inl rfl⟩
          · refine ⟨?_, Or.inr (Or.inr ⟨hr, hover⟩)⟩
            rintro rfl
            simp at hover
      have hclashFree : ∀ s ∈ saved.filter R.overlaps,
          ((cleared.held.insert moved).erase R).isFree s = true := by
        intro s hs
        obtain ⟨hs, hover⟩ := (hclash s).mp hs
        rw [RegSet.isFree_iff]
        intro t ht
        rcases (hheldMoved t).mp ht with rfl | ⟨ht, hnot⟩
        · rw [Reg.overlaps_comm]
          exact hmovedSaved s hs
        · refine hapart.forall hs ht ?_
          rintro rfl
          simp [hnot] at hover
      refine (claimAndPop_ensures hclashFree (hapart.filter _)).mono fun _ _ _ hpop => hpop.mono ?_
      rintro _ _ after ⟨rfl, rfl, hheld', hpopped, hkept⟩
      refine ⟨fun r => ?_, ?_, ?_, by simp, ?_⟩
      · rw [hheld', hheldMoved, hclash]
        constructor
        · rintro ((rfl | hr) | hr)
          · exact Or.inr rfl
          · exact Or.inl hr.1
          · exact Or.inl hr.1
        · rintro (hr | hr)
          · cases hover : R.overlaps r with
            | false => exact Or.inl (Or.inr ⟨hr, rfl⟩)
            | true => exact Or.inr ⟨hr, rfl⟩
          · exact Or.inl (Or.inl (Option.some.inj hr).symm)
      · rw [← hdepth, ← hdepth', hpopped]
      · rw [hkept, hlabels', hlabels]
      · rintro r ⟨⟩
        exact ⟨hsize, by rw [hR]; exact hmovedSize, hmovedSaved, by simp [hR, hne]⟩

/-- A call from its instruction on: the arguments are released, and the rest is restored. -/
theorem finishCall_ensures {function : Symbol} {saved : List Reg} {pushed : Nat}
    {state : LowerState} (hempty : state.held = .empty) (hapart : saved.Pairwise Reg.Apart) :
    Ensures (finishCall function saved pushed) state fun result code after =>
      pushed ≤ state.depth ∧ ∃ rest,
        code = .instr (.call function.name) ::
          ((if pushed > 0 then [.instr (.release pushed)] else []) ++ rest) ∧
        Restores function saved { state with depth := state.depth - pushed } result rest after := by
  rw [finishCall_eq]
  simp only [ensures_bind, ensures_emit, ensures_ite, ensures_shallow]
  constructor
  · intro hpushed hdepth
    refine (restore_ensures (by exact hempty) hapart).mono fun result rest after h => ?_
    exact ⟨hdepth, rest, by simp [hpushed], h⟩
  · intro hpushed
    have hzero : pushed = 0 := by omega
    subst hzero
    refine (restore_ensures hempty hapart).mono fun result rest after h => ?_
    exact ⟨Nat.zero_le _, rest, by simp, h⟩

end Lowering

end AccumulatorC
