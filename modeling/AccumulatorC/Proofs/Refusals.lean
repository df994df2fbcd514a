import AccumulatorC.Proofs.Lowering.ProgramSoundness
import AccumulatorC.Proofs.Program.Parser.Unit

/-!
# What programs that are read are refused for

Reading checks everything that lowering relies on. So a program that has been read is lowered,
unless registers run out, the machine lacks an operation, or bytes do not fit into the address
space.
-/

namespace AccumulatorC

open Lowering

/-- Why a program that has been read is not lowered: no register of one or two bytes is free, an
operation on pairs is not supported, or a sum of byte counts leaves the address space. -/
inductive Refused : Stop (Located LowerError) → Prop
  | exhausted {size : Nat} {held : RegSet} {here : Location} (h : size = 1 ∨ size = 2) :
      Refused (.diagnosis ⟨.exhausted size held, here⟩)
  | unsupported {op : WideOp} {here : Location} : Refused (.diagnosis ⟨.unsupported op, here⟩)
  | overflow : Refused (.breakdown .overflow)

theorem Stop.Permitted.refused {stop : Stop LowerError} (h : stop.Permitted) (here : Location) :
    Refused (stop.map (⟨·, here⟩)) := by
  cases stop with
  | diagnosis cause =>
      cases cause with
      | exhausted size held => exact .exhausted h
      | unsupported op => exact .unsupported
      | voidValue => cases h
      | notConstant => cases h
  | breakdown cause =>
      cases h
      exact .overflow

/-- A program that has been read is refused for nothing else; and until its last line, or until
it is refused, every register that is asked for has one or two bytes, and every number that is put
into a byte register is a byte. -/
theorem Program.lowered_or_refused {tokens : List (Located Token)} {parsed : Parsed}
    (hparsed : Program.ofTokens tokens = .ok parsed) :
    (∀ cause, parsed.program.lines = .error cause → Refused cause) ∧
    (∀ size, .asks size ∈ parsed.program.lower.events .initial → size = 1 ∨ size = 2) ∧
    ∀ (r : Reg) (value : Nat),
      .emits (.instr (.setNumber r value)) ∈ parsed.program.lower.events .initial →
      r.size = 1 → value ≤ 0xff := by
  have hwf := Program.ofTokens_wellFormed hparsed
  have halways := (hwf.rests .initial RegSet.conflictFree_empty rfl).1
  refine ⟨fun cause hcause => ?_, fun size hmem => halways _ hmem, fun r value hmem => halways _ hmem⟩
  obtain ⟨stop, here, hpermitted, rfl⟩ := hwf.permitted hcause
  exact hpermitted.refused here

theorem countdown_lowered_or_refused :
    (∀ cause, countdown.program.lines = .error cause → Refused cause) ∧
    (∀ size, .asks size ∈ countdown.program.lower.events .initial → size = 1 ∨ size = 2) ∧
    ∀ (r : Reg) (value : Nat),
      .emits (.instr (.setNumber r value)) ∈ countdown.program.lower.events .initial →
      r.size = 1 → value ≤ 0xff :=
  Program.lowered_or_refused countdown_read

end AccumulatorC
