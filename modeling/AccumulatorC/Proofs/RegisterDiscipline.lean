import AccumulatorC.Proofs.Lowering.ProgramSoundness
import AccumulatorC.Proofs.StackDiscipline

/-!
# The register discipline of programs that are read

While a program is lowered no two registers in use ever overlap. The value of an expression takes
one register more, which overlaps none of those in use, and after a statement no register is in
use and nothing is left on the stack.
-/

namespace AccumulatorC

open Lowering

/-- What lowering an expression does to the registers in use, whichever they are: it takes one
more, apart from them, and leaves the count of pushed bytes as it was. -/
structure Expr.TakesOne (e : Expr) (state : LowerState) (r : Reg) (after : LowerState) : Prop where
  size : e.type.isVoid = false → r.size = e.type.size
  apart : ∀ s, state.held.contains s = true → r.overlaps s = false
  held : after.held = state.held.insert r
  depth : after.depth = state.depth

theorem Expr.WellFormed.takesOne {scopes : Scopes} {scope : ScopeId} {e : Expr}
    (h : e.WellFormed scopes scope) {state : LowerState} (hfree : state.held.ConflictFree) :
    Ensures (e.lower scopes) state fun r _ after => e.TakesOne state r after := by
  refine (h.allocates state hfree).mono ?_
  rintro r _ after ⟨hholds, hsize, hdepth⟩
  exact ⟨hsize, RegSet.isFree_iff.mp hholds.isFree, hholds.held, hdepth⟩

/-- A statement of a function that is lowered while no register is in use and nothing is pushed
leaves it so. -/
theorem Function.WellFormed.statement_settled {scopes : Scopes} (hwf : scopes.WellFormed)
    {function : Function} (h : function.WellFormed scopes) {statement : Statement}
    (hmem : statement ∈ function.statements) {state : LowerState} (hheld : state.held = .empty)
    (hdepth : state.depth = 0) :
    Ensures (statement.lower (function.toFrame scopes)) state fun _ _ after =>
      after.held = .empty ∧ after.depth = 0 := by
  obtain ⟨result, types, table, htype, -, -, hbody⟩ := h.signature
  obtain ⟨inner, hstatement, hinner⟩ := Function.WellFormed.part hwf hbody hmem
  have hfree : state.held.ConflictFree := by
    rw [hheld]
    exact RegSet.conflictFree_empty
  have hsettled := hstatement.settled (h.nested hwf) (Symbol.resultSize_eq htype) hinner
  exact (hsettled state hfree hdepth).mono fun _ _ after hafter => ⟨hafter.1.trans hheld, hafter.2.1⟩

theorem Function.WellFormed.values_not_void {scopes : Scopes} {function : Function}
    (h : function.WellFormed scopes) : ∀ e ∈ function.values, e.type.isVoid = false := by
  obtain ⟨result, types, table, -, -, -, hbody⟩ := h.signature
  intro e he
  obtain ⟨statement, hmem, he⟩ := Statement.mem_allValues.mp he
  exact (hbody statement hmem).values_not_void e he

/-- From the first line of a program to the last no two registers in use overlap. The value of
every expression of a function, whatever is in use and pushed, is left in one register more. Every
statement leaves no register in use and nothing pushed, so that the check after it never fails. -/
theorem Program.registers_disciplined {tokens : List (Located Token)} {parsed : Parsed}
    (hparsed : Program.ofTokens tokens = .ok parsed) :
    (∀ state, .enters state ∈ parsed.program.lower.events .initial → state.held.ConflictFree) ∧
    (∀ function, .function function ∈ parsed.program.items →
      (∀ e ∈ function.nodes, ∀ state : LowerState, state.held.ConflictFree →
        Ensures (e.lower parsed.program.scopes) state fun r _ after => e.TakesOne state r after) ∧
      (∀ e ∈ function.values, e.type.isVoid = false) ∧
      ∀ statement ∈ function.statements, ∀ state : LowerState,
        state.held = .empty → state.depth = 0 →
        Ensures (statement.lower (function.toFrame parsed.program.scopes)) state fun _ _ after =>
          after.held = .empty ∧ after.depth = 0) ∧
    parsed.program.lines ≠ .error (.breakdown .unbalancedStack) := by
  have hwf := Program.ofTokens_wellFormed hparsed
  refine ⟨fun state hmem => ?_, fun function hmem => ⟨fun e he state hfree => ?_, ?_, ?_⟩, ?_⟩
  · exact (hwf.rests .initial RegSet.conflictFree_empty rfl).1 _ hmem
  · exact ((hwf.functions function hmem).node hwf.scopes he).1.takesOne hfree
  · exact (hwf.functions function hmem).values_not_void
  · exact fun statement hstatement state hheld hdepth =>
      (hwf.functions function hmem).statement_settled hwf.scopes hstatement hheld hdepth
  · intro hlines
    obtain ⟨stop, here, hpermitted, hcause⟩ := hwf.permitted hlines
    cases stop with
    | diagnosis cause => cases hcause
    | breakdown cause =>
        cases hcause
        cases hpermitted

theorem countdown_registers_disciplined :
    (∀ state, .enters state ∈ countdown.program.lower.events .initial → state.held.ConflictFree) ∧
    (∀ function, .function function ∈ countdown.program.items →
      (∀ e ∈ function.nodes, ∀ state : LowerState, state.held.ConflictFree →
        Ensures (e.lower countdown.program.scopes) state fun r _ after => e.TakesOne state r after) ∧
      (∀ e ∈ function.values, e.type.isVoid = false) ∧
      ∀ statement ∈ function.statements, ∀ state : LowerState,
        state.held = .empty → state.depth = 0 →
        Ensures (statement.lower (function.toFrame countdown.program.scopes)) state
          fun _ _ after => after.held = .empty ∧ after.depth = 0) ∧
    countdown.program.lines ≠ .error (.breakdown .unbalancedStack) :=
  Program.registers_disciplined countdown_read

end AccumulatorC
