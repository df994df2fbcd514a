import AccumulatorC.Lowering.Statement
import AccumulatorC.Program.Fold

/-!
# Lowering programs

The program starts by calling its main function and stays where that returns to.
Functions and global variables follow in the order of the source; each variable is
data that a jump leaves out. The heap starts after everything.
-/

namespace AccumulatorC

open Lowering

/-- The data of a global variable. Strings are put in front of it and referred to. -/
def Declaration.data (declared : Declaration) : Lowering Data := do
  let size := declared.symbol.type.size
  match declared.initial with
  | none => return .space size
  | some (.string _ bytes) => return .address (← stringData false bytes)
  | some value =>
      match value.fold with
      | none => fail .notConstant
      | some value =>
          if size = 1 then return .byte (value &&& 0xff).toNat
          else return .word value.toNat

/-- A global variable. One that is defined elsewhere gives nothing. -/
def Declaration.lowerGlobal (declared : Declaration) : Lowering Unit := do
  let symbol := declared.symbol
  if symbol.storage = .external then return
  visit symbol.location
  let data ← declared.data
  emit (.skip symbol.name symbol.type.size)
  mark (.symbol symbol.name)
  line (.data data)

/-- A function. -/
def Function.lower (scopes : Scopes) (function : Function) : Lowering Unit := do
  visit function.symbol.location
  let name := function.symbol.name
  let size ← lift (scopes.frame function.scope)
  mark (.symbol name)
  reserve size
  lowerStatements ⟨scopes, name, function.symbol.resultSize, function.scope⟩ function.body
  mark (.exit name)
  release size
  emit .ret

/-- One item of a program. -/
def Item.lower (scopes : Scopes) : Item → Lowering Unit
  | .global declared => declared.lowerGlobal
  | .function defined => defined.lower scopes

/-- A whole program. -/
def Program.lower (program : Program) : Lowering Unit := do
  mark .entry
  emit (.call mainName)
  mark .halt
  emit (.jump .always .halt)
  program.items.forM (Item.lower program.scopes)
  mark .heap

/-- The state before anything is lowered. -/
def LowerState.initial : LowerState := ⟨.empty, 0, .empty, .startOf "<output>"⟩

/-- The lines of a program. -/
def Program.lines (program : Program) : Except (Stop (Located LowerError)) (List Line) :=
  (program.lower.run .initial).map (·.code)

end AccumulatorC
