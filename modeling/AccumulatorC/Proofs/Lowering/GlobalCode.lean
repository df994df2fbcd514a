import AccumulatorC.Lowering.Unit
import AccumulatorC.Proofs.Lowering.Ensures

/-!
# The code of global variables

The data of a variable stands behind a jump over it and the variable's label. A string literal has
data of its own in front of the jump, and the variable holds its address.
-/

namespace AccumulatorC

open Lowering

/-- The lines of a string literal outside functions. -/
def stringLines (n : Nat) (bytes : List UInt8) : List Line :=
  [.instr (.jump .always (.stringEnd false n)), .label (.string false n), .data (.text bytes),
    .label (.stringEnd false n)]

namespace Declaration

variable {declared : Declaration}

/-- The jump over the data of a variable, and the label behind it. -/
def head (declared : Declaration) : List Line :=
  [.instr (.skip declared.symbol.name declared.symbol.type.size),
    .label (.symbol declared.symbol.name)]

/-- Whether the variable starts with the address of a string literal. -/
def startsAsString (declared : Declaration) : Bool := declared.initial.any Expr.isString

/-- What a variable starts with: lines that are put in front of it, and its data. -/
inductive Stores (declared : Declaration) (strings : Nat) : List Line → Data → Prop
  | nothing (h : declared.initial = none) :
      Stores declared strings [] (.space declared.symbol.type.size)
  | string {note : Note} {bytes : List UInt8} (h : declared.initial = some (.string note bytes)) :
      Stores declared strings (stringLines strings bytes) (.address (.string false strings))
  | byte {value : Expr} {n : Nat} (h : declared.initial = some value)
      (hstring : value.isString = false) (hsize : declared.symbol.type.size = 1) :
      Stores declared strings [] (.byte n)
  | word {value : Expr} {n : Nat} (h : declared.initial = some value)
      (hstring : value.isString = false) (hsize : declared.symbol.type.size ≠ 1) :
      Stores declared strings [] (.word n)

/-- A variable stores its initial value, or room for one. -/
theorem data_stores (declared : Declaration) (state : LowerState) :
    Ensures declared.data state fun data code _ =>
      declared.Stores (state.labels.count .string) code data := by
  unfold Declaration.data
  split
  next hnone =>
    rw [ensures_pure]
    exact .nothing hnone
  next note bytes hstring =>
    simp only [stringData, ensures_bind, ensures_newLabel, ensures_emit, ensures_mark, ensures_line,
      ensures_pure]
    exact .string hstring
  next value hnotString hvalue =>
    have hstring : value.isString = false := by
      cases value with
      | string note bytes => exact absurd rfl (hnotString note bytes)
      | _ => rfl
    split
    · exact ensures_fail
    · simp only [ensures_ite, ensures_pure]
      exact ⟨.byte hvalue hstring, .word hvalue hstring⟩

/-- The number that a variable is written with. -/
def ofNumber (declared : Declaration) (n : UInt16) : Data :=
  if declared.symbol.type.size = 1 then .byte (n &&& 0xff).toNat else .word n.toNat

/-- A variable that starts with a value is written with the address of a string or with a number. -/
theorem data_of_initial (state : LowerState) {value : Expr}
    (hvalue : declared.initial = some value) :
    Ensures declared.data state fun data _ _ =>
      (∃ label, value.isString = true ∧ data = .address label) ∨
        ∃ n, value.fold = some n ∧ data = declared.ofNumber n := by
  unfold Declaration.data
  split
  next hnone =>
    rw [hnone] at hvalue
    cases hvalue
  next note bytes hstring =>
    cases hstring.symm.trans hvalue
    simp only [ensures_bind, ensures_pure]
    exact fun done _ => .inl ⟨done.value, rfl, rfl⟩
  next found _ hfound =>
    cases hfound.symm.trans hvalue
    split
    · exact ensures_fail
    next n hn =>
      simp only [ensures_ite, ensures_pure]
      exact ⟨fun hsize => .inr ⟨n, hn, (if_pos hsize).symm⟩,
        fun hsize => .inr ⟨n, hn, (if_neg hsize).symm⟩⟩

/-- The code of a variable ends with the jump over its data, its label and one line of data. One that
is defined elsewhere has none. -/
theorem lowerGlobal_ensures (declared : Declaration) (state : LowerState)
    {post : List Line → Data → Prop}
    (hdata : Ensures declared.data { state with here := declared.symbol.location }
      fun data front _ => post front data) :
    Ensures declared.lowerGlobal state fun _ code _ =>
      (declared.symbol.storage = .external → code = []) ∧
      (declared.symbol.storage ≠ .external → ∃ front data,
        code = front ++ (declared.head ++ [.data data]) ∧ post front data) := by
  unfold Declaration.lowerGlobal
  simp only [ensures_ite, ensures_pure, ensures_bind, ensures_visit, ensures_emit, ensures_mark,
    ensures_line]
  constructor
  · intro hexternal
    exact ⟨fun _ => trivial, fun hown => absurd hexternal hown⟩
  · intro hown
    refine hdata.mono ?_
    intro data front _ hpost
    exact ⟨fun hexternal => absurd hexternal hown, fun _ => ⟨front, data, rfl, hpost⟩⟩

theorem lowerGlobal_code (declared : Declaration) (state : LowerState) :
    Ensures declared.lowerGlobal state fun _ code _ =>
      (declared.symbol.storage = .external → code = []) ∧
      (declared.symbol.storage ≠ .external → ∃ front data,
        code = front ++ (declared.head ++ [.data data]) ∧
        declared.Stores (state.labels.count .string) front data) :=
  declared.lowerGlobal_ensures state (declared.data_stores _)

end Declaration

end AccumulatorC
