import AccumulatorC.Program.Fold
import AccumulatorC.Proofs.Machine.Semantics
import AccumulatorC.Proofs.Program.Nodes

/-!
# Constants

A constant that is no string is built from numbers alone. It has a value unless it contains a
division by what has the value zero, or a shift of two bytes; the value fits the size of its type.
-/

namespace AccumulatorC

/-! ## Values of a size -/

theorem cutToSize_eq_cut {size : Nat} (h : size = 1 ∨ size = 2) (value : UInt16) :
    cutToSize size value = cut size value := by
  rcases h with rfl | rfl
  · show value &&& 0xff = value % 256
    apply UInt16.toNat_inj.mp
    rw [UInt16.toNat_and, UInt16.toNat_mod]
    exact Nat.and_two_pow_sub_one_eq_mod value.toNat 8
  · rfl

/-- A value that fits a size fits every larger one. -/
theorem cut_of_le {size larger : Nat} (hle : size ≤ larger) (hsize : size = 1 ∨ size = 2)
    (hlarger : larger = 1 ∨ larger = 2) {value : UInt16} (h : cut size value = value) :
    cut larger value = value := by
  rcases hlarger with rfl | rfl
  · rcases hsize with rfl | rfl
    · exact h
    · omega
  · rfl

theorem BinaryOp.fold_eq_none {op : BinaryOp} {size : Nat} (hsize : size = 1 ∨ size = 2)
    {left right : UInt16} :
    op.fold size left right = none ↔
      op = .div ∧ right = 0 ∨ (op = .shiftLeft ∨ op = .shiftRight) ∧ size = 2 := by
  cases op <;> simp only [fold, reduceCtorEq, false_and, or_false, false_or, true_and]
  case div => split <;> simp_all
  all_goals rcases hsize with rfl | rfl <;> simp

/-! ## Expressions built from numbers -/

namespace Expr

/-- Expressions that are built from numbers alone, typed as they are read. -/
inductive Numeric : Expr → Prop
  | number {note : Note} {value : UInt16} (hconstant : note.constant = true)
      (hscalar : note.type.isScalar = true) : Numeric (.number note value)
  | plus {note : Note} {operand : Expr} (hconstant : note.constant = true)
      (htype : note.type = operand.type) (hoperand : Numeric operand) :
      Numeric (.unary note .plus operand)
  | negate {note : Note} {operand : Expr} (hconstant : note.constant = true)
      (htype : note.type = operand.type) (hoperand : Numeric operand) :
      Numeric (.unary note .negate operand)
  | binary {note : Note} {op : BinaryOp} {left right : Expr} (hconstant : note.constant = true)
      (hcombines : left.type.Combines right.type note.type) (hleft : Numeric left)
      (hright : Numeric right) : Numeric (.binary note op left right)

/-- A constant that is no string is built from numbers. -/
theorem WellFormed.numeric {scopes : Scopes} {scope : ScopeId} {e : Expr}
    (h : e.WellFormed scopes scope) (hconstant : e.note.constant = true)
    (hstring : e.isString = false) : e.Numeric := by
  induction h with
  | number _ hnote htype =>
      refine .number hnote ?_
      rcases htype with ⟨htype, -⟩ | htype <;> rw [htype] <;> rfl
  | string => cases hstring
  | binary _ hnote hcombines _ _ ihleft ihright =>
      obtain ⟨⟨⟨hleft, hright⟩, hleftString⟩, hrightString⟩ := by
        simpa [note, hnote] using hconstant
      exact .binary hconstant hcombines (ihleft hleft hleftString) (ihright hright hrightString)
  | @keeping note op operand hop _ hnote hsteps htype _ _ ih =>
      obtain ⟨hoperand, hno⟩ : operand.note.constant = true ∧ operand.isString = false := by
        simpa [Expr.note, hnote] using hconstant
      have hnumeric := ih hoperand hno
      cases op with
      | plus => exact .plus hconstant htype hnumeric
      | negate => exact .negate hconstant htype hnumeric
      | increment => simp [hsteps rfl] at hoperand
      | decrement => simp [hsteps rfl] at hoperand
      | addressOf | deref => cases hop
  | name _ hnote | assign _ hnote | addressOf _ hnote | deref _ hnote | call _ hnote =>
      simp [note, hnote] at hconstant

/-- What keeps the expressions around it from having a value: a division by what has the value
zero, or a shift of two bytes. -/
def Unfoldable : Expr → Prop
  | .binary note op _ right =>
      op = .div ∧ right.fold = some 0 ∨ (op = .shiftLeft ∨ op = .shiftRight) ∧ note.type.size = 2
  | _ => False

namespace Numeric

variable {e : Expr}

theorem isScalar (h : e.Numeric) : e.type.isScalar = true := by
  induction h with
  | number _ hscalar => exact hscalar
  | plus _ htype _ ih | negate _ htype _ ih => exact (congrArg Ty.isScalar htype).trans ih
  | binary _ hcombines => exact hcombines.isScalar.2.2

theorem size_eq (h : e.Numeric) : e.type.size = 1 ∨ e.type.size = 2 :=
  Ty.size_of_isScalar h.isScalar

theorem cutToSize_eq (h : e.Numeric) : cutToSize e.type.size = cut e.type.size :=
  funext (cutToSize_eq_cut h.size_eq)

theorem fold_number {note : Note} {value : UInt16} (h : (Expr.number note value).Numeric) :
    (Expr.number note value).fold = some (cut note.type.size value) := by
  have hcut : cutToSize note.type.size = cut note.type.size := h.cutToSize_eq
  cases h with
  | number hconstant => simp only [fold, hconstant, if_true, hcut]

theorem fold_plus {note : Note} {operand : Expr} (h : (Expr.unary note .plus operand).Numeric) :
    (Expr.unary note .plus operand).fold = operand.fold.map (cut note.type.size) := by
  have hcut : cutToSize note.type.size = cut note.type.size := h.cutToSize_eq
  cases h with
  | plus hconstant => simp only [fold, hconstant, if_true, hcut]

theorem fold_negate {note : Note} {operand : Expr} (h : (Expr.unary note .negate operand).Numeric) :
    (Expr.unary note .negate operand).fold =
      operand.fold.map fun value => cut note.type.size (-value) := by
  have hcut : cutToSize note.type.size = cut note.type.size := h.cutToSize_eq
  cases h with
  | negate hconstant => simp only [fold, hconstant, if_true, hcut]

theorem fold_binary {note : Note} {op : BinaryOp} {left right : Expr}
    (h : (Expr.binary note op left right).Numeric) :
    (Expr.binary note op left right).fold =
      left.fold.bind fun l => right.fold.bind fun r =>
        (op.fold note.type.size l r).map (cut note.type.size) := by
  have hcut : cutToSize note.type.size = cut note.type.size := h.cutToSize_eq
  cases h with
  | binary hconstant => simp only [fold, hconstant, if_true, hcut, Option.bind_eq_bind]

/-- The value of a constant fits its size. -/
theorem cut_fold (h : e.Numeric) {value : UInt16} (hvalue : e.fold = some value) :
    cut e.type.size value = value := by
  cases h with
  | number hconstant hscalar =>
      rw [fold_number (.number hconstant hscalar), Option.some.injEq] at hvalue
      exact hvalue ▸ cut_cut _ _
  | plus hconstant htype hoperand =>
      rw [fold_plus (.plus hconstant htype hoperand)] at hvalue
      obtain ⟨_, -, rfl⟩ := Option.map_eq_some_iff.mp hvalue
      exact cut_cut _ _
  | negate hconstant htype hoperand =>
      rw [fold_negate (.negate hconstant htype hoperand)] at hvalue
      obtain ⟨_, -, rfl⟩ := Option.map_eq_some_iff.mp hvalue
      exact cut_cut _ _
  | binary hconstant hcombines hleft hright =>
      rw [fold_binary (.binary hconstant hcombines hleft hright)] at hvalue
      simp only [Option.bind_eq_some_iff, Option.map_eq_some_iff] at hvalue
      obtain ⟨_, -, _, -, _, -, rfl⟩ := hvalue
      exact cut_cut _ _

/-- A constant has no value exactly when something in it keeps it from having one. -/
theorem fold_eq_none (h : e.Numeric) : e.fold = none ↔ ∃ node ∈ e.nodes, node.Unfoldable := by
  induction h with
  | number hconstant => simp [fold, hconstant, nodes, Unfoldable]
  | plus hconstant _ _ ih | negate hconstant _ _ ih =>
      simp only [fold, hconstant, if_true, Option.map_eq_none_iff, ih, nodes, List.mem_cons,
        exists_eq_or_imp, Unfoldable, false_or]
  | @binary note op left right hconstant hcombines hleft hright ihleft ihright =>
      have hbinary : (Expr.binary note op left right).Numeric :=
        .binary hconstant hcombines hleft hright
      have hsize : note.type.size = 1 ∨ note.type.size = 2 := hbinary.size_eq
      have hnodes : (∃ node ∈ (Expr.binary note op left right).nodes, node.Unfoldable) ↔
          (Expr.binary note op left right).Unfoldable ∨ left.fold = none ∨ right.fold = none := by
        simp only [nodes, List.mem_cons, List.mem_append, or_and_right, exists_or, exists_eq_left,
          ihleft, ihright]
      rw [hnodes, fold_binary hbinary]
      simp only [Option.bind_eq_none_iff, Option.map_eq_none_iff, BinaryOp.fold_eq_none hsize,
        Unfoldable]
      constructor
      · intro hnone
        cases hl : left.fold with
        | none => exact .inr (.inl rfl)
        | some l =>
            cases hr : right.fold with
            | none => exact .inr (.inr rfl)
            | some r =>
                rcases hnone l hl r hr with ⟨hop, hzero⟩ | hshift
                · exact .inl (.inl ⟨hop, congrArg some hzero⟩)
                · exact .inl (.inr hshift)
      · rintro ((⟨hop, hzero⟩ | hshift) | hnone | hnone) l hl r hr
        · rw [hzero, Option.some.injEq] at hr
          exact .inl ⟨hop, hr.symm⟩
        · exact .inr hshift
        · rw [hnone] at hl
          cases hl
        · rw [hnone] at hr
          cases hr

end Numeric

end Expr

end AccumulatorC
