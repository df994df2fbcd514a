import AccumulatorC.Lowering.Unit
import AccumulatorC.Proofs.Lowering.ExpressionRegisters
import AccumulatorC.Proofs.Lowering.MovingValues
import AccumulatorC.Proofs.Program.Constants
import AccumulatorC.Proofs.Program.Parser.Unit

/-!
# Constants at compile time and at run time

The code of a constant leaves the value in a register that is found when the constant is folded.
So a constant initializes a global variable and a local one with the same number.
-/

namespace AccumulatorC

open Lowering

/-! ## The code of a constant -/

/-- Lowered from any state without conflicts, the expression gives code that leaves a value in the
register for it and all other registers in use as they are. -/
def Expr.Leaves (scopes : Scopes) (e : Expr) (value : UInt16) : Prop :=
  ∀ state : LowerState, state.held.ConflictFree → Ensures (e.lower scopes) state fun r code _ =>
    ∀ (platform : Platform) (m : Machine),
      Delivers platform 2 code (fun s => state.held.contains s = true) m r value

namespace Expr

variable {scopes : Scopes} {scope : ScopeId} {note : Note}

/-- Both operands of an operator are lowered, brought to its size, and calculated with. -/
theorem Leaves.binary {op : BinaryOp} {left right : Expr} {l r value : UInt16}
    (hsize : note.type.size = 1 ∨ note.type.size = 2) (hleft : left.WellFormed scopes scope)
    (hright : right.WellFormed scopes scope) (hl : left.Leaves scopes l) (hr : right.Leaves scopes r)
    (hvalue : (op.fold note.type.size (cut note.type.size l) (cut note.type.size r)).map
      (cut note.type.size) = some value) :
    (Expr.binary note op left right).Leaves scopes value := by
  intro state hfree
  rw [Expr.lower]
  simp only [ensures_bind, ensures_visit, List.nil_append]
  refine ((hl _ (by exact hfree)).and (hleft.allocates _ (by exact hfree))).mono ?_
  rintro leftReg leftCode first ⟨hleftCode, hfirst, -, -⟩
  refine ((coerce_delivers hfirst hsize).and (coerce_holds hfirst hsize)).mono ?_
  rintro leftReg' leftCoerce second ⟨hleftCoerce, hsecond, hleftSize, -⟩
  have hsecondFree := hsecond.held_conflictFree
  refine ((hr _ hsecondFree).and (hright.allocates _ hsecondFree)).mono ?_
  rintro rightReg rightCode third ⟨hrightCode, hthird, -, -⟩
  refine ((coerce_delivers hthird hsize).and (coerce_holds hthird hsize)).mono ?_
  rintro rightReg' rightCoerce fourth ⟨hrightCoerce, hfourth, hrightSize, -⟩
  refine ((operate_computes op hsize (.of_holds hsecond hfourth hleftSize hrightSize)).and
    (operate_replaces hfourth.contains)).mono ?_
  rintro result code _ ⟨hcode, hresult, -⟩ platform m
  obtain ⟨m₁, hquiet₁, hread₁⟩ := hleftCode platform m
  obtain ⟨m₂, hquiet₂, hread₂⟩ := hleftCoerce platform m₁
  obtain ⟨m₃, hquiet₃, hread₃⟩ := hrightCode platform m₂
  obtain ⟨m₄, hquiet₄, hread₄⟩ := hrightCoerce platform m₃
  have hheld := hsecond.contains
  have hleftRead : m₄.read leftReg' = cut note.type.size l := by
    rw [hquiet₄.keeps.registers _ hheld, hquiet₃.keeps.registers _ hheld, hread₂, hread₁]
  have hrightRead : m₄.read rightReg' = cut note.type.size r := by rw [hread₄, hread₃]
  have hdelivers := hcode platform m₄ value (by
    rw [← hvalue, ← hleftRead, ← hrightRead]
    rfl)
  -- Whatever was in use is in use all the time.
  have hkept : ∀ s, state.held.contains s = true → second.held.contains s = true := by
    intro s hs
    rw [hsecond.held, RegSet.contains_insert, hs, Bool.or_true]
  rw [hresult]
  exact .after hquiet₁ (.after (hquiet₂.mono (Nat.zero_le 2) fun _ hs => hs)
    (.after (hquiet₃.mono (Nat.le_refl 2) hkept) (.after (hquiet₄.mono (Nat.zero_le 2) hkept)
      (hdelivers.mono (Nat.le_refl 2) fun s hs => hsecond.besides hfourth hs))))

end Expr

/-- The code of a constant leaves its value in the register for it. -/
theorem Expr.Numeric.leaves {scopes : Scopes} {scope : ScopeId} {e : Expr} (h : e.Numeric)
    (hwf : e.WellFormed scopes scope) {value : UInt16} (hvalue : e.fold = some value) :
    e.Leaves scopes value := by
  have hsize := h.size_eq
  induction h generalizing value with
  | number hconstant hscalar =>
      rw [(Numeric.number hconstant hscalar).fold_number, Option.some.injEq] at hvalue
      intro state _
      rw [Expr.lower, ensures_bind, ensures_visit]
      refine (number_delivers hsize _).mono fun r code _ hcode platform m => ?_
      exact hvalue ▸ (hcode platform m).mono (Nat.zero_le 2) fun _ hs => hs
  | @plus note operand hconstant htype hoperand ih =>
      have hinner : operand.WellFormed scopes scope := by
        cases hwf
        assumption
      rw [(Numeric.plus hconstant htype hoperand).fold_plus] at hvalue
      obtain ⟨v, hv, rfl⟩ := Option.map_eq_some_iff.mp hvalue
      rw [htype, hoperand.cut_fold hv]
      intro state hfree
      rw [Expr.lower, ensures_bind, ensures_visit]
      exact ih hinner hv hoperand.size_eq _ (by exact hfree)
  | @negate note operand hconstant htype hoperand ih =>
      have hinner : operand.WellFormed scopes scope := by
        cases hwf
        assumption
      rw [(Numeric.negate hconstant htype hoperand).fold_negate] at hvalue
      obtain ⟨v, hv, rfl⟩ := Option.map_eq_some_iff.mp hvalue
      rw [htype]
      intro state hfree
      rw [Expr.lower]
      simp only [ensures_bind, ensures_visit, List.nil_append]
      refine ((ih hinner hv hoperand.size_eq _ (by exact hfree)).and
        (hinner.allocates _ (by exact hfree))).mono ?_
      rintro r code first ⟨hcode, hheld, hrsize, -⟩
      refine (negate_delivers hheld).mono fun r' negateCode _ hnegate platform m => ?_
      obtain ⟨m₁, hquiet, hread⟩ := hcode platform m
      have hdelivers := hnegate platform m₁
      rw [hread, hrsize (Ty.isVoid_of_isScalar hoperand.isScalar), UInt16.zero_sub] at hdelivers
      exact .after hquiet hdelivers
  | @binary note op left right hconstant hcombines hleft hright ihleft ihright =>
      rw [(Numeric.binary hconstant hcombines hleft hright).fold_binary] at hvalue
      obtain ⟨l, hl, hvalue⟩ := Option.bind_eq_some_iff.mp hvalue
      obtain ⟨r, hr, hvalue⟩ := Option.bind_eq_some_iff.mp hvalue
      obtain ⟨hleftWf, hrightWf⟩ : left.WellFormed scopes scope ∧ right.WellFormed scopes scope := by
        cases hwf
        exact ⟨by assumption, by assumption⟩
      refine .binary hsize hleftWf hrightWf (ihleft hleftWf hl hleft.size_eq)
        (ihright hrightWf hr hright.size_eq) ?_
      -- The values fit their own sizes, so widening does not change them.
      have hleftCut := cut_of_le hcombines.size_le.1 hleft.size_eq hsize (hleft.cut_fold hl)
      have hrightCut := cut_of_le hcombines.size_le.2 hright.size_eq hsize (hright.cut_fold hr)
      exact hleftCut.symm ▸ hrightCut.symm ▸ hvalue

/-! ## Initial values -/

/-- The number that data is. -/
def Data.number? : Data → Option UInt16
  | byte value | word value => some (.ofNat value)
  | space _ | address _ | text _ => none

/-- A global variable begins with the value of its constant, cut to its size. -/
theorem Declaration.data_ensures {declared : Declaration} {e : Expr} {value : UInt16}
    (hinitial : declared.initial = some e) (hvalue : e.fold = some value)
    (hsize : declared.symbol.type.size = 1 ∨ declared.symbol.type.size = 2) (state : LowerState) :
    Ensures declared.data state fun data code _ =>
      code = [] ∧ data.number? = some (cut declared.symbol.type.size value) := by
  have hbyte : UInt16.ofNat (value &&& 0xff).toNat = cut 1 value := by
    rw [UInt16.ofNat_toNat, ← cutToSize_eq_cut (.inl rfl)]
    rfl
  unfold data
  rw [hinitial]
  cases e with
  | string note bytes => simp [Expr.fold] at hvalue
  | _ =>
      simp only [hvalue, ensures_ite, ensures_pure]
      refine ⟨fun hone => ⟨trivial, ?_⟩, fun hone => ⟨trivial, ?_⟩⟩
      · rw [hone]
        exact congrArg some hbyte
      · rw [hsize.resolve_left hone]
        exact congrArg some UInt16.ofNat_toNat

/-- The value that a local variable begins with, in the register from which it is stored. -/
theorem Expr.Leaves.coerce {scopes : Scopes} {scope : ScopeId} {e : Expr} {value : UInt16}
    (h : e.Leaves scopes value) (hwf : e.WellFormed scopes scope) {size : Nat}
    (hsize : size = 1 ∨ size = 2) {state : LowerState} (hfree : state.held.ConflictFree) :
    Ensures (do
      let r ← e.lower scopes
      coerce r size) state fun r code _ => ∀ (platform : Platform) (m : Machine),
      Delivers platform 2 code (fun s => state.held.contains s = true) m r (cut size value) := by
  rw [ensures_bind]
  refine ((h state hfree).and (hwf.allocates state hfree)).mono ?_
  rintro r code first ⟨hcode, hheld, -, -⟩
  refine (coerce_delivers hheld hsize).mono fun r' moves _ hmoves platform m => ?_
  obtain ⟨m₁, hquiet, hread⟩ := hcode platform m
  exact .after hquiet (hread ▸ (hmoves platform m₁).mono (Nat.zero_le 2) fun _ hs => hs)

/-- A constant that is no string has no value at compile time exactly when it contains a division
by what has the value zero or a shift of two bytes. If it has one, its code leaves that value, and
a variable of any size begins with the same number when it is global and when it is local. -/
theorem Program.constants_fold {tokens : List (Located Token)} {parsed : Parsed} {e : Expr}
    (hparsed : Program.ofTokens tokens = .ok parsed) (hmem : e ∈ parsed.program.nodes)
    (hconstant : e.note.constant = true) (hstring : e.isString = false) :
    (e.fold = none ↔ ∃ node ∈ e.nodes, node.Unfoldable) ∧
    ∀ value, e.fold = some value → e.Leaves parsed.program.scopes value ∧
      ∀ (declared : Declaration) (state : LowerState), declared.initial = some e →
        declared.symbol.type.isScalar = true → state.held.ConflictFree →
        Ensures declared.data state (fun data code _ =>
          code = [] ∧ data.number? = some (cut declared.symbol.type.size value)) ∧
        Ensures (do
          let r ← e.lower parsed.program.scopes
          Lowering.coerce r declared.symbol.type.size) state fun r code _ =>
            ∀ (platform : Platform) (m : Machine),
              Delivers platform 2 code (fun s => state.held.contains s = true) m r
                (cut declared.symbol.type.size value) := by
  have hwf := (Program.ofTokens_wellFormed hparsed).node hmem
  have hnumeric := hwf.numeric hconstant hstring
  refine ⟨hnumeric.fold_eq_none, fun value hvalue => ?_⟩
  have hleaves := hnumeric.leaves hwf hvalue
  refine ⟨hleaves, fun declared state hinitial hscalar hfree => ?_⟩
  have hsize := Ty.size_of_isScalar hscalar
  exact ⟨Declaration.data_ensures hinitial hvalue hsize state, hleaves.coerce hwf hsize hfree⟩

/-- The tokens of a program with a constant that is turned around by more than a byte,
`char turned = 3 + (200 << 9); void main() { }`. -/
def turnedTokens : List (Located Token) :=
  ([.keyword .charType, .identifier "turned", .mark .assign, .integer 3, .mark .plus,
    .mark .openParen, .integer 200, .mark .shiftLeft, .integer 9, .mark .closeParen,
    .mark .semicolon, .keyword .voidType, .identifier "main", .mark .openParen, .mark .closeParen,
    .mark .openBrace, .mark .closeBrace] : List Token).map (⟨·, .startOf "<input>"⟩)

/-- What is read from them. -/
def turned : Parsed := (Program.ofTokens turnedTokens).toOption.getD ⟨⟨[], .initial⟩, []⟩

theorem turned_read : Program.ofTokens turnedTokens = .ok turned :=
  eq_ok_of_isOk (by decide +kernel) _

theorem turned_constants_fold :
    ∃ e ∈ turned.program.nodes, e.note.constant = true ∧ e.isString = false ∧
      e.fold = some 148 ∧ e.Leaves turned.program.scopes 148 := by
  have hfound : (turned.program.nodes.any fun e =>
      e.note.constant && !e.isString && e.fold == some 148) = true := by decide +kernel
  obtain ⟨e, hmem, he⟩ := List.any_eq_true.mp hfound
  simp only [Bool.and_eq_true, Bool.not_eq_true', beq_iff_eq] at he
  obtain ⟨⟨hconstant, hstring⟩, hvalue⟩ := he
  exact ⟨e, hmem, hconstant, hstring, hvalue,
    ((Program.constants_fold turned_read hmem hconstant hstring).2 148 hvalue).1⟩

end AccumulatorC
