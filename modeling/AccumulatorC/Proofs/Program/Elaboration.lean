import AccumulatorC.Proofs.Program.Parser.Expression
import AccumulatorC.Proofs.Program.Term
import AccumulatorC.Proofs.Program.Unplaced

/-!
# The typed trees of terms

A term elaborates to a typed expression: its names are resolved to symbols, steps become assignments
of neighbouring values, and every node carries its type, whether it is built from literals alone, and
its scope. The conversions that happen on the way are noted from left to right. The rules that the
parser builds by are these.
-/

namespace AccumulatorC

/-- Warnings that are nowhere. -/
def placeless (warnings : List Conversion) : List (Located Conversion) :=
  warnings.map (⟨·, nowhere⟩)

@[simp] theorem placeless_append (warnings more : List Conversion) :
    placeless (warnings ++ more) = placeless warnings ++ placeless more := List.map_append

/-- Values can be stored one by one, with these warnings. -/
inductive Ty.Stores : List Ty → List Ty → List Conversion → Prop
  | nil : Stores [] [] []
  | cons {target value : Ty} {targets values : List Ty} {warning : Option Conversion}
      {warnings : List Conversion} (hassign : target.assign value = .ok warning)
      (hrest : Stores targets values warnings) :
      Stores (target :: targets) (value :: values) (warning.toList ++ warnings)

/-- There are as many values as targets. -/
theorem Ty.Stores.length_eq {targets values : List Ty} {warnings : List Conversion}
    (h : Ty.Stores targets values warnings) : targets.length = values.length := by
  induction h with
  | nil => rfl
  | cons _ _ ih => rw [List.length_cons, List.length_cons, ih]

/-- A term elaborates to an expression in a scope in which names mean symbols. -/
inductive Term.Elaborates (meaning : String → Option Symbol) (scope : ScopeId) :
    Term → Expr → List Conversion → Prop
  | integer (value : UInt16) :
      Elaborates meaning scope (.integer value)
        (.number ⟨if value ≤ 0xff then .char else .int, scope, true, nowhere⟩ value) []
  | character (byte : UInt8) :
      Elaborates meaning scope (.character byte)
        (.number ⟨.char, scope, true, nowhere⟩ byte.toUInt16) []
  | string (bytes : List UInt8) :
      Elaborates meaning scope (.string bytes)
        (.string ⟨.pointer .char, scope, true, nowhere⟩ bytes) []
  | name {text : String} {symbol : Symbol} (hmeaning : meaning text = some symbol)
      (hvariable : symbol.type.isFunction = false) :
      Elaborates meaning scope (.name text) (.name ⟨symbol.type, scope, false, nowhere⟩ symbol) []
  | call {text : String} {symbol : Symbol} {result : Ty} {parameters : List Ty}
      {arguments : List (Term × Expr × List Conversion)} {warnings : List Conversion}
      (hmeaning : meaning text = some symbol) (htype : symbol.type = .function result parameters)
      (harguments : ∀ argument ∈ arguments,
        Elaborates meaning scope argument.1 argument.2.1 argument.2.2)
      (hstores : Ty.Stores parameters (arguments.map (·.2.1.type)) warnings) :
      Elaborates meaning scope (.call text (arguments.map (·.1)))
        (.call ⟨result, scope, false, nowhere⟩ symbol (arguments.map (·.2.1)))
        (arguments.flatMap (·.2.2) ++ warnings)
  /-- A step after its operand goes back from the value that is assigned. -/
  | trailing {t : Term} {e : Expr} {warnings : List Conversion} (step : Step)
      (hplace : e.isPlace = true) (hscalar : e.type.isScalar = true)
      (h : Elaborates meaning scope t e warnings) :
      Elaborates meaning scope (.trailing step t)
        (.unary ⟨e.type, scope, false, nowhere⟩ step.back
          (.assign ⟨e.type, scope, false, nowhere⟩ e
            (.unary ⟨e.type, scope, false, nowhere⟩ step.op e))) warnings
  /-- A step before its operand assigns the neighbouring value. -/
  | stepping {t : Term} {e : Expr} {warnings : List Conversion} (step : Step)
      (hplace : e.isPlace = true) (hscalar : e.type.isScalar = true)
      (h : Elaborates meaning scope t e warnings) :
      Elaborates meaning scope (.leading step.op t)
        (.assign ⟨e.type, scope, false, nowhere⟩ e
          (.unary ⟨e.type, scope, false, nowhere⟩ step.op e)) warnings
  | addressOf {t : Term} {e : Expr} {warnings : List Conversion} (hplace : e.isPlace = true)
      (h : Elaborates meaning scope t e warnings) :
      Elaborates meaning scope (.leading .addressOf t)
        (.unary ⟨.pointer e.type, scope, false, nowhere⟩ .addressOf e) warnings
  | deref {t : Term} {e : Expr} {base : Ty} {warnings : List Conversion}
      (htype : e.type = .pointer base) (h : Elaborates meaning scope t e warnings) :
      Elaborates meaning scope (.leading .deref t)
        (.unary ⟨base, scope, false, nowhere⟩ .deref e) warnings
  | signed {t : Term} {e : Expr} {warnings : List Conversion} {op : UnaryOp}
      (hop : op = .plus ∨ op = .negate) (hvalue : e.type.isVoid = false)
      (h : Elaborates meaning scope t e warnings) :
      Elaborates meaning scope (.leading op t)
        (.unary ⟨e.type, scope, e.note.constant && !e.isString, nowhere⟩ op e) warnings
  | binary {left right : Term} {l r : Expr} {type : Ty} {warning : Option Conversion}
      {before after : List Conversion} (op : BinaryOp)
      (hcommon : l.type.common r.type = .ok (type, warning))
      (hleft : Elaborates meaning scope left l before)
      (hright : Elaborates meaning scope right r after) :
      Elaborates meaning scope (.binary op left right)
        (.binary ⟨type, scope, l.note.constant && r.note.constant && !l.isString && !r.isString,
          nowhere⟩ op l r) (before ++ after ++ warning.toList)
  | assign {target value : Term} {t v : Expr} {warning : Option Conversion}
      {before after : List Conversion} (hplace : t.isPlace = true)
      (hassign : t.type.assign v.type = .ok warning)
      (htarget : Elaborates meaning scope target t before)
      (hvalue : Elaborates meaning scope value v after) :
      Elaborates meaning scope (.assign target value)
        (.assign ⟨t.type, scope, false, nowhere⟩ t v) (before ++ after ++ warning.toList)

namespace Term.Elaborates

variable {meaning : String → Option Symbol} {scope : ScopeId} {t : Term} {e : Expr}
  {warnings : List Conversion}

/-- A place is no constant. -/
theorem not_constant (h : Elaborates meaning scope t e warnings) (hplace : e.isPlace = true) :
    e.note.constant = false := by
  cases h with
  | name => rfl
  | deref => rfl
  | trailing step => cases step <;> cases hplace
  | signed hop => rcases hop with rfl | rfl <;> cases hplace
  | _ => cases hplace

theorem location_eq (h : Elaborates meaning scope t e warnings) : e.location = nowhere := by
  cases h <;> rfl

end Term.Elaborates

/-! ## The rules -/

namespace Ty

/-- Scalar types can be assigned to themselves without a warning, and no others can. -/
theorem assign_eq_ok_self {type : Ty} {warning : Option Conversion} :
    type.assign type = .ok warning ↔ type.isScalar = true ∧ warning = none := by
  cases type <;> simp [assign, isScalar, eq_comm]

theorem not_void_of_common {left right type : Ty} {warning : Option Conversion}
    (h : left.common right = .ok (type, warning)) : left.isVoid = false ∧ right.isVoid = false := by
  obtain ⟨hleft, hright, -⟩ := Combines.isScalar ⟨warning, h⟩
  exact ⟨isVoid_of_isScalar hleft, isVoid_of_isScalar hright⟩

theorem not_void_of_assign {target value : Ty} {warning : Option Conversion}
    (h : target.assign value = .ok warning) : value.isVoid = false :=
  isVoid_of_isScalar (Accepts.isScalar ⟨warning, h⟩).2

end Ty

namespace Checked

theorem noted_nowhere (warning : Option Conversion) :
    noted warning nowhere = placeless warning.toList := rfl

/-- Without places, binding a value gives the warning of its type rule. -/
theorem bindValue_eq_ok {type : Ty} {value : Expr} {list : List (Located Conversion)}
    (hnowhere : value.location = nowhere) :
    bindValue type value = .ok list ↔
      ∃ warning, type.assign value.type = .ok warning ∧ list = placeless warning.toList := by
  simp only [bindValue, bind_eq_ok, Expr.requireValue_eq_ok, Expr.ofTypes_eq_ok, pure_eq_ok, hnowhere,
    noted_nowhere]
  constructor
  · rintro ⟨_, -, warning, hassign, rfl⟩
    exact ⟨warning, hassign, rfl⟩
  · rintro ⟨warning, hassign, rfl⟩
    exact ⟨(), Ty.not_void_of_assign hassign, warning, hassign, rfl⟩

/-- The same for several values. -/
theorem bindValues_eq_ok {types : List Ty} {values : List Expr} {list : List (Located Conversion)}
    (hlength : values.length = types.length) (hnowhere : ∀ value ∈ values, value.location = nowhere) :
    bindValues types values = .ok list ↔
      ∃ warnings, Ty.Stores types (values.map (·.type)) warnings ∧ list = placeless warnings := by
  induction types generalizing values list with
  | nil =>
      obtain rfl := List.length_eq_zero_iff.mp hlength
      simp only [bindValues, Except.ok.injEq, List.map_nil]
      constructor
      · rintro rfl
        exact ⟨[], .nil, rfl⟩
      · rintro ⟨_, ⟨⟩, rfl⟩
        rfl
  | cons type types ih =>
      cases values with
      | nil => cases hlength
      | cons value values =>
          obtain ⟨hvalue, hvalues⟩ := List.forall_mem_cons.mp hnowhere
          simp only [bindValues, bind_eq_ok, pure_eq_ok, bindValue_eq_ok hvalue,
            ih (Nat.succ.inj hlength) hvalues, List.map_cons]
          constructor
          · rintro ⟨_, ⟨warning, hassign, rfl⟩, _, ⟨warnings, hstores, rfl⟩, rfl⟩
            exact ⟨_, .cons hassign hstores, (placeless_append _ _).symm⟩
          · rintro ⟨_, ⟨⟩ | ⟨hassign, hstores⟩, rfl⟩
            exact ⟨_, ⟨_, hassign, rfl⟩, _, ⟨_, hstores, rfl⟩, (placeless_append _ _).symm⟩

end Checked

namespace Expr

open Checked

variable {scope : ScopeId} {noted : Noted Expr}

/-- An assignment is built exactly if its target is a place that the value can be stored in. -/
theorem assigned_eq_ok_iff {target value : Expr} :
    assigned scope nowhere target value = .ok noted ↔
      target.isPlace = true ∧ ∃ warning, target.type.assign value.type = .ok warning ∧
        noted = ⟨.assign ⟨target.type, scope, false, nowhere⟩ target value,
          placeless warning.toList⟩ := by
  unfold assigned
  split
  next hplace =>
    simp only [bind_eq_ok, requireValue_eq_ok, ofTypes_eq_ok, pure_eq_ok, noted_nowhere, hplace,
      true_and]
    constructor
    · rintro ⟨_, -, warning, hassign, rfl⟩
      exact ⟨warning, hassign, rfl⟩
    · rintro ⟨warning, hassign, rfl⟩
      exact ⟨(), Ty.not_void_of_assign hassign, warning, hassign, rfl⟩
  next hplace => simp [hplace]

/-- Two operands are combined exactly if they have a common type. -/
theorem combined_eq_ok_iff {op : BinaryOp} {left right : Expr} :
    combined scope nowhere op left right = .ok noted ↔
      ∃ type warning, left.type.common right.type = .ok (type, warning) ∧
        noted = ⟨.binary ⟨type, scope,
          left.note.constant && right.note.constant && !left.isString && !right.isString, nowhere⟩
          op left right, placeless warning.toList⟩ := by
  simp only [combined, bind_eq_ok, requireValue_eq_ok, ofTypes_eq_ok, pure_eq_ok, noted_nowhere]
  constructor
  · rintro ⟨_, -, _, -, ⟨type, warning⟩, hcommon, rfl⟩
    exact ⟨type, warning, hcommon, rfl⟩
  · rintro ⟨type, warning, hcommon, rfl⟩
    obtain ⟨hleft, hright⟩ := Ty.not_void_of_common hcommon
    exact ⟨(), hleft, (), hright, (type, warning), hcommon, rfl⟩

theorem applied_addressOf_eq_ok_iff {operand : Expr} :
    applied scope nowhere .addressOf operand = .ok noted ↔
      operand.isPlace = true ∧
        noted = ⟨.unary ⟨.pointer operand.type, scope, false, nowhere⟩ .addressOf operand, []⟩ := by
  simp only [applied]
  split
  next hplace => simp [hplace, eq_comm]
  next hplace => simp [hplace]

theorem applied_deref_eq_ok_iff {operand : Expr} :
    applied scope nowhere .deref operand = .ok noted ↔
      ∃ base, operand.type = .pointer base ∧
        noted = ⟨.unary ⟨base, scope, false, nowhere⟩ .deref operand, []⟩ := by
  simp only [applied]
  cases operand.type <;> simp [Ty.base?, eq_comm]

theorem applied_keeping_eq_ok_iff {op : UnaryOp} (hop : op.keepsType = true) {operand : Expr} :
    applied scope nowhere op operand = .ok noted ↔
      operand.type.isVoid = false ∧
        noted = ⟨.unary ⟨operand.type, scope, operand.note.constant && !operand.isString, nowhere⟩ op
          operand, []⟩ := by
  cases op <;> cases hop
  all_goals
    simp only [applied, bind_eq_ok, requireValue_eq_ok, pure_eq_ok]
    constructor
    · rintro ⟨_, hvalue, rfl⟩
      exact ⟨hvalue, rfl⟩
    · rintro ⟨hvalue, rfl⟩
      exact ⟨(), hvalue, rfl⟩

theorem stepped_eq_ok_iff {step : Step} {target : Expr}
    (hconstant : target.isPlace = true → target.note.constant = false) :
    stepped scope nowhere step.op target = .ok noted ↔
      target.isPlace = true ∧ target.type.isScalar = true ∧
        noted = ⟨.assign ⟨target.type, scope, false, nowhere⟩ target
          (.unary ⟨target.type, scope, false, nowhere⟩ step.op target), []⟩ := by
  unfold stepped
  split
  next hplace =>
    have hkeeps : step.op.keepsType = true := by cases step <;> rfl
    simp only [bind_eq_ok, pure_eq_ok, applied_keeping_eq_ok_iff hkeeps, assigned_eq_ok_iff, hplace,
      hconstant hplace, Bool.false_and, true_and]
    constructor
    · rintro ⟨_, ⟨-, rfl⟩, _, ⟨warning, hassign, rfl⟩, rfl⟩
      obtain ⟨hscalar, rfl⟩ := Ty.assign_eq_ok_self.mp hassign
      exact ⟨hscalar, rfl⟩
    · rintro ⟨hscalar, rfl⟩
      exact ⟨_, ⟨Ty.isVoid_of_isScalar hscalar, rfl⟩, _,
        ⟨none, Ty.assign_eq_ok_self.mpr ⟨hscalar, rfl⟩, rfl⟩, rfl⟩
  next hplace => simp [hplace]

theorem steppedAfter_eq_ok_iff {step : Step} {target : Expr}
    (hconstant : target.isPlace = true → target.note.constant = false) :
    steppedAfter scope nowhere step.op step.back target = .ok noted ↔
      target.isPlace = true ∧ target.type.isScalar = true ∧
        noted = ⟨.unary ⟨target.type, scope, false, nowhere⟩ step.back
          (.assign ⟨target.type, scope, false, nowhere⟩ target
            (.unary ⟨target.type, scope, false, nowhere⟩ step.op target)), []⟩ := by
  have hkeeps : step.back.keepsType = true := by cases step <;> rfl
  simp only [steppedAfter, bind_eq_ok, pure_eq_ok, stepped_eq_ok_iff hconstant,
    applied_keeping_eq_ok_iff hkeeps]
  constructor
  · rintro ⟨_, ⟨hplace, hscalar, rfl⟩, _, ⟨-, rfl⟩, rfl⟩
    exact ⟨hplace, hscalar, rfl⟩
  · rintro ⟨hplace, hscalar, rfl⟩
    exact ⟨_, ⟨hplace, hscalar, rfl⟩, _, ⟨Ty.isVoid_of_isScalar hscalar, rfl⟩, rfl⟩

/-- A call is built exactly if its arguments can be stored in the parameters. -/
theorem called_eq_ok_iff {function : Symbol} {result : Ty} {parameters : List Ty}
    {arguments : List Expr} (hnowhere : ∀ argument ∈ arguments, argument.location = nowhere) :
    called scope nowhere function result parameters arguments = .ok noted ↔
      ∃ warnings, Ty.Stores parameters (arguments.map (·.type)) warnings ∧
        noted = ⟨.call ⟨result, scope, false, nowhere⟩ function arguments, placeless warnings⟩ := by
  unfold called
  split
  next hlength =>
    simp only [bind_eq_ok, pure_eq_ok, bindValues_eq_ok hlength hnowhere]
    constructor
    · rintro ⟨_, ⟨warnings, hstores, rfl⟩, rfl⟩
      exact ⟨warnings, hstores, rfl⟩
    · rintro ⟨warnings, hstores, rfl⟩
      exact ⟨_, ⟨warnings, hstores, rfl⟩, rfl⟩
  next hlength =>
    have hnone : ∀ warnings, ¬ Ty.Stores parameters (arguments.map (·.type)) warnings :=
      fun warnings hstores => hlength (by rw [hstores.length_eq, List.length_map])
    simp [hnone]

end Expr

end AccumulatorC
