import AccumulatorC.Ty

/-!
# Conversions

Which types combine and which values can be stored where. Characters widen to
integers silently; conversions that may lose something, or that mix pointers with
other things, are allowed but noted.
-/

namespace AccumulatorC

/-- A combination of types that is refused. -/
inductive TypeError
  | mismatch (left right : Ty)
  | assignment (target value : Ty)
  deriving DecidableEq, Repr

/-- The text of a type error. -/
def TypeError.message : TypeError → String
  | .mismatch left right => s!"Mismatched types `{left.text}` and `{right.text}`"
  | .assignment target value => s!"Cannot assign `{value.text}` to `{target.text}`"

/-- A conversion that is allowed but worth a warning. -/
inductive Conversion
  | pointerInteger (value target : Ty)
  | pointerMismatch (left right : Ty)
  | narrowing (value target : Ty)
  deriving DecidableEq, Repr

/-- The text of a warning. -/
def Conversion.message : Conversion → String
  | .pointerInteger value target =>
      s!"Implicit conversion between `{value.text}` and `{target.text}`"
  | .pointerMismatch left right =>
      s!"Incompatible pointer types `{left.text}` and `{right.text}`"
  | .narrowing value target => s!"Implicit narrowing from `{value.text}` to `{target.text}`"

namespace Ty

/-- The type in which two operands are combined. Of two different pointers the left
one prevails, with a warning. -/
def common : Ty → Ty → Except TypeError (Ty × Option Conversion)
  | .char, .char => .ok (.char, none)
  | .int, .int | .char, .int | .int, .char => .ok (.int, none)
  | .pointer a, .pointer b =>
      .ok (.pointer a, if a = b then none else some (.pointerMismatch (.pointer a) (.pointer b)))
  | left, right => .error (.mismatch left right)

/-- Whether a value can be stored in a target, and what is noted when it can. Only
values that can be calculated with are stored. -/
def assign (target value : Ty) : Except TypeError (Option Conversion) :=
  match target, value with
  | .pointer a, .pointer b =>
      .ok (if a = b then none else some (.pointerMismatch (.pointer a) (.pointer b)))
  | .pointer _, .char | .pointer _, .int | .char, .pointer _ | .int, .pointer _ =>
      .ok (some (.pointerInteger value target))
  | .char, .int => .ok (some (.narrowing value target))
  | .char, .char | .int, .int | .int, .char => .ok none
  | _, _ => .error (.assignment target value)

end Ty

end AccumulatorC
