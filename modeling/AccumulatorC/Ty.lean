/-!
# Types

The types of the language. A value of one byte is a character, every other value
takes two bytes, and `void` takes none. Two types are equal when they are built in
the same way.
-/

namespace AccumulatorC

/-- A type. -/
inductive Ty
  | void
  | char
  | int
  | pointer (base : Ty)
  | function (result : Ty) (parameters : List Ty)
  deriving Repr

namespace Ty

mutual

/-- Whether two types are built in the same way. -/
def same : Ty → Ty → Bool
  | .void, .void => true
  | .char, .char => true
  | .int, .int => true
  | .pointer a, .pointer b => same a b
  | .function a as, .function b bs => same a b && sameAll as bs
  | _, _ => false

/-- Whether two lists of types are the same, one by one. -/
def sameAll : List Ty → List Ty → Bool
  | [], [] => true
  | a :: as, b :: bs => same a b && sameAll as bs
  | _, _ => false

end

mutual

/-- The comparison of types decides whether they are equal. -/
theorem same_iff : ∀ a b : Ty, same a b = true ↔ a = b
  | .void, b => by cases b <;> simp [same]
  | .char, b => by cases b <;> simp [same]
  | .int, b => by cases b <;> simp [same]
  | .pointer a, b => by
      cases b with
      | pointer b => simp [same, same_iff a b]
      | _ => simp [same]
  | .function a as, b => by
      cases b with
      | function b bs => simp [same, same_iff a b, sameAll_iff as bs]
      | _ => simp [same]

theorem sameAll_iff : ∀ as bs : List Ty, sameAll as bs = true ↔ as = bs
  | [], bs => by cases bs <;> simp [sameAll]
  | a :: as, bs => by
      cases bs with
      | nil => simp [sameAll]
      | cons b bs => simp [sameAll, same_iff a b, sameAll_iff as bs]

end

instance : DecidableEq Ty := fun a b => decidable_of_iff _ (same_iff a b)

/-- Bytes that a value of the type takes. Pointers and functions are addresses. -/
def size : Ty → Nat
  | .void => 0
  | .char => 1
  | .int | .pointer _ | .function _ _ => 2

/-- Whether the type has no values. -/
def isVoid : Ty → Bool
  | .void => true
  | _ => false

/-- Whether the type is that of a function. -/
def isFunction : Ty → Bool
  | .function _ _ => true
  | _ => false

/-- What a pointer points to. -/
def base? : Ty → Option Ty
  | .pointer base => some base
  | _ => none

/-- The types whose values can be stored and calculated with. -/
def isScalar : Ty → Bool
  | .char | .int | .pointer _ => true
  | _ => false

mutual

/-- How a type is written: stars and parameter lists follow what they apply to. -/
def text : Ty → String
  | .void => "void"
  | .char => "char"
  | .int => "int"
  | .pointer base => base.text ++ "*"
  | .function result parameters => result.text ++ "(" ++ listText parameters ++ ")"

/-- Types separated by commas. -/
def listText : List Ty → String
  | [] => ""
  | [only] => only.text
  | first :: rest => first.text ++ ", " ++ listText rest

end

end Ty

end AccumulatorC
