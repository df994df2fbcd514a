import Mathlib.Data.List.Basic
import AccumulatorC.Proofs.Machine.Code

/-!
# The stack along the paths of a code

A path follows the instructions of a code and takes either outcome of a conditional jump. It
keeps the displacement of the stack pointer and the sizes of what has been put on the stack. A
flow gives every place of a code, and every label, one shape of the stack; along a path the
stack has the shape that the flow gives to the place.
-/

namespace AccumulatorC

/-- The sizes of what has been put on the stack, the latest first. -/
abbrev Shape := List Nat

/-- The shape after so many bytes have been taken off. -/
def Shape.drop : Nat → Shape → Shape
  | 0, shape => shape
  | _ + 1, [] => []
  | bytes + 1, size :: shape => Shape.drop (bytes + 1 - size) shape

/-- Whole entries are taken off by the bytes that they have together. -/
theorem Shape.drop_append {top : Shape} (h : ∀ size ∈ top, 0 < size) (shape : Shape) :
    Shape.drop top.sum (top ++ shape) = shape := by
  induction top with
  | nil => simp [Shape.drop]
  | cons size top ih =>
      have hpos := h size List.mem_cons_self
      obtain ⟨n, hn⟩ : ∃ n, (size :: top).sum = n + 1 := by
        refine ⟨size + top.sum - 1, ?_⟩
        rw [List.sum_cons]
        omega
      have hrest : n + 1 - size = top.sum := by
        rw [← hn, List.sum_cons]
        omega
      rw [hn, List.cons_append, Shape.drop, hrest]
      exact ih fun s hs => h s (List.mem_cons_of_mem _ hs)

namespace Instr

/-- The distance from the stack pointer of an operand that is found there. -/
def stackOperand? : Instr → Option Nat
  | setAddress _ (.stack offset) | load _ (.stack offset) | store (.stack offset) _ => some offset
  | _ => none

/-- What has been put on the stack after the instruction. -/
def reshape : Instr → Shape → Shape
  | push r, shape => r.size :: shape
  | pop _, shape => shape.tail
  | reserve bytes, shape => bytes :: shape
  | release bytes, shape => shape.drop bytes
  | _, shape => shape

/-- Whether the following line can come next. -/
def continues : Instr → Bool
  | jump .always _ | skip _ _ | ret => false
  | _ => true

/-- Instructions that neither jump nor touch the stack. -/
def isPlain : Instr → Bool
  | setNumber _ _ | setLabel _ _ | copy _ _ | accumulate _ _ | combine _ _ _ | increment _
  | decrement _ | rotate | call _ => true
  | setAddress _ address | load _ address | store address _ =>
      match address with
      | .stack _ => false
      | .label _ _ | .indirect _ => true
  | _ => false

/-- Plain instructions neither push nor pop. -/
theorem neutral_of_isPlain {i : Instr} (h : i.isPlain = true) :
    i.rise = 0 ∧ ∀ shape, i.reshape shape = shape := by
  cases i <;> simp_all [isPlain, rise, reshape]

theorem neutral_of_stackOperand {i : Instr} {offset : Nat} (h : i.stackOperand? = some offset) :
    i.rise = 0 ∧ ∀ shape, i.reshape shape = shape := by
  cases i <;> simp_all [stackOperand?, rise, reshape]

end Instr

namespace Line

def stackOperand? : Line → Option Nat
  | instr i => i.stackOperand?
  | label _ | data _ => none

def reshape : Line → Shape → Shape
  | instr i, shape => i.reshape shape
  | label _, shape | data _, shape => shape

def continues : Line → Bool
  | instr i => i.continues
  | label _ | data _ => true

end Line

/-- The places that are reached in a code from its start: the number of the line to come, the
displacement of the stack pointer, and what has been put on the stack. -/
inductive Route (code : List Line) : Nat → Int → Shape → Prop
  | start : Route code 0 0 []
  | next {place : Nat} {displacement : Int} {shape : Shape} {line : Line}
      (h : Route code place displacement shape) (hline : code[place]? = some line)
      (hnext : line.continues = true) :
      Route code (place + 1) (displacement + line.rise) (line.reshape shape)
  | jump {place target : Nat} {displacement : Int} {shape : Shape} {condition : Condition}
      {l : Label} (h : Route code place displacement shape)
      (hline : code[place]? = some (.instr (.jump condition l)))
      (htarget : code[target]? = some (.label l)) :
      Route code target displacement shape

/-! ## Flows -/

/-- The shapes at labels. -/
abbrev LabelShapes := List (Label × Shape)

/-- A line takes one shape to another. What follows a jump or a return is not reached from it, so
it may have any shape. -/
inductive Line.Flows (shapes : LabelShapes) : Shape → Line → Shape → Prop
  | label {l : Label} {shape : Shape} (h : (l, shape) ∈ shapes) : Flows shapes shape (.label l) shape
  | data {d : Data} {shape : Shape} : Flows shapes shape (.data d) shape
  | plain {i : Instr} {shape : Shape} (h : i.isPlain = true) : Flows shapes shape (.instr i) shape
  | operand {i : Instr} {shape : Shape} {offset : Nat} (h : i.stackOperand? = some offset) :
      Flows shapes shape (.instr i) shape
  | push {r : Reg} {shape : Shape} : Flows shapes shape (.instr (.push r)) (r.size :: shape)
  | pop {r : Reg} {shape : Shape} : Flows shapes (r.size :: shape) (.instr (.pop r)) shape
  | reserve {bytes : Nat} {shape : Shape} :
      Flows shapes shape (.instr (.reserve bytes)) (bytes :: shape)
  | release {top shape : Shape} (h : ∀ size ∈ top, 0 < size) :
      Flows shapes (top ++ shape) (.instr (.release top.sum)) shape
  | branch {condition : Condition} {l : Label} {shape : Shape} (h : (l, shape) ∈ shapes) :
      Flows shapes shape (.instr (.jump condition l)) shape
  | jump {l : Label} {shape other : Shape} (h : (l, shape) ∈ shapes) :
      Flows shapes shape (.instr (.jump .always l)) other
  | ret {other : Shape} : Flows shapes [] (.instr .ret) other

/-- The distances of stack operands from the stack pointer, each with the shape of the stack. -/
abbrev Operands := List (Nat × Shape)

/-- The stack operand of a line. -/
def Line.operands (line : Line) (shape : Shape) : Operands :=
  line.stackOperand?.toList.map fun offset => (offset, shape)

/-- A code takes one shape to another, and has the given stack operands in their order. -/
inductive Flow (shapes : LabelShapes) : Shape → List Line → Shape → Operands → Prop
  | nil {shape : Shape} : Flow shapes shape [] shape []
  | cons {first second third : Shape} {line : Line} {code : List Line} {operands : Operands}
      (hline : line.Flows shapes first second) (hcode : Flow shapes second code third operands) :
      Flow shapes first (line :: code) third (line.operands first ++ operands)

namespace Flow

variable {shapes more : LabelShapes} {first second third : Shape} {code rest : List Line}
  {operands others : Operands}

theorem append (h : Flow shapes first code second operands)
    (h' : Flow shapes second rest third others) :
    Flow shapes first (code ++ rest) third (operands ++ others) := by
  induction h with
  | nil => exact h'
  | cons hline _ ih =>
      rw [List.cons_append, List.append_assoc]
      exact .cons hline (ih h')

/-- More shapes can be allowed at the labels. -/
theorem mono (h : Flow shapes first code second operands) (hsub : ∀ p ∈ shapes, p ∈ more) :
    Flow more first code second operands := by
  induction h with
  | nil => exact .nil
  | cons hline _ ih =>
      refine .cons ?_ ih
      cases hline with
      | label h => exact .label (hsub _ h)
      | data => exact .data
      | plain h => exact .plain h
      | operand h => exact .operand h
      | push => exact .push
      | pop => exact .pop
      | reserve => exact .reserve
      | release h => exact .release h
      | branch h => exact .branch (hsub _ h)
      | jump h => exact .jump (hsub _ h)
      | ret => exact .ret

theorem single {line : Line} (h : line.Flows shapes first second) :
    Flow shapes first [line] second (line.operands first) := by
  have hnil : Flow shapes second [] second [] := .nil
  have hcons := Flow.cons h hnil
  rwa [List.append_nil] at hcons

theorem length_operands (h : Flow shapes first code second operands) :
    operands.length = (code.filterMap Line.stackOperand?).length := by
  induction h with
  | nil => rfl
  | @cons _ _ _ line _ _ _ _ ih =>
      rw [List.length_append, ih, Line.operands, List.length_map, List.filterMap_cons]
      cases line.stackOperand? with
      | none => simp
      | some offset => simp [Nat.add_comm]

/-- The stack operands of a code before a place. -/
def operandsBefore (code : List Line) (place : Nat) : Nat :=
  ((code.take place).filterMap Line.stackOperand?).length

/-- The shapes at the places of a code. -/
theorem shapeAt (h : Flow shapes first code second operands) :
    ∃ shapeAt : Nat → Shape, shapeAt 0 = first ∧
      ∀ (place : Nat) (line : Line), code[place]? = some line →
        line.Flows shapes (shapeAt place) (shapeAt (place + 1)) ∧
        ∀ offset : Nat, line.stackOperand? = some offset →
          operands[operandsBefore code place]? = some (offset, shapeAt place) := by
  induction h with
  | @nil shape => exact ⟨fun _ => shape, rfl, by simp⟩
  | @cons first second third line code operands hline hcode ih =>
      obtain ⟨rest, hfirst, hrest⟩ := ih
      refine ⟨fun place => place.casesOn first rest, rfl, fun place found hfound => ?_⟩
      cases place with
      | zero =>
          simp only [List.getElem?_cons_zero, Option.some.injEq] at hfound
          subst hfound
          refine ⟨by rw [← hfirst] at hline; exact hline, fun offset hoffset => ?_⟩
          have hown : line.operands first = [(offset, first)] := by
            simp [Line.operands, hoffset]
          rw [hown]
          rfl
      | succ place =>
          simp only [List.getElem?_cons_succ] at hfound
          obtain ⟨hflows, hoperand⟩ := hrest place found hfound
          refine ⟨hflows, fun offset hoffset => ?_⟩
          have hbefore : operandsBefore (line :: code) (place + 1) =
              (line.operands first).length + operandsBefore code place := by
            unfold operandsBefore Line.operands
            rw [List.take_succ_cons, List.filterMap_cons]
            cases line.stackOperand? with
            | none => simp
            | some offset => simp [Nat.add_comm]
          rw [hbefore, List.getElem?_append_right (Nat.le_add_right _ _), Nat.add_sub_cancel_left]
          exact hoperand offset hoffset

end Flow

/-- Along every path of a flowing code the stack has the shape of the place. -/
theorem Route.shape_eq {shapes : LabelShapes} {code : List Line} {shapeAt : Nat → Shape}
    (hlabels : ∀ l shape shape', (l, shape) ∈ shapes → (l, shape') ∈ shapes → shape = shape')
    (hstart : shapeAt 0 = [])
    (hflows : ∀ (place : Nat) (line : Line), code[place]? = some line →
      line.Flows shapes (shapeAt place) (shapeAt (place + 1)))
    {place : Nat} {displacement : Int} {shape : Shape} (h : Route code place displacement shape) :
    shape = shapeAt place ∧ displacement = -((shapeAt place).sum : Int) := by
  induction h with
  | start => simp [hstart]
  | @next place displacement shape line h hline hnext ih =>
      obtain ⟨rfl, rfl⟩ := ih
      have hline := hflows place line hline
      generalize shapeAt place = first at *
      generalize shapeAt (place + 1) = second at *
      cases hline with
      | label => exact ⟨rfl, by simp [Line.rise]⟩
      | data => exact ⟨rfl, by simp [Line.rise]⟩
      | @plain i _ hplain =>
          obtain ⟨hrise, hshape⟩ := Instr.neutral_of_isPlain hplain
          exact ⟨hshape first, by simp [Line.rise, hrise]⟩
      | @operand i _ _ hoperand =>
          obtain ⟨hrise, hshape⟩ := Instr.neutral_of_stackOperand hoperand
          exact ⟨hshape first, by simp [Line.rise, hrise]⟩
      | push =>
          refine ⟨rfl, ?_⟩
          simp only [Line.rise, Instr.rise, List.sum_cons]
          omega
      | pop =>
          refine ⟨rfl, ?_⟩
          simp only [Line.rise, Instr.rise, List.sum_cons]
          omega
      | reserve =>
          refine ⟨rfl, ?_⟩
          simp only [Line.rise, Instr.rise, List.sum_cons]
          omega
      | release hpos =>
          refine ⟨Shape.drop_append hpos _, ?_⟩
          simp only [Line.rise, Instr.rise, List.sum_append]
          omega
      | branch => exact ⟨rfl, by simp [Line.rise, Instr.rise]⟩
      | jump => cases hnext
      | ret => cases hnext
  | @jump place target displacement shape condition l h hline htarget ih =>
      obtain ⟨rfl, rfl⟩ := ih
      have hsource : (l, shapeAt place) ∈ shapes := by
        have hline := hflows place _ hline
        generalize shapeAt place = first at *
        generalize shapeAt (place + 1) = second at *
        cases hline with
        | plain hplain => cases hplain
        | operand hoperand => cases hoperand
        | branch hmem => exact hmem
        | jump hmem => exact hmem
      have htarget : (l, shapeAt target) ∈ shapes := by
        have hline := hflows target _ htarget
        generalize shapeAt target = first at *
        generalize shapeAt (target + 1) = second at *
        cases hline with
        | label hmem => exact hmem
      have hsame := hlabels l _ _ hsource htarget
      rw [hsame]
      exact ⟨rfl, rfl⟩

/-- The stack discipline of the code of a function: it jumps to its own labels only, at every
place the displacement is the same on all paths and not positive, what is popped is what was
pushed last, and a return finds the stack as it was at the start. -/
structure Disciplined (code : List Line) : Prop where
  resolved : ∀ (condition : Condition) (l : Label), .instr (.jump condition l) ∈ code →
    .label l ∈ code
  same : ∀ (place : Nat) (displacement displacement' : Int) (shape shape' : Shape),
    Route code place displacement shape → Route code place displacement' shape' →
    displacement = displacement'
  nonpositive : ∀ (place : Nat) (displacement : Int) (shape : Shape),
    Route code place displacement shape → displacement ≤ 0
  popped : ∀ (place : Nat) (displacement : Int) (shape : Shape) (r : Reg),
    Route code place displacement shape → code[place]? = some (.instr (.pop r)) →
    shape.head? = some r.size
  returned : ∀ (place : Nat) (displacement : Int) (shape : Shape),
    Route code place displacement shape → code[place]? = some (.instr .ret) → displacement = 0

/-- A code that flows from an empty stack keeps the stack discipline. -/
theorem Flow.disciplined {shapes : LabelShapes} {code : List Line} {last : Shape}
    {operands : Operands} (h : Flow shapes [] code last operands)
    (hlabels : ∀ l shape shape', (l, shape) ∈ shapes → (l, shape') ∈ shapes → shape = shape')
    (hown : ∀ p ∈ shapes, .label p.1 ∈ code) : Disciplined code := by
  obtain ⟨shapeAt, hstart, hflows⟩ := h.shapeAt
  have hpath := fun {place displacement shape} (hp : Route code place displacement shape) =>
    hp.shape_eq hlabels hstart fun place line hline => (hflows place line hline).1
  constructor
  · intro condition l hjump
    obtain ⟨place, hplace⟩ := List.getElem?_of_mem hjump
    have hline := (hflows place _ hplace).1
    generalize shapeAt place = first at *
    generalize shapeAt (place + 1) = second at *
    cases hline with
    | plain hplain => cases hplain
    | operand hoperand => cases hoperand
    | branch hmem => exact hown _ hmem
    | jump hmem => exact hown _ hmem
  · intro place displacement displacement' shape shape' hp hp'
    rw [(hpath hp).2, (hpath hp').2]
  · intro place displacement shape hp
    rw [(hpath hp).2]
    omega
  · intro place displacement shape r hp hline
    have hshape := (hpath hp).1
    have hline := (hflows place _ hline).1
    subst hshape
    generalize shapeAt place = first at *
    generalize shapeAt (place + 1) = second at *
    cases hline with
    | plain hplain => cases hplain
    | operand hoperand => cases hoperand
    | pop => rfl
  · intro place displacement shape hp hline
    have hdisplacement := (hpath hp).2
    have hline := (hflows place _ hline).1
    subst hdisplacement
    generalize shapeAt place = first at *
    generalize shapeAt (place + 1) = second at *
    cases hline with
    | plain hplain => cases hplain
    | operand hoperand => cases hoperand
    | ret => rfl

end AccumulatorC
