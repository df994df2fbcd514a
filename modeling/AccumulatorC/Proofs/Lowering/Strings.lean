import AccumulatorC.Proofs.Lowering.StatementLabels
import AccumulatorC.Proofs.Program.Nodes

/-!
# The numbers of string literals

Every string literal of an expression or a statement gets data of its own when it is lowered, and
nothing else does. So the number of a literal is found from the text before it, whichever parts of
that text are executed.
-/

namespace AccumulatorC

open Lowering

namespace Lowering

variable {α β : Type}

/-- The step numbers so many string literals. -/
def AddsStrings (n : Nat) (step : Lowering α) : Prop :=
  ∀ state, Ensures step state fun _ _ after =>
    after.labels.count .string = state.labels.count .string + n

theorem addsNone_of_marks (marked : List Label) {step : Lowering α} (h : Marks marked step) :
    AddsStrings 0 step := fun state =>
  (h state).mono fun _ _ _ hcode => by rw [hcode.2, Nat.add_zero]

/-- A step that puts no labels numbers no strings. -/
theorem Marks.addsNone {step : Lowering α} (h : Marks [] step) : AddsStrings 0 step :=
  addsNone_of_marks [] h

namespace AddsStrings

variable {n k : Nat} {step : Lowering α} {next : α → Lowering β}

theorem bind (h : AddsStrings n step) (hnext : ∀ value, AddsStrings k (next value)) :
    AddsStrings (n + k) (step >>= next) := by
  intro state
  rw [ensures_bind]
  refine (h state).mono fun value _ middle hmiddle => ?_
  exact (hnext value middle).mono fun _ _ after hafter => by rw [hafter, hmiddle, Nat.add_assoc]

/-- A step that numbers nothing comes after. -/
theorem thenNone (h : AddsStrings n step) (hnext : ∀ value, AddsStrings 0 (next value)) :
    AddsStrings n (step >>= next) := h.bind hnext

/-- A step that numbers nothing comes before. -/
theorem afterNone (h : AddsStrings 0 step) (hnext : ∀ value, AddsStrings k (next value)) :
    AddsStrings k (step >>= next) := by
  have hwhole := h.bind hnext
  rwa [Nat.zero_add] at hwhole

/-- A step that numbers labels of another family first. -/
theorem numbered {family : Family} {step : Nat → Lowering α} (hfamily : family ≠ .string)
    (h : ∀ number, AddsStrings k (step number)) : AddsStrings k (newLabel family >>= step) := by
  intro state
  rw [ensures_bind, ensures_newLabel]
  refine (h _ _).mono fun _ _ after hafter => ?_
  rw [hafter, LabelCounts.count_add, if_neg (Ne.symm hfamily)]

theorem visit {location : Location} {step : Lowering α} (h : AddsStrings n step) :
    AddsStrings n (Lowering.visit location >>= fun _ => step) :=
  (Marks.visit location).addsNone.afterNone fun _ => h

end AddsStrings

/-! ## Operations -/

theorem comparison?_ne_string {op : BinaryOp} {comparison : Comparison}
    (h : comparison? op = some comparison) : comparison.family ≠ .string := by
  cases op <;> cases h <;> decide

theorem addsNone_compare {op : BinaryOp} {comparison : Comparison}
    (h : comparison? op = some comparison) (left right : Reg) :
    AddsStrings 0 (compare comparison left right) := by
  rw [compare_eq]
  refine .numbered (comparison?_ne_string h) fun n => ?_
  by_cases hsize : left.size = 1
  · rw [if_pos hsize]
    refine addsNone_of_marks ([.yes, .no, .exit].map fun role => .inner comparison.family role n)
      (Marks.accumulate fun r => ?_)
    exact (Marks.emit _).then_ fun _ => marks_decideTruth comparison n
  · rw [if_neg hsize]
    have hpairs : Marks ([Role.decision, .yes, .no, .exit].map fun role =>
        Label.inner comparison.family role n) (comparingPairs comparison n left right) := by
      intro state
      simp [comparingPairs, decideTruth]
    refine (addsNone_of_marks _ hpairs.preservingAccumulator).thenNone fun _ => Marks.addsNone ?_
    exact (Marks.free right).then_ fun _ => Marks.pure left

/-- Operators number no strings. -/
theorem addsNone_operate (op : BinaryOp) (size : Nat) (left right : Reg) :
    AddsStrings 0 (operate op size left right) := by
  have hmultiply : AddsStrings 0 (multiply left right) := by
    rw [multiply_eq]
    refine .numbered (by decide) fun n => addsNone_of_marks
      [.inner .multiply .repetition n, .inner .multiply .exit n] (Marks.accumulate fun r state => ?_)
    simp [multiplication]
  have hdivide : AddsStrings 0 (divide left right) := by
    rw [divide_eq]
    refine .numbered (by decide) fun n => addsNone_of_marks
      [.inner .divide .repetition n, .inner .divide .step n, .inner .divide .exit n]
      (Marks.accumulate fun r state => ?_)
    simp [division]
  have hshift : ∀ toRight, AddsStrings 0 (shift toRight left right) := by
    intro toRight
    rw [shift_eq]
    refine .numbered (by cases toRight <;> decide) fun n => addsNone_of_marks
      [.inner (shiftFamily toRight) .repetition n, .inner (shiftFamily toRight) .exit n]
      (Marks.accumulate fun r state => ?_)
    cases toRight <;> simp [shifting]
  unfold operate
  split
  next comparison hcomparison => exact addsNone_compare hcomparison left right
  · split
    · cases op with
      | add | sub => exact (Marks.combine _ left right).addsNone
      | and | or => exact (Marks.halfwise _ left right).addsNone
      | mul | div | shiftLeft | shiftRight => exact (Marks.fail _).addsNone
      | _ => exact (Marks.lift (.error .malformedTree)).addsNone
    · cases op with
      | add | sub | and | or => exact (Marks.simple _ left right).addsNone
      | mul => exact hmultiply
      | div => exact hdivide
      | shiftLeft => exact hshift false
      | shiftRight => exact hshift true
      | _ => exact (Marks.lift (.error .malformedTree)).addsNone

/-- The data of a string numbers one. -/
theorem addsOne_stringData (inside : Bool) (bytes : List UInt8) :
    AddsStrings 1 (stringData inside bytes) := by
  intro state
  simp only [stringData, ensures_bind, ensures_newLabel, ensures_emit, ensures_mark, ensures_line,
    ensures_pure]
  rw [LabelCounts.count_add, if_pos rfl]

end Lowering

/-! ## Expressions -/

section Expressions

variable {scopes : Scopes} {scope : ScopeId}

theorem addsStrings_lowerArguments {parameters : List Ty} {arguments : List Expr}
    (hlength : arguments.length = parameters.length)
    (h : ∀ argument ∈ arguments, AddsStrings argument.strings (argument.lower scopes)) :
    AddsStrings ((Expr.allNodes arguments).countP Expr.isString)
      (lowerArguments scopes parameters arguments) := by
  induction arguments generalizing parameters with
  | nil =>
      have hnone : lowerArguments scopes parameters [] = pure 0 := by
        cases parameters <;> rw [lowerArguments] <;> simp
      rw [hnone]
      exact (Marks.pure _).addsNone
  | cons argument arguments ih =>
      cases parameters with
      | nil => simp at hlength
      | cons parameter parameters =>
          rw [lowerArguments, Expr.allNodes, List.countP_append]
          refine (h argument List.mem_cons_self).bind fun r => ?_
          refine (Marks.coerce r _).addsNone.afterNone fun r' => ?_
          refine (Marks.save r').addsNone.afterNone fun _ => AddsStrings.thenNone (ih ?_ ?_) ?_
          · simpa using hlength
          · exact fun argument hmem => h argument (List.mem_cons_of_mem _ hmem)
          · exact fun rest => (Marks.lift _).addsNone

theorem addsStrings_lowerCall {note : Note} {function : Symbol} {arguments : List Expr}
    (h : (Expr.call note function arguments).WellFormed scopes scope)
    (harguments : ∀ argument ∈ arguments, AddsStrings argument.strings (argument.lower scopes)) :
    AddsStrings (Expr.call note function arguments).strings
      (lowerCall scopes function arguments) := by
  have hlength : arguments.length = function.parameters.length := by
    cases h with
    | call _ _ htype _ haccepts _ => rw [Symbol.parameters_eq htype, haccepts.length_eq]
  have hstrings : (Expr.call note function arguments).strings =
      (Expr.allNodes arguments).countP Expr.isString := by
    simp [Expr.strings, Expr.nodes, Expr.isString]
  rw [hstrings]
  refine Marks.saveAll.addsNone.afterNone fun saved => ?_
  exact (addsStrings_lowerArguments hlength harguments).thenNone fun pushed =>
    (Marks.finishCall function saved pushed).addsNone

/-- Lowering an expression numbers its string literals. -/
theorem Expr.WellFormed.addsStrings {e : Expr} (h : e.WellFormed scopes scope) :
    AddsStrings e.strings (e.lower scopes) := by
  induction h using Expr.WellFormed.alongLowering with
  | number h =>
      rw [Expr.lower]
      refine .visit (Marks.addsNone ?_)
      exact (Marks.allocate _).then_ fun _ => (Marks.emit _).then_ fun _ => Marks.pure _
  | string h =>
      rw [Expr.lower]
      refine .visit ((addsOne_stringData _ _).thenNone fun _ => Marks.addsNone ?_)
      exact (Marks.allocate _).then_ fun _ => (Marks.emit _).then_ fun _ => Marks.pure _
  | name h =>
      rw [Expr.lower]
      refine .visit (Marks.addsNone ?_)
      exact (Scopes.marks_address _ _ _).then_ fun _ => (Marks.allocate _).then_ fun _ =>
        (Marks.load _ _).then_ fun _ => Marks.pure _
  | @assignName note inner symbol value h hvalue ih =>
      have hstrings : (Expr.assign note (.name inner symbol) value).strings = value.strings := by
        simp [Expr.strings, Expr.nodes, Expr.isString]
      rw [Expr.lower, hstrings]
      refine .visit (ih.thenNone fun r => Marks.addsNone ((Marks.coerce r _).then_ fun r' => ?_))
      exact (Marks.visit _).then_ fun _ => (Scopes.marks_address _ _ _).then_ fun _ =>
        (Marks.store _ _).then_ fun _ => Marks.pure _
  | @assignDeref note inner pointer value h hvalue hpointer ihvalue ihpointer =>
      have hstrings : (Expr.assign note (.unary inner .deref pointer) value).strings =
          value.strings + pointer.strings := by
        simp [Expr.strings, Expr.nodes, Expr.isString, Nat.add_comm]
      rw [Expr.lower, hstrings]
      refine .visit (ihvalue.bind fun r => (Marks.coerce r _).addsNone.afterNone fun r' => .visit ?_)
      refine ihpointer.thenNone fun pair => Marks.addsNone ?_
      exact (Marks.store _ _).then_ fun _ => (Marks.free _).then_ fun _ => Marks.pure _
  | @binary note op left right h hleft hright ihleft ihright =>
      have hstrings : (Expr.binary note op left right).strings = left.strings + right.strings := by
        simp [Expr.strings, Expr.nodes, Expr.isString]
      rw [Expr.lower, hstrings]
      refine .visit (ihleft.bind fun l => (Marks.coerce l _).addsNone.afterNone fun l' => ?_)
      exact ihright.thenNone fun r => (Marks.coerce r _).addsNone.thenNone fun r' =>
        addsNone_operate _ _ _ _
  | @addressName note inner symbol h =>
      have hstrings : (Expr.unary note .addressOf (.name inner symbol)).strings = 0 := by
        simp [Expr.strings, Expr.nodes, Expr.isString]
      rw [Expr.lower, hstrings]
      refine .visit (Marks.addsNone ?_)
      exact (Scopes.marks_address _ _ _).then_ fun _ => (Marks.allocate _).then_ fun _ =>
        (Marks.emit _).then_ fun _ => Marks.pure _
  | @addressDeref note inner pointer h hpointer ih =>
      have hstrings : (Expr.unary note .addressOf (.unary inner .deref pointer)).strings =
          pointer.strings := by
        simp [Expr.strings, Expr.nodes, Expr.isString]
      rw [Expr.lower, hstrings]
      exact .visit ih
  | @deref note operand h hoperand ih =>
      have hstrings : (Expr.unary note .deref operand).strings = operand.strings := by
        simp [Expr.strings, Expr.nodes, Expr.isString]
      rw [Expr.lower, hstrings]
      refine .visit (ih.thenNone fun pair => Marks.addsNone ?_)
      exact (Marks.allocate _).then_ fun _ => (Marks.load _ _).then_ fun _ =>
        (Marks.free _).then_ fun _ => Marks.pure _
  | @keeping note op operand h hoperand hop htype hvoid ih =>
      have hstrings : (Expr.unary note op operand).strings = operand.strings := by
        simp [Expr.strings, Expr.nodes, Expr.isString]
      cases op with
      | addressOf => cases hop
      | deref => cases hop
      | plus =>
          rw [Expr.lower, hstrings]
          exact .visit ih
      | negate =>
          rw [Expr.lower, hstrings]
          exact .visit (ih.thenNone fun r => (Marks.negate r).addsNone)
      | increment =>
          rw [Expr.lower, hstrings]
          exact .visit (ih.thenNone fun r =>
            ((Marks.stepBy _ r _).then_ fun _ => Marks.pure _).addsNone)
      | decrement =>
          rw [Expr.lower, hstrings]
          exact .visit (ih.thenNone fun r =>
            ((Marks.stepBy _ r _).then_ fun _ => Marks.pure _).addsNone)
  | call h harguments ih =>
      rw [Expr.lower_call]
      refine .visit ((addsStrings_lowerCall h ih).thenNone fun result => ?_)
      cases result with
      | none => exact (Marks.fail _).addsNone
      | some r => exact (Marks.pure r).addsNone

end Expressions

/-! ## Statements -/

section Statements

variable {frame : Frame} {scope : ScopeId}

/-- What is wrapped around a value numbers no strings besides those of the value. -/
theorem Lowering.Wraps.addsStrings {step : Lowering Unit} {lowered : Lowering Reg} {n : Nat}
    (h : step.Wraps lowered) (hlowered : AddsStrings n lowered) : AddsStrings n step := by
  obtain ⟨rest, rfl, hrest⟩ := h
  exact hlowered.thenNone fun r => (hrest r).addsNone

theorem Lowering.AddsStrings.settle {n : Nat} {step : Lowering Unit} (h : AddsStrings n step) :
    AddsStrings n (step >>= fun _ => Frame.settle) :=
  h.thenNone fun _ => Frame.marks_settle.addsNone

namespace Frame

theorem addsStrings_setInitial {declared : Declaration}
    (hinitial : ∀ value, declared.initial = some value → value.WellFormed frame.scopes scope) :
    AddsStrings (Statement.declaration declared).strings (frame.setInitial declared) := by
  rw [Statement.strings, Statement.nodes]
  cases hvalue : declared.initial with
  | none =>
      rw [setInitial, hvalue]
      exact (Marks.pure _).addsNone
  | some value => exact (setInitial_wraps hvalue).addsStrings (hinitial value hvalue).addsStrings

theorem addsStrings_discard {value : Expr} (h : value.WellFormed frame.scopes scope) :
    AddsStrings value.strings (frame.discard value) := by
  have hvalue : AddsStrings value.strings (some <$> value.lower frame.scopes) := by
    intro state
    rw [ensures_map]
    exact h.addsStrings state
  rw [discard_eq]
  refine AddsStrings.thenNone ?_ fun result => (marks_giveBack result).addsNone
  cases value with
  | call note function arguments =>
      refine .visit (addsStrings_lowerCall h fun argument hmem => ?_)
      cases h with
      | call _ _ _ _ _ harguments => exact (harguments argument hmem).addsStrings
  | _ => exact hvalue

theorem addsStrings_leaveValue {value : Option Expr}
    (h : ∀ given, value = some given → given.WellFormed frame.scopes scope) :
    AddsStrings (value.elim 0 Expr.strings) (frame.leaveValue value) := by
  cases value with
  | none => exact (Marks.pure _).addsNone
  | some given => exact (leaveResult_wraps given).addsStrings (h given rfl).addsStrings

end Frame

theorem addsStrings_lowerStatements {body : List Statement}
    (h : ∀ statement ∈ body, AddsStrings statement.strings (statement.lower frame)) :
    AddsStrings ((Statement.allNodes body).countP Expr.isString) (lowerStatements frame body) := by
  induction body with
  | nil =>
      rw [lowerStatements]
      exact (Marks.pure _).addsNone
  | cons statement rest ih =>
      rw [lowerStatements, Statement.allNodes, List.countP_append]
      refine (h statement List.mem_cons_self).bind fun _ => ih fun other hmem => ?_
      exact h other (List.mem_cons_of_mem _ hmem)

/-- Lowering a statement numbers its string literals, whatever it does when it runs. -/
theorem Statement.WellFormed.addsStrings {result : Ty} {statement : Statement}
    (h : statement.WellFormed frame.scopes result scope) :
    AddsStrings statement.strings (statement.lower frame) := by
  induction h with
  | declaration _ _ hinitial =>
      rw [Statement.lower]
      exact (Frame.addsStrings_setInitial fun value hvalue => (hinitial value hvalue).1).settle
  | expression hvalue _ =>
      rw [Statement.lower, Statement.strings, Statement.nodes]
      exact (Frame.addsStrings_discard hvalue).settle
  | @returning scope value location hnone hvalue =>
      have hstrings : (Statement.returning value scope location).strings =
          value.elim 0 Expr.strings := by
        cases value <;> rfl
      rw [Statement.lower, hstrings, Frame.leave_eq]
      refine .visit (AddsStrings.settle (AddsStrings.thenNone ?_ fun _ => ?_))
      · exact Frame.addsStrings_leaveValue fun given hgiven => (hvalue given hgiven).1
      · exact (Frame.marks_goToEnd frame scope).addsNone
  | @branch scope condition yes no location hcondition _ hyes hno ihyes ihno =>
      have hstrings : (Statement.branch condition yes no location).strings =
          condition.strings + (yes.strings + no.elim 0 Statement.strings) := by
        cases no <;> simp [Statement.strings, Statement.nodes, Expr.strings]
      have helse : AddsStrings (no.elim 0 Statement.strings) (lowerElse frame no) := by
        cases no with
        | none => exact (Marks.pure _).addsNone
        | some other => exact ihno other rfl
      have hmark : ∀ l : Label, AddsStrings 0 (mark l) := fun l state => by simp
      rw [Statement.lower_branch, hstrings]
      refine .visit (.numbered (by decide) fun n => ?_)
      refine ((Frame.test_wraps condition).addsStrings hcondition.addsStrings).bind fun _ => ?_
      refine (Marks.emit _).addsNone.afterNone fun _ => (hmark _).afterNone fun _ => ?_
      refine ihyes.bind fun _ => (Marks.emit _).addsNone.afterNone fun _ => ?_
      refine (hmark _).afterNone fun _ => helse.thenNone fun _ => ?_
      exact (hmark _).settle
  | @loop scope condition body location hcondition _ hbody ih =>
      have hstrings : (Statement.loop condition body location).strings =
          condition.strings + body.strings := by
        simp [Statement.strings, Statement.nodes, Expr.strings]
      have hmark : ∀ l : Label, AddsStrings 0 (mark l) := fun l state => by simp
      rw [Statement.lower, hstrings]
      refine .visit (.numbered (by decide) fun n => (hmark _).afterNone fun _ => ?_)
      refine ((Frame.test_wraps condition).addsStrings hcondition.addsStrings).bind fun _ => ?_
      refine (Marks.emit _).addsNone.afterNone fun _ => (hmark _).afterNone fun _ => ?_
      refine ih.thenNone fun _ => (Marks.emit _).addsNone.afterNone fun _ => ?_
      exact (hmark _).settle
  | @block scope inner table body location _ _ hbody ih =>
      rw [Statement.lower, Statement.strings, Statement.nodes]
      refine (Marks.lift _).addsNone.afterNone fun size => ?_
      refine (Marks.ite (Marks.emit _) (Marks.pure _)).addsNone.afterNone fun _ => ?_
      refine (addsStrings_lowerStatements ih).thenNone fun _ => ?_
      exact (Marks.ite (Marks.emit _) (Marks.pure _)).addsNone.settle

end Statements

end AccumulatorC
