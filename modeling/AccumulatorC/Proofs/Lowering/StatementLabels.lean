import Mathlib.Data.List.Perm.Basic
import AccumulatorC.Proofs.Lowering.Labels
import AccumulatorC.Proofs.Lowering.StatementParts

/-!
# The labels of statements and functions

A branch or a loop takes a number before its parts are lowered, so its labels differ from
those of the parts. Between its name and its end a function puts numbered labels only.
-/

namespace AccumulatorC

open Lowering

theorem Numbers.perm {before after : LabelCounts} {code rest : List Line}
    (h : Numbers before after code) (hperm : (labels rest).Perm (labels code)) :
    Numbers before after rest :=
  ⟨h.le, hperm.nodup_iff.mpr h.nodup, fun l hl => h.numbered l (hperm.mem_iff.mp hl)⟩

/-- Labels of one number, put around and between the code of parts that are lowered later. -/
theorem Numbers.around {before after : LabelCounts} {family : Family} (roles : List Role)
    {code rest : List Line} (hroles : roles.Nodup) (h : Numbers (before.add family) after code)
    (hperm : (labels rest).Perm
      ((roles.map fun role => .inner family role (before.count family)) ++ labels code)) :
    Numbers before after rest := by
  have hown : Numbers before (before.add family)
      (roles.map fun role => .label (.inner family role (before.count family))) := by
    have hlabels : labels (roles.map fun role =>
        Line.label (.inner family role (before.count family))) =
        roles.map fun role => .inner family role (before.count family) := by
      clear hroles hperm
      induction roles with
      | nil => rfl
      | cons role roles ih => simpa using ih
    refine Numbers.fresh ?_ fun l hl => ?_
    · rw [hlabels]
      exact hroles.map fun role role' heq => by injection heq
    · rw [hlabels] at hl
      obtain ⟨role, -, rfl⟩ := List.mem_map.mp hl
      exact Label.numberedIn_add _ _ _
  refine (hown.append h).perm (hperm.trans ?_)
  rw [labels_append]
  refine List.Perm.append_right _ (List.Perm.of_eq ?_)
  clear hroles hperm hown
  induction roles with
  | nil => rfl
  | cons role roles ih => simpa using ih

/-! ## Expressions in statements -/

/-- A value is lowered, and steps that put no labels follow. -/
def Lowering.Wraps (step : Lowering Unit) (lowered : Lowering Reg) : Prop :=
  ∃ rest : Reg → Lowering Unit, step = lowered >>= rest ∧ ∀ r, Marks [] (rest r)

/-- What is wrapped around a value puts no labels, so the step numbers as the value does. -/
theorem Lowering.Wraps.counts {step : Lowering Unit} {lowered : Lowering Reg}
    (h : step.Wraps lowered) (hlowered : Counts lowered) : Counts step := by
  obtain ⟨rest, rfl, hrest⟩ := h
  exact hlowered.bind fun r => (hrest r).counts

namespace Frame

variable {frame : Frame}

theorem marks_settle : Marks [] settle :=
  Marks.get.then_ fun _ => Marks.ite (Marks.lift _) (Marks.pure _)

theorem marks_giveBack (result : Option Reg) : Marks [] (giveBack result) := by
  cases result with
  | none => exact Marks.pure _
  | some r => exact Marks.free r

/-- An initial value is lowered, and storing it puts no labels. -/
theorem setInitial_wraps {declared : Declaration} {value : Expr}
    (hvalue : declared.initial = some value) :
    (frame.setInitial declared).Wraps (value.lower frame.scopes) := by
  refine ⟨_, by rw [setInitial, hvalue], fun r => (Marks.coerce r _).then_ fun r' => ?_⟩
  exact (Scopes.marks_address _ _ _).then_ fun _ => (Marks.store _ _).then_ fun _ => Marks.free r'

theorem marks_compareZero (r : Reg) : Marks [] (compareZero r) := by
  unfold compareZero
  split
  · exact Marks.preservingAccumulator
      ((Marks.emit _).then_ fun _ => (Marks.emit _).then_ fun _ => Marks.emit _)
  · exact Marks.ite (Marks.emit _)
      (Marks.preservingAccumulator ((Marks.emit _).then_ fun _ => Marks.emit _))

theorem test_wraps (condition : Expr) :
    (frame.test condition).Wraps (condition.lower frame.scopes) :=
  ⟨_, test_eq frame condition, fun r => (marks_compareZero r).then_ fun _ => Marks.free r⟩

/-- A returned value is lowered, and handing it over puts no labels. -/
theorem leaveResult_wraps (value : Expr) :
    (frame.leaveResult value).Wraps (value.lower frame.scopes) := by
  refine ⟨_, rfl, fun r => (Marks.coerce r _).then_ fun r' => ?_⟩
  exact Marks.ite ((Marks.emit _).then_ fun _ => Marks.free r') (Marks.free r')

theorem marks_goToEnd (frame : Frame) (scope : ScopeId) : Marks [] (frame.goToEnd scope) :=
  (Marks.lift _).then_ fun _ => (Marks.ite (Marks.emit _) (Marks.pure _)).then_ fun _ => Marks.emit _

theorem counts_discard {scope : ScopeId} {value : Expr} (h : value.WellFormed frame.scopes scope) :
    Counts (frame.discard value) := by
  have hvalue : Counts (some <$> value.lower frame.scopes) := by
    intro state
    rw [ensures_map]
    exact h.counts state
  rw [discard_eq]
  refine Counts.bind ?_ fun result => (marks_giveBack result).counts
  cases value with
  | call note function arguments =>
      refine (Marks.visit _).counts.bind fun _ => counts_lowerCall fun argument hmem => ?_
      cases h with
      | call _ _ _ _ _ harguments => exact (harguments argument hmem).counts
  | _ => exact hvalue

/-- A return numbers labels as its value does. -/
theorem counts_leave {scope : ScopeId} {value : Option Expr}
    (h : ∀ given, value = some given → given.WellFormed frame.scopes scope) (inner : ScopeId) :
    Counts (frame.leave value inner) := by
  rw [leave_eq]
  refine Counts.bind ?_ fun _ => (marks_goToEnd frame inner).counts
  cases value with
  | none => exact (Marks.pure _).counts
  | some given => exact (leaveResult_wraps given).counts (h given rfl).counts

end Frame

/-! ## Statements and functions -/

theorem counts_lowerStatements {frame : Frame} {body : List Statement}
    (h : ∀ statement ∈ body, Counts (statement.lower frame)) :
    Counts (lowerStatements frame body) := by
  induction body with
  | nil =>
      rw [lowerStatements]
      exact (Marks.pure _).counts
  | cons statement rest ih =>
      rw [lowerStatements]
      refine (h statement List.mem_cons_self).bind fun _ => ih fun other hmem => ?_
      exact h other (List.mem_cons_of_mem _ hmem)

/-- A statement numbers the labels of its code. -/
theorem Statement.WellFormed.counts {frame : Frame} {result : Ty} {scope : ScopeId}
    {statement : Statement} (h : statement.WellFormed frame.scopes result scope) :
    Counts (statement.lower frame) := by
  induction h with
  | @declaration scope declared hscope hvisible hinitial =>
      rw [Statement.lower]
      refine Counts.bind ?_ fun _ => Frame.marks_settle.counts
      cases hvalue : declared.initial with
      | none =>
          rw [Frame.setInitial, hvalue]
          exact (Marks.pure _).counts
      | some value => exact (Frame.setInitial_wraps hvalue).counts (hinitial value hvalue).1.counts
  | expression hvalue hcall =>
      rw [Statement.lower]
      exact (Frame.counts_discard hvalue).bind fun _ => Frame.marks_settle.counts
  | returning hnone hvalue =>
      rw [Statement.lower]
      refine (Marks.visit _).counts.bind fun _ => ?_
      exact (Frame.counts_leave (fun given hgiven => (hvalue given hgiven).1) _).bind fun _ =>
        Frame.marks_settle.counts
  | @branch scope condition yes no location hcondition hvalue hyes hno ihyes ihno =>
      intro state
      rw [Statement.lower_branch]
      simp only [ensures_bind, ensures_visit, ensures_newLabel, ensures_emit, ensures_mark]
      refine ((Frame.test_wraps condition).counts hcondition.counts _).mono fun _ testCode tested htest => ?_
      refine (ihyes tested).mono fun _ yesCode middle hyes => ?_
      have hno' : Counts (lowerElse frame no) := by
        cases no with
        | none => exact (Marks.pure _).counts
        | some other => exact ihno other rfl
      refine (hno' middle).mono fun _ noCode joined hno => ?_
      refine (Frame.marks_settle.counts joined).mono fun _ settleCode after hsettle => ?_
      refine Numbers.around [.yes, .no, .exit] (by decide)
        (((htest.append hyes).append hno).append hsettle) ?_
      rw [List.perm_iff_count]
      intro l
      simp [List.count_cons]
      omega
  | @loop scope condition body location hcondition hvalue hbody ih =>
      intro state
      rw [Statement.lower]
      simp only [ensures_bind, ensures_visit, ensures_newLabel, ensures_emit, ensures_mark]
      refine ((Frame.test_wraps condition).counts hcondition.counts _).mono fun _ testCode tested htest => ?_
      refine (ih tested).mono fun _ bodyCode joined hbody => ?_
      refine (Frame.marks_settle.counts joined).mono fun _ settleCode after hsettle => ?_
      refine Numbers.around [.start, .contents, .exit] (by decide)
        ((htest.append hbody).append hsettle) ?_
      rw [List.perm_iff_count]
      intro l
      simp [List.count_cons]
      omega
  | block hinner hparent hbody ih =>
      rw [Statement.lower]
      refine (Marks.lift _).counts.bind fun size => ?_
      refine (Marks.ite (Marks.emit _) (Marks.pure _)).counts.bind fun _ => ?_
      refine (counts_lowerStatements ih).bind fun _ => ?_
      refine (Marks.ite (Marks.emit _) (Marks.pure _)).counts.bind fun _ => Frame.marks_settle.counts

/-- The labels of a function: its name, numbered labels, and its end. -/
theorem Function.WellFormed.labels_lower {scopes : Scopes} {function : Function}
    (h : function.WellFormed scopes) (state : LowerState) :
    Ensures (function.lower scopes) state fun _ code after =>
      ∃ body, labels code = .symbol function.symbol.name :: labels body ++
          [.exit function.symbol.name] ∧
        Numbers state.labels after.labels body := by
  obtain ⟨result, types, table, -, -, -, hbody⟩ := h.signature
  unfold Function.lower
  simp only [ensures_bind, ensures_visit, ensures_lift, ensures_mark, ensures_reserve,
    ensures_release, ensures_emit]
  intro size hsize
  have hcounts : Counts (lowerStatements
      ⟨scopes, function.symbol.name, function.symbol.resultSize, function.scope⟩ function.body) :=
    counts_lowerStatements fun statement hmem => Statement.WellFormed.counts (hbody statement hmem)
  refine (hcounts _).mono fun _ body after hnumbers => ⟨body, ?_, hnumbers⟩
  split <;> simp

end AccumulatorC
