import AccumulatorC.Proofs.Lowering.Soundness
import AccumulatorC.Proofs.Lowering.StatementStack
import AccumulatorC.Proofs.Program.Nodes

/-!
# Programs in whose lowering nothing goes wrong

What is known of a program that has been read is enough for all steps of its lowering: expressions
without a value are not asked for one, places are assigned to only where there are places, and
what global variables are initialized with can be found.
-/

namespace AccumulatorC

open Lowering

/-! ## Calls -/

namespace Lowering

theorem Sound.save (r : Reg) : Sound (save r) := (push r).bind fun _ => free r

theorem Sound.forM {α : Type} {step : α → Lowering Unit} (h : ∀ a, Sound (step a)) (list : List α) :
    Sound (list.forM step) := by
  induction list with
  | nil => exact .pure ()
  | cons a list ih => exact (h a).bind fun _ => ih

theorem Sound.saveAll : Sound saveAll :=
  get.bind fun state => (forM save state.held.toList).bind fun _ => .pure state.held.toList

theorem Sound.claimAll (registers : List Reg) : Sound (claimAll registers) :=
  forM (fun r => (claim r).bind fun _ => .pure ()) registers

theorem Sound.claimResult (size : Nat) : Sound (claimResult size) :=
  ite (fun _ => .pure none) fun _ => (claim (.result size)).bind fun _ => .pure _

theorem Sound.moveResult (clashing : List Reg) (result : Option Reg) :
    Sound (moveResult clashing result) := by
  cases result with
  | none => exact .pure none
  | some r =>
      refine ite (fun _ => .pure (some r)) fun _ => ?_
      refine (allocate r.size_eq_one_or_two).bind fun moved => .bind (.emit trivial) fun _ => ?_
      exact (free r).bind fun _ => .pure (some moved)

/-- Steps that push nothing and take nothing off. -/
def KeepsDepth {α : Type} (step : Lowering α) : Prop :=
  ∀ state, Ensures step state fun _ _ after => after.depth = state.depth

theorem keepsDepth_claimAll (registers : List Reg) : KeepsDepth (claimAll registers) := by
  induction registers with
  | nil =>
      intro state
      exact ensures_pure.mpr rfl
  | cons r registers ih =>
      intro state
      have hunfold : claimAll (r :: registers) =
          (claim r >>= fun _ => pure ()) >>= fun _ => claimAll registers := rfl
      simp only [hunfold, ensures_bind, ensures_claim, ensures_pure]
      exact ⟨fun _ => ih _, fun _ => ih _⟩

theorem keepsDepth_claimResult (size : Nat) : KeepsDepth (claimResult size) := by
  intro state
  simp [claimResult]

theorem keepsDepth_moveResult (clashing : List Reg) (result : Option Reg) :
    KeepsDepth (moveResult clashing result) := by
  intro state
  cases result <;> simp [moveResult]

/-- What has been saved can be popped. -/
theorem sound_restore {function : Symbol} {saved : List Reg} {state : LowerState}
    (hfree : state.held.ConflictFree) (hdepth : (saved.map Reg.size).sum ≤ state.depth) :
    Always Event.Sound (restore function saved) state := by
  have hsum : (saved.reverse.map Reg.size).sum = (saved.map Reg.size).sum := by
    rw [List.map_reverse, List.sum_reverse]
  unfold restore
  simp only [always_bind, always_pure]
  refine ⟨Sound.claimResult _ state hfree, ?_⟩
  refine ((keepsDepth_claimResult _ state).and
    (conflictFree_after (Sound.claimResult _ state hfree) hfree)).mono ?_
  intro result _ claimed hclaimed
  refine ⟨Sound.claimAll _ claimed hclaimed.2, ?_⟩
  refine ((keepsDepth_claimAll _ claimed).and
    (conflictFree_after (Sound.claimAll _ claimed hclaimed.2) hclaimed.2)).mono ?_
  intro _ _ cleared hcleared
  refine ⟨Sound.moveResult _ result cleared hcleared.2, ?_⟩
  refine ((keepsDepth_moveResult _ result cleared).and
    (conflictFree_after (Sound.moveResult _ result cleared hcleared.2) hcleared.2)).mono ?_
  intro _ _ moved hmoved
  refine ⟨Sound.claimAll _ moved hmoved.2, ?_⟩
  refine ((keepsDepth_claimAll _ moved).and
    (conflictFree_after (Sound.claimAll _ moved hmoved.2) hmoved.2)).mono ?_
  intro _ _ restored hrestored
  refine ⟨sound_forM_pop hrestored.2 ?_, fun _ _ => trivial⟩
  rw [hsum, hrestored.1, hmoved.1, hcleared.1, hclaimed.1]
  exact hdepth

theorem sound_finishCall {function : Symbol} {saved : List Reg} {pushed : Nat} {state : LowerState}
    (hfree : state.held.ConflictFree)
    (hdepth : (saved.map Reg.size).sum + pushed ≤ state.depth) :
    Always Event.Sound (finishCall function saved pushed) state := by
  rw [finishCall_eq]
  simp only [always_bind, always_ite, always_emit, ensures_emit, always_shallow, ensures_shallow]
  refine ⟨trivial, fun _ => ⟨trivial, ⟨fun _ => hfree, fun hlt => ?_⟩, fun _ => ?_⟩, fun _ => ?_⟩
  · omega
  · refine sound_restore hfree ?_
    simp only
    omega
  · exact sound_restore hfree (by omega)

end Lowering

/-! ## Expressions -/

section Expressions

variable {scopes : Scopes} {scope : ScopeId}

theorem Scopes.sound_address (hwf : scopes.WellFormed) {symbol : Symbol}
    (hvisible : scopes.Visible scope symbol) : Sound (scopes.address symbol scope) := by
  refine (Sound.lift fun cause hcause => stackOffset_eq_error hwf hvisible hcause).bind ?_
  intro found
  cases found with
  | none => exact .pure _
  | some offset =>
      refine Sound.get.bind fun state => ?_
      exact (Sound.lift fun _ hsum => (addBytes_eq_error.mp hsum).2).bind fun sum => .pure _

theorem sound_lowerArguments {parameters : List Ty} {arguments : List Expr}
    (h : ∀ argument ∈ arguments, Sound (argument.lower scopes)) :
    Sound (lowerArguments scopes parameters arguments) := by
  induction arguments generalizing parameters with
  | nil =>
      have hnone : lowerArguments scopes parameters [] = pure 0 := by
        cases parameters <;> rw [lowerArguments] <;> simp
      rw [hnone]
      exact .pure 0
  | cons argument arguments ih =>
      cases parameters with
      | nil =>
          have hnone : lowerArguments scopes [] (argument :: arguments) = pure 0 := by
            rw [lowerArguments]
            simp
          rw [hnone]
          exact .pure 0
      | cons parameter parameters =>
          rw [lowerArguments]
          refine (h argument List.mem_cons_self).bind fun r => (sound_coerce r _).bind fun r' => ?_
          refine (Sound.save r').bind fun _ => .bind (ih ?_) fun rest => ?_
          · exact fun argument hmem => h argument (List.mem_cons_of_mem _ hmem)
          · exact .lift fun _ hsum => (addBytes_eq_error.mp hsum).2

/-- A call of a function that accepts its arguments is sound if they are. -/
theorem sound_lowerCall {note : Note} {function : Symbol} {arguments : List Expr}
    (h : (Expr.call note function arguments).WellFormed scopes scope)
    (harguments : ∀ argument ∈ arguments, Sound (argument.lower scopes)) :
    Sound (lowerCall scopes function arguments) := by
  obtain ⟨parameters, htype, haccepts, hwf⟩ : ∃ parameters,
      function.type = .function note.type parameters ∧
      List.Forall₂ (fun parameter (argument : Expr) => parameter.Accepts argument.type)
        parameters arguments ∧ ∀ argument ∈ arguments, argument.WellFormed scopes scope := by
    cases h with
    | call _ _ htype _ haccepts harguments => exact ⟨_, htype, haccepts, harguments⟩
  intro state hfree
  unfold lowerCall
  rw [always_bind, Symbol.parameters_eq htype]
  refine ⟨Sound.saveAll state hfree, saveAll_ensures.mono ?_⟩
  rintro saved _ emptied ⟨rfl, -, hempty, hsaved, -⟩
  have hnone : emptied.held.ConflictFree := by
    rw [hempty]
    exact RegSet.conflictFree_empty
  rw [always_bind]
  refine ⟨sound_lowerArguments harguments emptied hnone, ?_⟩
  refine (lowerArguments_pushes haccepts
    (fun argument hmem state hfree => (hwf argument hmem).allocates state hfree) hnone).mono ?_
  rintro pushed _ pushedState ⟨-, hheld, hdepth⟩
  exact sound_finishCall (by rw [hheld]; exact hnone) (by omega)

/-- Nothing goes wrong when a value is asked of an expression that has one. -/
theorem Expr.WellFormed.sound (hwf : scopes.WellFormed) {e : Expr} (h : e.WellFormed scopes scope)
    (hvoid : e.type.isVoid = false) : Sound (e.lower scopes) := by
  have hsize : ∀ {type : Ty}, type.isVoid = false → Sound (allocate type.size) := fun hvoid =>
    .allocate (Ty.size_of_not_void hvoid)
  induction h using Expr.WellFormed.alongLowering with
  | @number note value h =>
      rw [Expr.lower]
      refine (Sound.visit _).bind fun _ => ?_
      intro state hfree
      rw [always_bind]
      refine ⟨hsize hvoid state hfree, ?_⟩
      rw [ensures_allocate]
      intro r hr
      simp only [always_bind, always_emit, ensures_emit, always_pure, and_true]
      -- A number whose type takes one byte is a byte.
      intro hone
      have htype : note.type = .char ∧ value ≤ 0xff ∨ note.type = .int := by
        cases h
        assumption
      rcases htype with ⟨-, hbyte⟩ | htype
      · exact hbyte
      · rw [htype] at hr
        rw [RegSet.size_of_firstFree_two hr] at hone
        cases hone
  | string h =>
      rw [Expr.lower]
      refine (Sound.visit _).bind fun _ => (sound_stringData _ _).bind fun label => ?_
      exact (Sound.allocate (.inr rfl)).bind fun r => .bind (.emit trivial) fun _ => .pure r
  | name h =>
      obtain ⟨hscope, -, hvisible⟩ := h.of_name
      rw [Expr.lower]
      refine (Sound.visit _).bind fun _ => ?_
      rw [hscope]
      refine (Scopes.sound_address hwf hvisible).bind fun address => ?_
      exact (hsize hvoid).bind fun r => (sound_load r address).bind fun _ => .pure r
  | @assignName note inner symbol value h hvalue ih =>
      obtain ⟨htarget, haccepts⟩ : (Expr.name inner symbol).WellFormed scopes scope ∧
          inner.type.Accepts value.type := by
        cases h
        exact ⟨by assumption, by assumption⟩
      obtain ⟨hscope, -, hvisible⟩ := htarget.of_name
      rw [Expr.lower]
      refine (Sound.visit _).bind fun _ => .bind (ih ?_) fun r => (sound_coerce r _).bind fun r' => ?_
      · exact Ty.isVoid_of_isScalar haccepts.isScalar.2
      refine (Sound.visit _).bind fun _ => ?_
      simp only [hscope]
      exact (Scopes.sound_address hwf hvisible).bind fun address =>
        (sound_store address r').bind fun _ => .pure r'
  | @assignDeref note inner pointer value h hvalue hpointer ihvalue ihpointer =>
      obtain ⟨haccepts, htarget⟩ : inner.type.Accepts value.type ∧
          (Expr.unary inner .deref pointer).WellFormed scopes scope := by
        cases h
        exact ⟨by assumption, by assumption⟩
      rw [Expr.lower]
      refine (Sound.visit _).bind fun _ => .bind (ihvalue ?_) fun r =>
        (sound_coerce r _).bind fun r' => (Sound.visit _).bind fun _ => .bind (ihpointer ?_) fun pair => ?_
      · exact Ty.isVoid_of_isScalar haccepts.isScalar.2
      · rw [htarget.of_deref.2.1]
        rfl
      · exact (sound_store _ r').bind fun _ => (Sound.free pair).bind fun _ => .pure r'
  | @binary note op left right h hleft hright ihleft ihright =>
      have hcombines : left.type.Combines right.type note.type := by
        cases h
        assumption
      rw [Expr.lower]
      refine (Sound.visit _).bind fun _ => .bind (ihleft ?_) fun l => (sound_coerce l _).bind fun l' =>
        .bind (ihright ?_) fun r => (sound_coerce r _).bind fun r' => sound_operate op _ l' r'
      · exact Ty.isVoid_of_isScalar hcombines.isScalar.1
      · exact Ty.isVoid_of_isScalar hcombines.isScalar.2.1
  | @addressName note inner symbol h =>
      obtain ⟨hscope, -, hvisible⟩ : inner.scope = scope ∧ inner.type = symbol.type ∧
          scopes.Visible scope symbol := by
        cases h with
        | addressOf _ _ _ _ hoperand => exact hoperand.of_name
        | keeping hop => cases hop
      rw [Expr.lower]
      refine (Sound.visit _).bind fun _ => ?_
      simp only [hscope]
      refine (Scopes.sound_address hwf hvisible).bind fun address => ?_
      exact (Sound.allocate (.inr rfl)).bind fun r => .bind (.emit trivial) fun _ => .pure r
  | @addressDeref note inner pointer h hpointer ih =>
      have hderef : (Expr.unary inner .deref pointer).WellFormed scopes scope := by
        cases h with
        | addressOf _ _ _ _ hoperand => exact hoperand
        | keeping hop => cases hop
      rw [Expr.lower]
      refine (Sound.visit _).bind fun _ => ih ?_
      rw [hderef.of_deref.2.1]
      rfl
  | @deref note operand h hoperand ih =>
      rw [Expr.lower]
      refine (Sound.visit _).bind fun _ => .bind (ih ?_) fun pair => (hsize hvoid).bind fun r => ?_
      · rw [h.of_deref.2.1]
        rfl
      · exact (sound_load r _).bind fun _ => (Sound.free pair).bind fun _ => .pure r
  | @keeping note op operand h hoperand hop htype hoperandVoid ih =>
      have ih := ih hoperandVoid
      cases op with
      | addressOf => cases hop
      | deref => cases hop
      | plus =>
          rw [Expr.lower]
          exact (Sound.visit _).bind fun _ => ih
      | negate =>
          rw [Expr.lower]
          exact (Sound.visit _).bind fun _ => ih.bind fun r => sound_negate r
      | increment =>
          rw [Expr.lower]
          refine (Sound.visit _).bind fun _ => ih.bind fun r => .bind ?_ fun _ => .pure r
          have hstep : ∀ r, (Line.instr (.increment r)).NumberFits := fun _ => trivial
          exact sound_stepBy hstep r _
      | decrement =>
          rw [Expr.lower]
          refine (Sound.visit _).bind fun _ => ih.bind fun r => .bind ?_ fun _ => .pure r
          have hstep : ∀ r, (Line.instr (.decrement r)).NumberFits := fun _ => trivial
          exact sound_stepBy hstep r _
  | @call note function arguments h harguments ih =>
      have hvalues : ∀ argument ∈ arguments, Sound (argument.lower scopes) := by
        intro argument hmem
        cases h with
        | call _ _ _ _ haccepts _ =>
            exact ih argument hmem (Ty.isVoid_of_isScalar (Expr.isScalar_of_accepted haccepts hmem))
      rw [Expr.lower_call]
      refine (Sound.visit _).bind fun _ => ?_
      intro state hfree
      rw [always_bind]
      refine ⟨sound_lowerCall h hvalues state hfree, ?_⟩
      refine (lowerCall_allocates h
        (fun argument hmem state hfree => (harguments argument hmem).allocates state hfree)
        hfree).mono ?_
      intro result _ after hresult
      cases result with
      | some r => exact always_pure
      | none =>
          have hsize := (hresult.none rfl).1
          have htype : ∃ parameters, function.type = .function note.type parameters := by
            cases h
            exact ⟨_, by assumption⟩
          rw [Symbol.resultSize_eq htype.choose_spec] at hsize
          have := Ty.size_of_not_void hvoid
          simp only [Expr.type, Expr.note] at this
          omega

end Expressions

/-! ## Statements -/

/-- From a state with nothing pushed nothing goes wrong, and nothing is pushed after it. -/
def Lowering.Rests (step : Lowering Unit) : Prop :=
  ∀ state : LowerState, state.held.ConflictFree → state.depth = 0 →
    Always Event.Sound step state ∧ Ensures step state fun _ _ after => after.depth = 0

namespace Lowering.Rests

variable {step next : Lowering Unit}

theorem bind (h : Rests step) (hnext : Rests next) : Rests (step >>= fun _ => next) := by
  intro state hfree hdepth
  obtain ⟨halways, hzero⟩ := h state hfree hdepth
  have hmiddle := hzero.and (conflictFree_after halways hfree)
  rw [always_bind, ensures_bind]
  refine ⟨⟨halways, hmiddle.mono ?_⟩, hmiddle.mono ?_⟩
  · exact fun _ _ middle hmiddle => (hnext middle hmiddle.2 hmiddle.1).1
  · exact fun _ _ middle hmiddle => (hnext middle hmiddle.2 hmiddle.1).2

theorem of_sound (h : Sound step) (hkeeps : KeepsDepth step) : Rests step :=
  fun state hfree hdepth => ⟨h state hfree, (hkeeps state).mono fun _ _ _ hafter => hafter.trans hdepth⟩

theorem of_settled {frame : Frame} {scope outer : ScopeId} {accesses : List Access} (h : Sound step)
    (hsettled : frame.Settled scope outer step accesses) : Rests step :=
  fun state hfree hdepth =>
    ⟨h state hfree, (hsettled state hfree hdepth).mono fun _ _ _ hafter => hafter.2.1⟩

theorem pure : Rests (Pure.pure ()) := of_sound (.pure ()) fun _ => ensures_pure.mpr rfl

theorem visit (location : Location) : Rests (visit location) :=
  of_sound (.visit location) fun _ => ensures_visit.mpr rfl

theorem emit {instr : Instr} (h : (Line.instr instr).NumberFits) : Rests (emit instr) :=
  of_sound (.emit h) fun _ => ensures_emit.mpr rfl

theorem mark (label : Label) : Rests (mark label) :=
  of_sound (.mark label) fun _ => ensures_mark.mpr rfl

theorem reserve (bytes : Nat) : Rests (reserve bytes) :=
  of_sound (.reserve bytes) fun _ => ensures_reserve.mpr rfl

theorem release (bytes : Nat) : Rests (release bytes) :=
  of_sound (.release bytes) fun _ => ensures_release.mpr rfl

theorem numbered {family : Family} {step : Nat → Lowering Unit} (h : ∀ n, Rests (step n)) :
    Rests (newLabel family >>= step) := by
  intro state hfree hdepth
  rw [always_bind, ensures_bind, ensures_newLabel, ensures_newLabel]
  have hstep := h (state.labels.count family)
    { state with labels := state.labels.add family } hfree hdepth
  exact ⟨⟨Sound.newLabel family state hfree, hstep.1⟩, hstep.2⟩

/-- The check after a statement finds nothing. -/
theorem settle (h : Rests step) : Rests (step >>= fun _ => Frame.settle) := by
  refine h.bind fun state hfree hdepth => ?_
  simp [Frame.settle, hdepth]

end Lowering.Rests

section Statements

variable {frame : Frame} {scope outer : ScopeId}

theorem Frame.sound_setInitial (hwf : frame.scopes.WellFormed) {declared : Declaration}
    (hvisible : frame.scopes.Visible scope declared.symbol)
    (hinitial : ∀ value, declared.initial = some value →
      value.WellFormed frame.scopes scope ∧ declared.symbol.type.Accepts value.type) :
    Sound (frame.setInitial declared) := by
  unfold setInitial
  cases hvalue : declared.initial with
  | none => exact .pure ()
  | some value =>
      obtain ⟨hvalueWf, haccepts⟩ := hinitial value hvalue
      simp only [hvalueWf.note_scope]
      refine .bind (hvalueWf.sound hwf (Ty.isVoid_of_isScalar haccepts.isScalar.2)) fun r => ?_
      refine (sound_coerce r _).bind fun r' => (Scopes.sound_address hwf hvisible).bind fun address => ?_
      exact (sound_store address r').bind fun _ => .free r'

theorem Frame.sound_discard (hwf : frame.scopes.WellFormed) {value : Expr}
    (h : value.WellFormed frame.scopes scope)
    (hcall : value.isCall = true ∨ value.type.isVoid = false) : Sound (frame.discard value) := by
  rw [discard_eq]
  refine .bind ?_ fun result => ?_
  · cases value with
    | call note function arguments =>
        refine (Sound.visit _).bind fun _ => sound_lowerCall h fun argument hmem => ?_
        cases h with
        | call _ _ _ _ haccepts harguments =>
            exact (harguments argument hmem).sound hwf
              (Ty.isVoid_of_isScalar (Expr.isScalar_of_accepted haccepts hmem))
    | _ =>
        rcases hcall with hcall | hvoid
        · cases hcall
        · exact fun state hfree => always_map.mpr (h.sound hwf hvoid state hfree)
  · cases result with
    | none => exact .pure ()
    | some r => exact .free r

theorem Frame.sound_compareZero (r : Reg) : Sound (compareZero r) := by
  unfold compareZero
  split
  · refine .preservingAccumulator ?_ ((Keeps.emit _).bind ((Keeps.emit _).bind (Keeps.emit _)))
    exact .bind (.emit trivial) fun _ => .bind (.emit trivial) fun _ => .emit trivial
  · refine .ite (fun _ => .emit trivial) fun _ => ?_
    refine .preservingAccumulator ?_ ((Keeps.emit _).bind (Keeps.emit _))
    exact .bind (.emit trivial) fun _ => .emit trivial

theorem Frame.sound_test (hwf : frame.scopes.WellFormed) {condition : Expr}
    (h : condition.WellFormed frame.scopes scope) (hvoid : condition.type.isVoid = false) :
    Sound (frame.test condition) := by
  rw [test_eq]
  exact (h.sound hwf hvoid).bind fun r => (sound_compareZero r).bind fun _ => .free r

theorem Frame.sound_leave (hwf : frame.scopes.WellFormed) (hscope : scope < frame.scopes.list.length)
    {result : Ty} {value : Option Expr}
    (h : ∀ given, value = some given →
      given.WellFormed frame.scopes scope ∧ result.Accepts given.type) :
    Sound (frame.leave value scope) := by
  rw [leave_eq]
  refine .bind ?_ fun _ => (Sound.lift fun cause hcause => ?_).bind fun size =>
    (Sound.release size).bind fun _ => .emit trivial
  · cases value with
    | none => exact .pure ()
    | some given =>
        obtain ⟨hgiven, haccepts⟩ := h given rfl
        refine .bind (hgiven.sound hwf (Ty.isVoid_of_isScalar haccepts.isScalar.2)) fun r => ?_
        refine (sound_coerce r _).bind fun r' => .ite (fun _ => ?_) fun _ => .free r'
        exact .bind (.emit trivial) fun _ => .free r'
  · exact Scopes.framesInside_eq_error hscope hcause

theorem rests_lowerStatements {body : List Statement}
    (h : ∀ statement ∈ body, Rests (statement.lower frame)) : Rests (lowerStatements frame body) := by
  induction body with
  | nil =>
      rw [lowerStatements]
      exact .pure
  | cons statement body ih =>
      rw [lowerStatements]
      exact (h statement List.mem_cons_self).bind
        (ih fun statement hmem => h statement (List.mem_cons_of_mem _ hmem))

/-- Nothing goes wrong in a statement, and the check after it finds nothing. -/
theorem Statement.WellFormed.rests (hnested : frame.Nested outer) {result : Ty}
    (hresult : frame.resultSize = result.size) {statement : Statement}
    (h : statement.WellFormed frame.scopes result scope)
    (hscope : scope < frame.scopes.list.length)
    (hbody : frame.scope ∈ frame.scopes.chain scope) : Rests (statement.lower frame) := by
  have hwf := hnested.scopes
  induction h with
  | declaration hsymbol hvisible hinitial =>
      have houter := Scopes.mem_chain_trans hbody hnested.body
      rw [Statement.lower]
      exact (Rests.of_settled (Frame.sound_setInitial hwf hvisible hinitial)
        (Frame.setInitial_settled hnested houter hvisible hinitial)).settle
  | expression hvalue hcall =>
      have houter := Scopes.mem_chain_trans hbody hnested.body
      rw [Statement.lower]
      exact (Rests.of_settled (Frame.sound_discard hwf hvalue hcall)
        (Frame.discard_settled hnested houter hvalue)).settle
  | returning hnone hvalue =>
      rw [Statement.lower]
      exact (Rests.visit _).bind (Rests.of_settled (Frame.sound_leave hwf hscope hvalue)
        (Frame.leave_settled hnested hbody hresult hvalue)).settle
  | @branch scope condition yes no location hcondition hvalue _ _ ihyes ihno =>
      have houter := Scopes.mem_chain_trans hbody hnested.body
      have hno : Rests (lowerElse frame no) := by
        cases no with
        | none => exact .pure
        | some other => exact ihno other rfl hscope hbody
      rw [Statement.lower_branch]
      refine (Rests.visit _).bind (.numbered fun n => ?_)
      refine (Rests.of_settled (Frame.sound_test hwf hcondition hvalue)
        (Frame.test_settled hnested houter hcondition)).bind ?_
      refine .bind (.emit trivial) ((Rests.mark _).bind ((ihyes hscope hbody).bind ?_))
      exact .bind (.emit trivial) ((Rests.mark _).bind (hno.bind (Rests.mark _).settle))
  | @loop scope condition body location hcondition hvalue _ ih =>
      have houter := Scopes.mem_chain_trans hbody hnested.body
      rw [Statement.lower]
      refine (Rests.visit _).bind (.numbered fun n => (Rests.mark _).bind ?_)
      refine (Rests.of_settled (Frame.sound_test hwf hcondition hvalue)
        (Frame.test_settled hnested houter hcondition)).bind ?_
      refine .bind (.emit trivial) ((Rests.mark _).bind ((ih hscope hbody).bind ?_))
      exact .bind (.emit trivial) (Rests.mark _).settle
  | @block scope inner table body location hinner hparent _ ih =>
      have hlt := hwf.lt_of_parent hinner hparent
      have hknown := (List.getElem?_eq_some_iff.mp hinner).1
      have hmem : frame.scope ∈ frame.scopes.chain inner := by
        rw [Scopes.chain_of_parent hinner hparent hlt]
        exact List.mem_cons_of_mem _ hbody
      have hstatements := rests_lowerStatements fun statement hstatement =>
        ih statement hstatement hknown hmem
      rw [Statement.lower, Scopes.frame_eq_ok_of_lt hknown]
      exact (Rests.reserve _).bind (hstatements.bind (Rests.release _).settle)

end Statements

/-! ## Programs -/

/-- After a function all registers are free and the stack is as it was. -/
theorem Function.WellFormed.rests {scopes : Scopes} (hwf : scopes.WellFormed) {function : Function}
    (h : function.WellFormed scopes) : Rests (function.lower scopes) := by
  have hnested := h.nested hwf
  obtain ⟨result, types, table, htype, -, -, hbody⟩ := h.signature
  obtain ⟨inner, hinner, -⟩ := h.body
  have hknown := (List.getElem?_eq_some_iff.mp hinner).1
  have hstatements : Rests (lowerStatements (function.toFrame scopes) function.body) := by
    apply rests_lowerStatements
    intro statement hmem
    exact (hbody statement hmem).rests hnested (Symbol.resultSize_eq htype) hknown
      (Scopes.mem_chain_self _ _)
  unfold Function.lower
  rw [Scopes.frame_eq_ok_of_lt hknown]
  refine (Rests.visit _).bind ((Rests.mark _).bind ((Rests.reserve _).bind ?_))
  refine hstatements.bind ((Rests.mark _).bind ((Rests.release _).bind ?_))
  exact .emit trivial

/-- The initial value of a global variable is a string, or it can be folded. -/
theorem Declaration.sound_data {declared : Declaration}
    (h : ∀ value, declared.initial = some value → value.isInitializer = true) :
    Sound declared.data := by
  unfold data
  split
  · exact .pure _
  · exact (sound_stringData _ _).bind fun label => .pure _
  next value hnot hvalue =>
    split
    next hnone =>
      -- Nothing but a string is an initial value without being folded.
      have hinitial := h value hvalue
      simp only [Expr.isInitializer, hnone, Option.isSome_none, Bool.or_false, Bool.and_eq_true]
        at hinitial
      cases value with
      | string note bytes => exact absurd rfl (hnot note bytes)
      | _ => cases hinitial.2
    · exact .ite (fun _ => .pure _) fun _ => .pure _

theorem Declaration.sound_lowerGlobal {declared : Declaration}
    (h : ∀ value, declared.initial = some value → value.isInitializer = true) :
    Sound declared.lowerGlobal := by
  refine .ite (fun _ => .pure ()) fun _ => (Sound.visit _).bind fun _ => ?_
  refine (sound_data h).bind fun data => .bind (.emit trivial) fun _ => (Sound.mark _).bind fun _ => ?_
  exact fun _ _ => always_line.mpr trivial

/-- Nothing goes wrong when an item of a program that has been read is lowered. -/
theorem Program.WellFormed.item_rests {program : Program} (h : program.WellFormed) {item : Item}
    (hmem : item ∈ program.items) : Rests (item.lower program.scopes) := by
  cases item with
  | function defined => exact (h.functions defined hmem).rests h.scopes
  | global declared =>
      refine .of_sound (Declaration.sound_lowerGlobal fun value hvalue => ?_) fun state => ?_
      · exact (h.globals declared value hmem hvalue).2.2
      · exact (keeps_lowerGlobal declared state).mono fun _ _ _ hafter => hafter.2

/-- Nothing goes wrong when a program that has been read is lowered. -/
theorem Program.WellFormed.rests {program : Program} (h : program.WellFormed) :
    Rests program.lower := by
  have hitems : ∀ items : List Item, (∀ item ∈ items, Rests (Item.lower program.scopes item)) →
      Rests (items.forM (Item.lower program.scopes)) := by
    intro items hitems
    induction items with
    | nil => exact .pure
    | cons item items ih =>
        exact (hitems item List.mem_cons_self).bind
          (ih fun item hmem => hitems item (List.mem_cons_of_mem _ hmem))
  unfold Program.lower
  refine (Rests.mark _).bind (.bind (.emit trivial) ((Rests.mark _).bind ?_))
  exact .bind (.emit trivial) ((hitems _ fun _ hmem => h.item_rests hmem).bind (Rests.mark _))

/-- A program that is read never stops with a cause that is not permitted. -/
theorem Program.WellFormed.permitted {program : Program} (h : program.WellFormed)
    {cause : Stop (Located LowerError)} (hlines : program.lines = .error cause) :
    ∃ (stop : Stop LowerError) (here : Location),
      stop.Permitted ∧ cause = stop.map (⟨·, here⟩) := by
  obtain ⟨stop, here, hmem, rfl⟩ := stops_mem_events (map_eq_error.mp hlines)
  have halways := (h.rests .initial RegSet.conflictFree_empty rfl).1
  exact ⟨stop, here, halways _ hmem, rfl⟩

end AccumulatorC
