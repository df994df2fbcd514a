import AccumulatorC.Proofs.Lowering.Coercing
import AccumulatorC.Proofs.Lowering.ProgramSoundness
import AccumulatorC.Proofs.Program.Conversions

/-!
# Values that are cut

Lowering is watched by a coercion that does anything else where it would cut a value of two bytes to
one and that is not allowed at the place. If everything that a program stores is cut at allowed
places only, then the watched lowering is the lowering of the language. Operands are never cut: the
common type of two operands is no smaller than either of them.
-/

namespace AccumulatorC

open Lowering

/-- The coercion of the language. Where it would cut a value and that is not allowed at the place,
or the conversion is not noted at any, something else is done. -/
def coerceWhere (allowed : Location → Bool) (otherwise : Reg → Lowering Reg) : Coercion :=
  fun location r size =>
    if r.size = 2 ∧ size = 1 ∧ location.any allowed = false then otherwise r else coerce r size

namespace Lowering

variable {α β : Type} {allowed : Location → Bool} {otherwise : Reg → Lowering Reg}

/-- Where a value is not cut, or may be, the coercion is that of the language. -/
theorem coerceWhere_eq {location : Option Location} {r : Reg} {size : Nat}
    (h : r.size = 2 → size = 1 → location.any allowed = true) :
    coerceWhere allowed otherwise location r size = coerce r size := by
  refine if_neg ?_
  rintro ⟨hr, hsize, hnot⟩
  rw [h hr hsize] at hnot
  cases hnot

/-! ## Steps that do the same -/

/-- From states without conflicts two steps do the same. -/
def Agrees (first second : Lowering α) : Prop :=
  ∀ state : LowerState, state.held.ConflictFree → first.run state = second.run state

theorem Agrees.refl (step : Lowering α) : Agrees step step := fun _ _ => rfl

theorem run_bind_congr {first first' : Lowering α} {second second' : α → Lowering β}
    {state : LowerState} {post : Post α} (hfirst : first.run state = first'.run state)
    (hpost : Ensures first' state post)
    (hsecond : ∀ value code after, post value code after →
      (second value).run after = (second' value).run after) :
    (first >>= second).run state = (first' >>= second').run state := by
  rw [run_bind, run_bind, hfirst]
  cases hdone : first'.run state with
  | error stop => rfl
  | ok done =>
      have hrest := hsecond done.value done.code done.state (hpost done hdone)
      simp only [Except.bind, hrest]

theorem Agrees.visit {location : Location} {next next' : Lowering α} (h : Agrees next next') :
    Agrees (visit location >>= fun _ => next) (visit location >>= fun _ => next') :=
  fun _ hfree => h _ hfree

/-- What is done after steps that do the same does not matter. -/
theorem Agrees.andThen {first second : Lowering α} (h : Agrees first second)
    (next : α → Lowering β) :
    Agrees (first >>= next) (second >>= next) := by
  intro state hfree
  rw [run_bind, run_bind, h state hfree]

end Lowering

section Expressions

variable {α : Type} {allowed : Location → Bool} {otherwise : Reg → Lowering Reg}
  {scopes : Scopes} {scope : ScopeId}

/-- The value of an expression is lowered in the same way and brought to a size that does not cut it
where that is not allowed, and then the same is done with the register that it takes. -/
theorem Lowering.Agrees.coerced {e : Expr} {location : Option Location} {size : Nat}
    {next next' : Reg → Lowering α}
    (h : Agrees (e.lowerWith (coerceWhere allowed otherwise) scopes)
      (e.lowerWith (fun _ => coerce) scopes))
    (hwf : e.WellFormed scopes scope) (hvoid : e.type.isVoid = false) (hsize : size = 1 ∨ size = 2)
    (hcut : e.type.size = 2 → size = 1 → location.any allowed = true)
    {state : LowerState} (hfree : state.held.ConflictFree)
    (hnext : ∀ r after, Holds state.held r after → (next r).run after = (next' r).run after) :
    (e.lowerWith (coerceWhere allowed otherwise) scopes >>= fun r =>
        coerceWhere allowed otherwise location r size >>= next).run state =
      (e.lowerWith (fun _ => coerce) scopes >>= fun r => coerce r size >>= next').run state := by
  have hallocates : Ensures (e.lowerWith (fun _ => coerce) scopes) state
      (Allocates e.type state) := by
    rw [Expr.lowerWith_coerce]
    exact hwf.allocates state hfree
  refine run_bind_congr (h state hfree) hallocates ?_
  rintro r _ lowered ⟨hholds, hr, -⟩
  rw [coerceWhere_eq fun htwo => hcut (hr hvoid ▸ htwo)]
  refine run_bind_congr rfl (coerce_holds hholds hsize) ?_
  rintro r _ after ⟨hholds, -⟩
  exact hnext r after hholds

/-- A value that is stored is brought to the size of its target. -/
theorem Lowering.Agrees.stored {value : Expr} {target : Ty} {location : Location}
    {next next' : Reg → Lowering α}
    (h : Agrees (value.lowerWith (coerceWhere allowed otherwise) scopes)
      (value.lowerWith (fun _ => coerce) scopes))
    (hwf : value.WellFormed scopes scope) (haccepts : target.Accepts value.type)
    (hcuts : Storing.CutsWhere allowed ⟨target, value.type, location⟩)
    {state : LowerState} (hfree : state.held.ConflictFree)
    (hnext : ∀ r after, Holds state.held r after → (next r).run after = (next' r).run after) :
    (value.lowerWith (coerceWhere allowed otherwise) scopes >>= fun r =>
        coerceWhere allowed otherwise (some location) r target.size >>= next).run state =
      (value.lowerWith (fun _ => coerce) scopes >>= fun r =>
        coerce r target.size >>= next').run state := by
  obtain ⟨htarget, hvalue⟩ := haccepts.isScalar
  refine h.coerced hwf (Ty.isVoid_of_isScalar hvalue) (Ty.size_of_isScalar htarget) ?_ hfree hnext
  exact hcuts

/-- An operand is brought to the size of a type that is no smaller than its own. -/
theorem Lowering.Agrees.operand {e : Expr} {common : Ty} {next next' : Reg → Lowering α}
    (h : Agrees (e.lowerWith (coerceWhere allowed otherwise) scopes)
      (e.lowerWith (fun _ => coerce) scopes))
    (hwf : e.WellFormed scopes scope) (hscalar : e.type.isScalar = true)
    (hcommon : common.isScalar = true) (hle : e.type.size ≤ common.size)
    {state : LowerState} (hfree : state.held.ConflictFree)
    (hnext : ∀ r after, Holds state.held r after → (next r).run after = (next' r).run after) :
    (e.lowerWith (coerceWhere allowed otherwise) scopes >>= fun r =>
        coerceWhere allowed otherwise none r common.size >>= next).run state =
      (e.lowerWith (fun _ => coerce) scopes >>= fun r =>
        coerce r common.size >>= next').run state :=
  h.coerced hwf (Ty.isVoid_of_isScalar hscalar) (Ty.size_of_isScalar hcommon)
    (fun htwo hone => by omega) hfree hnext

/-- Arguments are pushed in the same way if each of them is lowered in the same way, and cut only
where that is allowed. -/
theorem Lowering.lowerArgumentsWith_agrees {parameters : List Ty} {arguments : List Expr}
    (haccepts : List.Forall₂ (fun parameter (argument : Expr) => parameter.Accepts argument.type)
      parameters arguments)
    (hwf : ∀ argument ∈ arguments, argument.WellFormed scopes scope)
    (hlower : ∀ argument ∈ arguments, Agrees
      (argument.lowerWith (coerceWhere allowed otherwise) scopes)
      (argument.lowerWith (fun _ => coerce) scopes))
    (hcuts : List.Forall₂ (fun parameter (argument : Expr) =>
      Storing.CutsWhere allowed ⟨parameter, argument.type, argument.location⟩)
      parameters arguments) :
    Agrees (lowerArgumentsWith (coerceWhere allowed otherwise) scopes parameters arguments)
      (lowerArgumentsWith (fun _ => coerce) scopes parameters arguments) := by
  induction haccepts with
  | nil => 
      rw [lowerArgumentsWith, lowerArgumentsWith]
      · exact .refl _
      all_goals simp
  | @cons parameter argument parameters arguments haccept _ ih =>
      obtain ⟨hcut, hcuts⟩ := List.forall₂_cons.mp hcuts
      have hrest := ih (fun argument hmem => hwf argument (List.mem_cons_of_mem _ hmem))
        (fun argument hmem => hlower argument (List.mem_cons_of_mem _ hmem)) hcuts
      rw [lowerArgumentsWith, lowerArgumentsWith]
      intro state hfree
      refine (hlower argument List.mem_cons_self).stored (hwf argument List.mem_cons_self) haccept
        hcut hfree fun r coerced hholds => ?_
      have hsave : Ensures (save r) coerced fun _ _ after => after.held = state.held := by
        simp only [save, ensures_bind, ensures_push, ensures_free]
        exact fun _ => hholds.erase
      refine run_bind_congr rfl hsave fun _ _ after hheld => ?_
      exact hrest.andThen _ after (hheld ▸ hfree)

/-- A call is made in the same way if its arguments are lowered in the same way, and cut only where
that is allowed. -/
theorem Expr.WellFormed.lowerCallWith_agrees {note : Note} {function : Symbol}
    {arguments : List Expr} (h : (Expr.call note function arguments).WellFormed scopes scope)
    (hlower : ∀ argument ∈ arguments, Agrees
      (argument.lowerWith (coerceWhere allowed otherwise) scopes)
      (argument.lowerWith (fun _ => coerce) scopes))
    (hstored : ∀ stored ∈ (Expr.call note function arguments).stores, stored.CutsWhere allowed) :
    Agrees (lowerCallWith (coerceWhere allowed otherwise) scopes function arguments)
      (lowerCallWith (fun _ => coerce) scopes function arguments) := by
  obtain ⟨parameters, htype, haccepts, hwf⟩ : ∃ parameters,
      function.type = .function note.type parameters ∧
      List.Forall₂ (fun parameter (argument : Expr) => parameter.Accepts argument.type)
        parameters arguments ∧
      ∀ argument ∈ arguments, argument.WellFormed scopes scope := by
    cases h with
    | call _ _ htype _ haccepts hwf => exact ⟨_, htype, haccepts, hwf⟩
  rw [Expr.stores, Symbol.parameters_eq htype] at hstored
  have hcuts : List.Forall₂ (fun parameter (argument : Expr) =>
      Storing.CutsWhere allowed ⟨parameter, argument.type, argument.location⟩)
      parameters arguments := by
    refine List.forall₂_iff_zip.mpr ⟨haccepts.length_eq, fun {parameter argument} hmem => ?_⟩
    apply hstored
    rw [← List.map_uncurry_zip_eq_zipWith]
    exact List.mem_map.mpr ⟨_, hmem, rfl⟩
  have hpushed := lowerArgumentsWith_agrees haccepts hwf hlower hcuts
  intro state _
  rw [lowerCallWith, lowerCallWith, Symbol.parameters_eq htype]
  refine run_bind_congr rfl saveAll_ensures ?_
  rintro saved _ emptied ⟨-, -, hempty, -⟩
  exact hpushed.andThen _ emptied (hempty ▸ RegSet.conflictFree_empty)

/-- An expression is lowered in the same way if everything that is stored in it is cut only where
that is allowed. -/
theorem Expr.WellFormed.lowerWith_agrees {e : Expr} (h : e.WellFormed scopes scope)
    (hcuts : ∀ stored ∈ e.storings, stored.CutsWhere allowed) :
    Agrees (e.lowerWith (coerceWhere allowed otherwise) scopes)
      (e.lowerWith (fun _ => coerce) scopes) := by
  induction h using Expr.WellFormed.alongLowering with
  | number | string | name =>
      rw [Expr.lowerWith, Expr.lowerWith]
      exact .refl _
  | @assignName note inner symbol value h hvalue ih =>
      have haccepts : inner.type.Accepts value.type := by
        cases h
        assumption
      have hstored := hcuts _ (mem_storings_assign.mpr (.inl rfl))
      have hvalueAgrees := ih fun stored hmem =>
        hcuts stored (mem_storings_assign.mpr (.inr (.inr hmem)))
      rw [Expr.lowerWith, Expr.lowerWith]
      exact .visit fun state hfree =>
        hvalueAgrees.stored hvalue haccepts hstored hfree fun _ _ _ => rfl
  | @assignDeref note inner pointer value h hvalue hpointer ihvalue ihpointer =>
      have haccepts : inner.type.Accepts value.type := by
        cases h
        assumption
      have hstored := hcuts _ (mem_storings_assign.mpr (.inl rfl))
      have hvalueAgrees := ihvalue fun stored hmem =>
        hcuts stored (mem_storings_assign.mpr (.inr (.inr hmem)))
      have hpointerAgrees := ihpointer fun stored hmem =>
        hcuts stored (mem_storings_assign.mpr (.inr (.inl (by rwa [storings_unary]))))
      rw [Expr.lowerWith, Expr.lowerWith]
      refine .visit fun state hfree => hvalueAgrees.stored hvalue haccepts hstored hfree ?_
      intro r coerced hholds
      exact (hpointerAgrees.andThen _).visit coerced hholds.held_conflictFree
  | @binary note op left right h hleft hright ihleft ihright =>
      have hcombines : left.type.Combines right.type note.type := by
        cases h
        assumption
      obtain ⟨hleftScalar, hrightScalar, hcommon⟩ := hcombines.isScalar
      obtain ⟨hleftSize, hrightSize⟩ := hcombines.size_le
      have hleftAgrees := ihleft fun stored hmem =>
        hcuts stored (mem_storings_binary.mpr (.inl hmem))
      have hrightAgrees := ihright fun stored hmem =>
        hcuts stored (mem_storings_binary.mpr (.inr hmem))
      rw [Expr.lowerWith, Expr.lowerWith]
      refine .visit fun state hfree =>
        hleftAgrees.operand hleft hleftScalar hcommon hleftSize hfree fun l coerced hl => ?_
      exact hrightAgrees.operand hright hrightScalar hcommon hrightSize hl.held_conflictFree
        fun _ _ _ => rfl
  | addressName =>
      rw [Expr.lowerWith, Expr.lowerWith]
      exact .refl _
  | addressDeref h hpointer ih =>
      rw [Expr.lowerWith, Expr.lowerWith]
      exact .visit (ih fun stored hmem => hcuts stored (by rwa [storings_unary, storings_unary]))
  | deref h hoperand ih =>
      rw [Expr.lowerWith, Expr.lowerWith]
      exact .visit ((ih fun stored hmem => hcuts stored (by rwa [storings_unary])).andThen _)
  | @keeping note op operand h hoperand hop _ _ ih =>
      have hoperandAgrees := ih fun stored hmem => hcuts stored (by rwa [storings_unary])
      cases op <;> cases hop <;> rw [Expr.lowerWith, Expr.lowerWith]
      · exact .visit hoperandAgrees
      all_goals exact .visit (hoperandAgrees.andThen _)
  | @call note function arguments h harguments ih =>
      rw [Expr.lowerWith_call, Expr.lowerWith_call]
      refine .visit ((h.lowerCallWith_agrees ?_ ?_).andThen _)
      · exact fun argument hmem => ih argument hmem fun stored hstored =>
          hcuts stored (mem_storings_call.mpr (.inr ⟨argument, hmem, hstored⟩))
      · exact fun stored hmem => hcuts stored (mem_storings_call.mpr (.inl hmem))

end Expressions

/-! ## Statements -/

namespace Lowering

/-- From states without conflicts and with nothing pushed, two steps do the same. -/
def AgreesAtRest (step step' : Lowering Unit) : Prop :=
  ∀ state : LowerState, state.held.ConflictFree → state.depth = 0 → step.run state = step'.run state

/-- Steps that agree do so at rest. -/
theorem Agrees.atRest {step step' : Lowering Unit} (h : Agrees step step') :
    AgreesAtRest step step' := fun state hfree _ => h state hfree

namespace AgreesAtRest

variable {step step' next next' : Lowering Unit}

theorem refl (step : Lowering Unit) : AgreesAtRest step step := fun _ _ _ => rfl

/-- Steps that do the same are followed by such. -/
theorem bind (h : AgreesAtRest step step') (hrests : Rests step')
    (hnext : AgreesAtRest next next') :
    AgreesAtRest (step >>= fun _ => next) (step' >>= fun _ => next') := by
  intro state hfree hdepth
  obtain ⟨halways, hzero⟩ := hrests state hfree hdepth
  refine run_bind_congr (h state hfree hdepth) (hzero.and (conflictFree_after halways hfree)) ?_
  exact fun _ _ after hafter => hnext after hafter.2 hafter.1

/-- One step is followed by steps that do the same. -/
theorem after (hrests : Rests step) (hnext : AgreesAtRest next next') :
    AgreesAtRest (step >>= fun _ => next) (step >>= fun _ => next') := (refl step).bind hrests hnext

/-- What is done after steps that do the same does not matter. -/
theorem andThen (h : AgreesAtRest step step') (next : Lowering Unit) :
    AgreesAtRest (step >>= fun _ => next) (step' >>= fun _ => next) := by
  intro state hfree hdepth
  rw [run_bind, run_bind, h state hfree hdepth]

theorem numbered {family : Family} {steps steps' : Nat → Lowering Unit}
    (h : ∀ n, AgreesAtRest (steps n) (steps' n)) :
    AgreesAtRest (newLabel family >>= steps) (newLabel family >>= steps') :=
  fun state hfree hdepth =>
    h (state.labels.count family) { state with labels := state.labels.add family } hfree hdepth

end AgreesAtRest

end Lowering

section Statements

variable {allowed : Location → Bool} {otherwise : Reg → Lowering Reg} {frame : Frame}
  {scope outer : ScopeId}

theorem Frame.setInitialWith_agrees {declared : Declaration}
    (hinitial : ∀ value, declared.initial = some value →
      value.WellFormed frame.scopes scope ∧ declared.symbol.type.Accepts value.type)
    (hcuts : ∀ value, declared.initial = some value →
      (∀ stored ∈ value.storings, stored.CutsWhere allowed) ∧
      Storing.CutsWhere allowed ⟨declared.symbol.type, value.type, value.location⟩) :
    Agrees (frame.setInitialWith (coerceWhere allowed otherwise) declared)
      (frame.setInitialWith (fun _ => coerce) declared) := by
  unfold setInitialWith
  cases hvalue : declared.initial with
  | none => exact .refl _
  | some value =>
      obtain ⟨hwf, haccepts⟩ := hinitial value hvalue
      obtain ⟨hparts, hcut⟩ := hcuts value hvalue
      exact fun state hfree =>
        (hwf.lowerWith_agrees hparts).stored hwf haccepts hcut hfree fun _ _ _ => rfl

theorem Frame.discardWith_agrees {value : Expr} (h : value.WellFormed frame.scopes scope)
    (hcuts : ∀ stored ∈ value.storings, stored.CutsWhere allowed) :
    Agrees (frame.discardWith (coerceWhere allowed otherwise) value)
      (frame.discardWith (fun _ => coerce) value) := by
  refine Agrees.andThen ?_ _
  cases value with
  | call note function arguments =>
      have harguments : ∀ argument ∈ arguments, argument.WellFormed frame.scopes scope := by
        cases h
        assumption
      refine .visit (h.lowerCallWith_agrees (fun argument hmem => ?_) fun stored hmem => ?_)
      · exact (harguments argument hmem).lowerWith_agrees fun stored hstored =>
          hcuts stored (Expr.mem_storings_call.mpr (.inr ⟨argument, hmem, hstored⟩))
      · exact hcuts stored (Expr.mem_storings_call.mpr (.inl hmem))
  | _ => exact (h.lowerWith_agrees hcuts).andThen _

theorem Frame.testWith_agrees {condition : Expr} (h : condition.WellFormed frame.scopes scope)
    (hcuts : ∀ stored ∈ condition.storings, stored.CutsWhere allowed) :
    Agrees (frame.testWith (coerceWhere allowed otherwise) condition)
      (frame.testWith (fun _ => coerce) condition) := (h.lowerWith_agrees hcuts).andThen _

theorem Frame.testWith_rests (hnested : frame.Nested outer)
    (houter : outer ∈ frame.scopes.chain scope) {condition : Expr}
    (h : condition.WellFormed frame.scopes scope) (hvoid : condition.type.isVoid = false) :
    Rests (frame.testWith (fun _ => coerce) condition) := by
  rw [testWith_coerce]
  exact .of_settled (sound_test hnested.scopes h hvoid) (test_settled hnested houter h)

theorem Frame.leaveWith_agrees {result : Ty} (hresult : frame.resultSize = result.size)
    {value : Option Expr}
    (hvalue : ∀ given, value = some given →
      given.WellFormed frame.scopes scope ∧ result.Accepts given.type)
    (hcuts : ∀ given, value = some given →
      (∀ stored ∈ given.storings, stored.CutsWhere allowed) ∧
      Storing.CutsWhere allowed ⟨result, given.type, given.location⟩) :
    Agrees (frame.leaveWith (coerceWhere allowed otherwise) value scope)
      (frame.leaveWith (fun _ => coerce) value scope) := by
  refine Agrees.andThen ?_ _
  cases value with
  | none => exact .refl _
  | some given =>
      obtain ⟨hwf, haccepts⟩ := hvalue given rfl
      obtain ⟨hparts, hcut⟩ := hcuts given rfl
      simp only [leaveValueWith, leaveResultWith, hresult]
      exact fun state hfree =>
        (hwf.lowerWith_agrees hparts).stored hwf haccepts hcut hfree fun _ _ _ => rfl

theorem Lowering.lowerStatementsWith_agrees {body : List Statement}
    (hrests : ∀ statement ∈ body, Rests (statement.lower frame))
    (hagrees : ∀ statement ∈ body, AgreesAtRest
      (statement.lowerWith (coerceWhere allowed otherwise) frame)
      (statement.lowerWith (fun _ => coerce) frame)) :
    AgreesAtRest (lowerStatementsWith (coerceWhere allowed otherwise) frame body)
      (lowerStatementsWith (fun _ => coerce) frame body) := by
  induction body with
  | nil =>
      rw [lowerStatementsWith, lowerStatementsWith]
      exact .refl _
  | cons statement body ih =>
      rw [lowerStatementsWith, lowerStatementsWith]
      refine (hagrees statement List.mem_cons_self).bind ?_ (ih ?_ ?_)
      · rw [Statement.lowerWith_coerce]
        exact hrests statement List.mem_cons_self
      · exact fun statement hmem => hrests statement (List.mem_cons_of_mem _ hmem)
      · exact fun statement hmem => hagrees statement (List.mem_cons_of_mem _ hmem)

/-- A statement is lowered in the same way if everything that is stored in it is cut only where that
is allowed. -/
theorem Statement.WellFormed.lowerWith_agrees (hnested : frame.Nested outer) {result : Ty}
    (hresult : frame.resultSize = result.size) {statement : Statement}
    (h : statement.WellFormed frame.scopes result scope)
    (hscope : scope < frame.scopes.list.length)
    (hbody : frame.scope ∈ frame.scopes.chain scope)
    (hcuts : ∀ stored ∈ statement.storings result, stored.CutsWhere allowed) :
    AgreesAtRest (statement.lowerWith (coerceWhere allowed otherwise) frame)
      (statement.lowerWith (fun _ => coerce) frame) := by
  have hwf := hnested.scopes
  induction h with
  | @declaration scope declared hsymbol hvisible hinitial =>
      rw [Statement.storings_declaration] at hcuts
      rw [Statement.lowerWith, Statement.lowerWith]
      refine (Frame.setInitialWith_agrees hinitial ?_).atRest.andThen _
      intro value hvalue
      simp only [hvalue, Declaration.stores, Option.elim_some, Option.toList_some, List.map_cons,
        List.map_nil, List.mem_append, List.mem_singleton] at hcuts
      exact ⟨fun stored hmem => hcuts stored (.inl hmem), hcuts _ (.inr rfl)⟩
  | expression hvalue hcall =>
      rw [Statement.storings_expression] at hcuts
      rw [Statement.lowerWith, Statement.lowerWith]
      exact (Frame.discardWith_agrees hvalue hcuts).atRest.andThen _
  | @returning scope value location hnone hvalue =>
      rw [Statement.storings_returning] at hcuts
      rw [Statement.lowerWith, Statement.lowerWith]
      refine .after (.visit _) ((Frame.leaveWith_agrees hresult hvalue ?_).atRest.andThen _)
      rintro given rfl
      simp only [Option.elim_some, List.mem_append, List.mem_singleton] at hcuts
      exact ⟨fun stored hmem => hcuts stored (.inl hmem), hcuts _ (.inr rfl)⟩
  | @branch scope condition yes no location hcondition hvalue hyes hno ihyes ihno =>
      have houter := Scopes.mem_chain_trans hbody hnested.body
      have htest := Frame.testWith_rests hnested houter hcondition hvalue
      have hyesRests : Rests (yes.lowerWith (fun _ => coerce) frame) := by
        rw [Statement.lowerWith_coerce]
        exact hyes.rests hnested hresult hscope hbody
      have hconditionCuts : ∀ stored ∈ condition.storings, stored.CutsWhere allowed :=
        fun stored hmem => hcuts stored (Statement.mem_storings_branch.mpr (.inl hmem))
      have hyes := ihyes hscope hbody fun stored hmem =>
        hcuts stored (Statement.mem_storings_branch.mpr (.inr (.inl hmem)))
      rw [Statement.lowerWith, Statement.lowerWith]
      refine .after (.visit _) (.numbered fun n => ?_)
      refine (Frame.testWith_agrees hcondition hconditionCuts).atRest.bind htest ?_
      refine .after (.emit trivial) (.after (.mark _) (hyes.bind hyesRests ?_))
      refine .after (.emit trivial) (.after (.mark _) ?_)
      cases no with
      | none => exact .refl _
      | some other =>
          refine (ihno other rfl hscope hbody fun stored hmem => ?_).andThen _
          exact hcuts stored (Statement.mem_storings_branch.mpr (.inr (.inr ⟨other, rfl, hmem⟩)))
  | @loop scope condition body location hcondition hvalue hinner ih =>
      have houter := Scopes.mem_chain_trans hbody hnested.body
      have htest := Frame.testWith_rests hnested houter hcondition hvalue
      have hconditionCuts : ∀ stored ∈ condition.storings, stored.CutsWhere allowed :=
        fun stored hmem => hcuts stored (Statement.mem_storings_loop.mpr (.inl hmem))
      have hinner := ih hscope hbody fun stored hmem =>
        hcuts stored (Statement.mem_storings_loop.mpr (.inr hmem))
      rw [Statement.lowerWith, Statement.lowerWith]
      refine .after (.visit _) (.numbered fun n => .after (.mark _) ?_)
      refine (Frame.testWith_agrees hcondition hconditionCuts).atRest.bind htest ?_
      exact .after (.emit trivial) (.after (.mark _) (hinner.andThen _))
  | @block scope inner table body location hinner hparent hstatements ih =>
      have hlt := hwf.lt_of_parent hinner hparent
      have hknown := (List.getElem?_eq_some_iff.mp hinner).1
      have hmem : frame.scope ∈ frame.scopes.chain inner := by
        rw [Scopes.chain_of_parent hinner hparent hlt]
        exact List.mem_cons_of_mem _ hbody
      have hagrees := lowerStatementsWith_agrees
        (fun statement hstatement =>
          (hstatements statement hstatement).rests hnested hresult hknown hmem)
        (fun statement hstatement => ih statement hstatement hknown hmem fun stored hstored =>
          hcuts stored (Statement.mem_storings_block.mpr ⟨statement, hstatement, hstored⟩))
      rw [Statement.lowerWith, Statement.lowerWith, Scopes.frame_eq_ok_of_lt hknown]
      exact .after (.reserve _) (hagrees.andThen _)

end Statements

/-! ## Programs -/

section Programs

variable {allowed : Location → Bool} {otherwise : Reg → Lowering Reg}

/-- A function is lowered the same way if all its cuts are allowed. -/
theorem Function.WellFormed.lowerWith_agrees {scopes : Scopes} (hwf : scopes.WellFormed)
    {function : Function} (h : function.WellFormed scopes)
    (hcuts : ∀ stored ∈ (Item.function function).storings, stored.CutsWhere allowed) :
    AgreesAtRest (function.lowerWith (coerceWhere allowed otherwise) scopes)
      (function.lowerWith (fun _ => coerce) scopes) := by
  have hnested := h.nested hwf
  obtain ⟨result, types, table, htype, -, -, hbody⟩ := h.signature
  obtain ⟨inner, hinner, -⟩ := h.body
  have hknown := (List.getElem?_eq_some_iff.mp hinner).1
  have hsize : (function.toFrame scopes).resultSize = result.size := Symbol.resultSize_eq htype
  have hresult : function.symbol.result = result := by rw [Symbol.result, htype]
  have hagrees : AgreesAtRest
      (lowerStatementsWith (coerceWhere allowed otherwise) (function.toFrame scopes) function.body)
      (lowerStatementsWith (fun _ => coerce) (function.toFrame scopes) function.body) := by
    refine lowerStatementsWith_agrees (fun statement hmem => ?_) fun statement hmem => ?_
    · exact (hbody statement hmem).rests hnested hsize hknown (Scopes.mem_chain_self _ _)
    · refine (hbody statement hmem).lowerWith_agrees hnested hsize hknown
        (Scopes.mem_chain_self _ _) fun stored hstored => hcuts stored ?_
      rw [Item.storings, hresult]
      exact List.mem_flatMap.mpr ⟨statement, hmem, hstored⟩
  unfold Function.lowerWith
  rw [Scopes.frame_eq_ok_of_lt hknown]
  exact .after (.visit _) (.after (.mark _) (.after (.reserve _) (hagrees.andThen _)))

theorem Program.WellFormed.item_agrees {program : Program} (h : program.WellFormed) {item : Item}
    (hmem : item ∈ program.items) (hcuts : ∀ stored ∈ item.storings, stored.CutsWhere allowed) :
    AgreesAtRest (item.lowerWith (coerceWhere allowed otherwise) program.scopes)
      (item.lowerWith (fun _ => coerce) program.scopes) := by
  cases item with
  | global declared => exact .refl _
  | function defined => exact (h.functions defined hmem).lowerWith_agrees h.scopes hcuts

/-- A program has the same lines if everything that it stores is cut only where that is allowed. -/
theorem Program.WellFormed.linesWith_eq {program : Program} (h : program.WellFormed)
    (hcuts : ∀ stored ∈ program.storings, stored.CutsWhere allowed) :
    program.linesWith (coerceWhere allowed otherwise) = program.lines := by
  have hitems : ∀ items ⊆ program.items,
      AgreesAtRest (items.forM (Item.lowerWith (coerceWhere allowed otherwise) program.scopes))
        (items.forM (Item.lowerWith (fun _ => coerce) program.scopes)) := by
    intro items hitems
    induction items with
    | nil => exact .refl _
    | cons item items ih =>
        obtain ⟨hmem, hrest⟩ := List.cons_subset.mp hitems
        refine (h.item_agrees hmem fun stored hstored => ?_).bind ?_ (ih hrest)
        · exact hcuts stored (List.mem_flatMap.mpr ⟨item, hmem, hstored⟩)
        · rw [Item.lowerWith_coerce]
          exact h.item_rests hmem
  have hlower : AgreesAtRest (program.lowerWith (coerceWhere allowed otherwise))
      (program.lowerWith (fun _ => coerce)) := by
    unfold Program.lowerWith
    refine .after (.mark _) (.after (.emit trivial) (.after (.mark _) (.after (.emit trivial) ?_)))
    exact (hitems _ (List.Subset.refl _)).andThen _
  rw [← Program.linesWith_coerce, linesWith, linesWith,
    hlower .initial RegSet.conflictFree_empty rfl]

end Programs

end AccumulatorC
