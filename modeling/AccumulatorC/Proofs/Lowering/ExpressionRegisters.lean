import AccumulatorC.Proofs.Lowering.Calling
import AccumulatorC.Proofs.Program.WellFormed

/-!
# The registers of an expression

Lowering a well-formed expression takes one register more, of the size of its type, which
overlaps none of those in use, and leaves the count of pushed bytes as it was. Lowering
arguments leaves the registers in use as they are and pushes as many bytes as the parameters
take.
-/

namespace AccumulatorC

open Lowering

theorem Expr.lower_call (scopes : Scopes) (note : Note) (function : Symbol)
    (arguments : List Expr) :
    (Expr.call note function arguments).lower scopes = (do
      visit note.location
      match ← lowerCall scopes function arguments with
      | some r => return r
      | none => fail .voidValue) := by
  rw [Expr.lower]
  refine bind_congr fun _ => ?_
  rw [lowerCall, bind_assoc]
  refine bind_congr fun saved => ?_
  exact (bind_assoc _ _ _).symm

/-- Where a symbol is found: at its distance from the stack pointer, with the bytes that have
been pushed, or at its label. -/
theorem Scopes.address_ensures {scopes : Scopes} {symbol : Symbol} {scope : ScopeId}
    {state : LowerState} :
    Ensures (scopes.address symbol scope) state fun address code after =>
      code = [] ∧ after = state ∧
      ((∃ offset, scopes.stackOffset symbol scope = .ok (some offset) ∧
          address = .stack (offset + state.depth)) ∨
        (scopes.stackOffset symbol scope = .ok none ∧ address = .label symbol.name 0)) := by
  unfold Scopes.address
  simp only [ensures_bind, ensures_lift]
  intro found hfound
  cases found with
  | none =>
      rw [ensures_pure]
      exact ⟨rfl, rfl, Or.inr ⟨hfound, rfl⟩⟩
  | some offset =>
      simp only [ensures_bind, ensures_get, ensures_lift, ensures_pure]
      intro sum hsum
      rw [addBytes_eq_ok] at hsum
      exact ⟨rfl, trivial, Or.inl ⟨offset, hfound, by rw [hsum.2]⟩⟩

/-! ## Expressions -/

/-- Lowering a value of a type takes one register more, of the type's size. -/
def Allocates (type : Ty) (state : LowerState) : Post Reg := fun r _ after =>
  Holds state.held r after ∧ (type.isVoid = false → r.size = type.size) ∧
    after.depth = state.depth

/-- What comes after taking the register need only keep the registers and the depth. -/
theorem Allocates.keep {type : Ty} {state middle after : LowerState} {r : Reg}
    {code : List Line} (h : Allocates type state r code middle)
    (hkeep : after.held = middle.held ∧ after.depth = middle.depth) :
    Allocates type state r code after := by
  obtain ⟨⟨hheld, hfree, hset⟩, hsize, hdepth⟩ := h
  exact ⟨⟨hkeep.1.trans hheld, hfree, hset⟩, hsize, hkeep.2.trans hdepth⟩

theorem allocate_allocates {type : Ty} {state : LowerState} (h : state.held.ConflictFree) :
    Ensures (allocate type.size) state (Allocates type state) := by
  rw [ensures_allocate]
  intro r hr
  refine ⟨⟨rfl, (RegSet.firstFree_eq_some hr).1, h⟩, fun hvoid => ?_, rfl⟩
  exact RegSet.size_of_firstFree (Ty.size_of_not_void hvoid) hr

/-- Registers that a conflict-free set lists are apart from one another. -/
theorem RegSet.ConflictFree.apart {set : RegSet} (h : set.ConflictFree) :
    set.toList.Pairwise Reg.Apart := by
  refine (RegSet.nodup_toList set).imp_of_mem fun {r s} hr hs hne => ?_
  exact h r s (RegSet.mem_toList.mp hr) (RegSet.mem_toList.mp hs) hne

/-- A call takes the register of its result, if there is any. -/
structure AllocatesResult (function : Symbol) (state : LowerState) (result : Option Reg)
    (after : LowerState) : Prop where
  depth : after.depth = state.depth
  none : result = none → function.resultSize = 0 ∧ after.held = state.held
  some : ∀ r, result = some r → Holds state.held r after ∧ function.resultSize ≠ 0 ∧
    r.size = (Reg.result function.resultSize).size

/-- Arguments are pushed when each of them is left in a register of its own. -/
theorem lowerArguments_pushes {scopes : Scopes} {parameters : List Ty} {arguments : List Expr}
    (haccepts : List.Forall₂ (fun parameter (argument : Expr) => parameter.Accepts argument.type)
      parameters arguments)
    (hlower : ∀ argument ∈ arguments, ∀ state : LowerState, state.held.ConflictFree →
      Ensures (argument.lower scopes) state (Allocates argument.type state))
    {state : LowerState} (hfree : state.held.ConflictFree) :
    Ensures (lowerArguments scopes parameters arguments) state fun pushed _ after =>
      pushed = (parameters.map Ty.size).sum ∧ after.held = state.held ∧
        after.depth = state.depth + pushed := by
  induction haccepts generalizing state with
  | nil => simp [lowerArguments]
  | @cons parameter argument parameters arguments haccept _ ih =>
      have hscalar := haccept.isScalar
      rw [lowerArguments, ensures_bind]
      refine (hlower argument List.mem_cons_self state hfree).mono ?_
      rintro r _ lowered ⟨hholds, hsize, hdepth⟩
      rw [ensures_bind]
      refine (coerce_holds hholds (Ty.size_of_isScalar hscalar.1)).mono ?_
      rintro r' _ coerced ⟨hholds', hsize', hdepth'⟩
      simp only [save, ensures_bind, ensures_push, ensures_free, ensures_lift]
      intro _
      rw [hholds'.erase]
      refine (ih (fun argument hmem => hlower argument (List.mem_cons_of_mem _ hmem))
        (by exact hfree)).mono ?_
      rintro rest _ after ⟨hrest, hheld, hafter⟩ total htotal
      rw [addBytes_eq_ok] at htotal
      refine ⟨?_, hheld, ?_⟩
      · rw [htotal.2, hrest, List.map_cons, List.sum_cons]
      · rw [hafter, htotal.2, hdepth', hdepth, hsize', Nat.add_assoc]

theorem Symbol.parameters_eq {function : Symbol} {result : Ty} {types : List Ty}
    (h : function.type = .function result types) : function.parameters = types := by
  simp [Symbol.parameters, h]

theorem Symbol.resultSize_eq {function : Symbol} {result : Ty} {types : List Ty}
    (h : function.type = .function result types) : function.resultSize = result.size := by
  simp [Symbol.resultSize, h]

/-- A call allocates a register for its result and leaves the others as they were. -/
theorem lowerCall_allocates {scopes : Scopes} {scope : ScopeId} {note : Note}
    {function : Symbol} {arguments : List Expr}
    (h : (Expr.call note function arguments).WellFormed scopes scope)
    (hlower : ∀ argument ∈ arguments, ∀ state : LowerState, state.held.ConflictFree →
      Ensures (argument.lower scopes) state (Allocates argument.type state))
    {state : LowerState} (hfree : state.held.ConflictFree) :
    Ensures (lowerCall scopes function arguments) state fun result _ after =>
      AllocatesResult function state result after := by
  obtain ⟨parameters, htype, haccepts⟩ : ∃ parameters,
      function.type = .function note.type parameters ∧
      List.Forall₂ (fun parameter (argument : Expr) => parameter.Accepts argument.type)
        parameters arguments := by
    cases h with
    | call _ _ htype _ haccepts _ => exact ⟨_, htype, haccepts⟩
  unfold lowerCall
  rw [ensures_bind, Symbol.parameters_eq htype]
  refine saveAll_ensures.mono ?_
  rintro saved _ emptied ⟨rfl, rfl, hempty, hdepth, -⟩
  rw [ensures_bind]
  have hnone : emptied.held.ConflictFree := by
    rw [hempty]
    exact RegSet.conflictFree_empty
  refine (lowerArguments_pushes haccepts hlower hnone).mono ?_
  rintro pushed _ pushedState ⟨-, hheld, hpushed⟩
  refine (finishCall_ensures (hheld.trans hempty) hfree.apart).mono ?_
  rintro result _ after ⟨-, rest, -, hrestores⟩
  have hafter : after.depth = state.depth := by
    have := hrestores.depth
    simp only at this
    omega
  refine ⟨hafter, fun hnone => ⟨(hrestores.none hnone).1, RegSet.ext fun r => ?_⟩, fun r hr => ?_⟩
  · rw [Bool.eq_iff_iff, hrestores.held, RegSet.mem_toList, hnone]
    simp
  · obtain ⟨hsize, hrsize, hapart, -⟩ := hrestores.some r hr
    refine ⟨⟨RegSet.ext fun s => ?_, ?_, hfree⟩, hsize, hrsize⟩
    · rw [Bool.eq_iff_iff, hrestores.held, RegSet.mem_toList, hr]
      simp only [RegSet.contains_insert, Bool.or_eq_true, decide_eq_true_eq, Option.some.injEq]
      constructor
      · rintro (hs | rfl)
        · exact Or.inr hs
        · exact Or.inl rfl
      · rintro (rfl | hs)
        · exact Or.inr rfl
        · exact Or.inl hs
    · exact RegSet.isFree_iff.mpr fun s hs => hapart s (RegSet.mem_toList.mpr hs)

/-- Lowering a well-formed expression takes one register more, of the size of its type. -/
theorem Expr.WellFormed.allocates {scopes : Scopes} {scope : ScopeId} {e : Expr}
    (h : e.WellFormed scopes scope) (state : LowerState) (hfree : state.held.ConflictFree) :
    Ensures (e.lower scopes) state (Allocates e.type state) := by
  induction h using Expr.WellFormed.alongLowering generalizing state with
  | number h =>
      rw [Expr.lower]
      simp only [ensures_bind, ensures_visit, ensures_emit, ensures_pure]
      exact (allocate_allocates (by exact hfree)).mono fun r _ after hr => hr
  | @string note bytes h =>
      have htype : note.type = .pointer .char := by cases h; assumption
      rw [Expr.lower]
      simp only [stringData, ensures_bind, ensures_visit, ensures_newLabel, ensures_emit,
        ensures_mark, ensures_line, ensures_pure]
      have hsize : 2 = Ty.size note.type := by rw [htype]; rfl
      rw [hsize]
      exact (allocate_allocates (by exact hfree)).mono fun r _ after hr => hr
  | name h =>
      rw [Expr.lower]
      simp only [ensures_bind, ensures_visit, ensures_pure]
      refine Scopes.address_ensures.mono ?_
      rintro address _ _ ⟨rfl, rfl, -⟩
      refine (allocate_allocates (by exact hfree)).mono fun r _ middle hr => ?_
      exact (keeps_load r address middle).mono fun _ _ after hafter => hr.keep hafter
  | @assignName note inner symbol value h hvalue ih =>
      obtain ⟨htype, haccepts⟩ : note.type = inner.type ∧ inner.type.Accepts value.type := by
        cases h
        exact ⟨by assumption, by assumption⟩
      rw [Expr.lower]
      simp only [ensures_bind, ensures_visit, ensures_pure]
      refine (ih _ (by exact hfree)).mono ?_
      rintro r _ lowered ⟨hholds, -, hdepth⟩
      refine (coerce_holds hholds (Ty.size_of_isScalar haccepts.isScalar.1)).mono ?_
      rintro r' _ coerced ⟨hholds', hsize, hdepth'⟩
      refine Scopes.address_ensures.mono ?_
      rintro address _ _ ⟨rfl, rfl, -⟩
      refine (keeps_store address r' _).mono fun _ _ after hafter => ?_
      have hcoerced : Allocates note.type state r' [] coerced :=
        ⟨hholds', fun _ => by rw [hsize, htype], hdepth'.trans hdepth⟩
      exact hcoerced.keep hafter
  | @assignDeref note inner pointer value h hvalue hpointer ihvalue ihpointer =>
      obtain ⟨htype, haccepts⟩ : note.type = inner.type ∧ inner.type.Accepts value.type := by
        cases h
        exact ⟨by assumption, by assumption⟩
      rw [Expr.lower]
      simp only [ensures_bind, ensures_visit, ensures_pure]
      refine (ihvalue _ (by exact hfree)).mono ?_
      rintro r _ lowered ⟨hholds, -, hdepth⟩
      refine (coerce_holds hholds (Ty.size_of_isScalar haccepts.isScalar.1)).mono ?_
      rintro r' _ coerced ⟨hholds', hsize, hdepth'⟩
      refine (ihpointer _ (by exact hholds'.held_conflictFree)).mono ?_
      rintro pair _ pointed ⟨hpair, -, hpointed⟩
      refine (keeps_store (.indirect pair) r' pointed).mono fun _ _ stored hstored => ?_
      rw [ensures_free]
      have hcoerced : Allocates note.type state r' [] coerced :=
        ⟨hholds', fun _ => by rw [hsize, htype], hdepth'.trans hdepth⟩
      refine hcoerced.keep ⟨?_, hstored.2.trans hpointed⟩
      exact (congrArg (·.erase pair) hstored.1).trans hpair.erase
  | @binary note op left right h hleft hright ihleft ihright =>
      have hcombines : left.type.Combines right.type note.type := by
        cases h
        assumption
      have hsize := Ty.size_of_isScalar hcombines.isScalar.2.2
      rw [Expr.lower]
      simp only [ensures_bind, ensures_visit]
      refine (ihleft _ (by exact hfree)).mono ?_
      rintro l _ first ⟨hl, -, hfirst⟩
      refine (coerce_holds hl hsize).mono ?_
      rintro l' _ second ⟨hl', hlsize, hwidened⟩
      refine (ihright _ hl'.held_conflictFree).mono ?_
      rintro r _ third ⟨hr, -, hright⟩
      refine (coerce_holds hr hsize).mono ?_
      rintro r' _ fourth ⟨hr', -, hcoerced⟩
      refine (operate_replaces hr'.contains).mono fun result _ after hafter => ?_
      rw [hl'.held] at hr'
      obtain ⟨hholds, rfl, hresult⟩ := hafter.holds hl'.isFree hl'.conflictFree hr'
      refine ⟨hholds, fun _ => hlsize, ?_⟩
      rw [hresult, hcoerced, hright, hwidened, hfirst]
  | @addressName note inner symbol h =>
      have htype : note.type = .pointer inner.type := by
        cases h with
        | addressOf _ _ _ htype => exact htype
        | keeping hop => cases hop
      rw [Expr.lower]
      simp only [ensures_bind, ensures_visit, ensures_emit, ensures_pure]
      refine Scopes.address_ensures.mono ?_
      rintro address _ _ ⟨rfl, rfl, -⟩
      have hsize : 2 = Ty.size note.type := by rw [htype]; rfl
      rw [hsize]
      exact (allocate_allocates (by exact hfree)).mono fun r _ after hr => hr
  | @addressDeref note inner pointer h hpointer ih =>
      obtain ⟨htype, hderef⟩ : note.type = .pointer inner.type ∧
          (Expr.unary inner .deref pointer).WellFormed scopes scope := by
        cases h with
        | addressOf _ _ _ htype hoperand => exact ⟨htype, hoperand⟩
        | keeping hop => cases hop
      have hsame : pointer.type = note.type := hderef.of_deref.2.1.trans htype.symm
      rw [Expr.lower]
      simp only [ensures_bind, ensures_visit]
      refine (ih _ (by exact hfree)).mono fun r _ after hr => ?_
      rw [hsame] at hr
      exact hr
  | @deref note operand h hoperand ih =>
      rw [Expr.lower]
      simp only [ensures_bind, ensures_visit, ensures_pure]
      refine (ih _ (by exact hfree)).mono ?_
      rintro pair _ pointed ⟨hpair, -, hdepth⟩
      refine (allocate_allocates hpair.held_conflictFree).mono ?_
      rintro r _ taken ⟨hr, hsize, hdepth'⟩
      refine (keeps_load r (.indirect pair) taken).mono fun _ _ loaded hloaded => ?_
      rw [ensures_free]
      -- The pair is given back from below the register that was loaded.
      have hfree' := hr.isFree
      rw [hpair.held, RegSet.isFree_insert] at hfree'
      have hne : r ≠ pair := by
        rintro rfl
        simp at hfree'
      refine ⟨⟨?_, hfree'.1, hfree⟩, hsize, ?_⟩
      · show loaded.held.erase pair = state.held.insert r
        rw [hloaded.1, hr.held, RegSet.erase_insert_of_ne hne, hpair.erase]
      · exact hloaded.2.trans (hdepth'.trans hdepth)
  | @keeping note op operand h hoperand hop htype hvoid ih =>
      have hsame : operand.type = note.type := htype.symm
      cases op with
      | addressOf => cases hop
      | deref => cases hop
      | plus =>
          rw [Expr.lower]
          simp only [ensures_bind, ensures_visit]
          refine (ih _ (by exact hfree)).mono fun r _ after hr => ?_
          rw [hsame] at hr
          exact hr
      | negate =>
          rw [Expr.lower]
          simp only [ensures_bind, ensures_visit]
          refine (ih _ (by exact hfree)).mono ?_
          rintro r _ lowered ⟨hr, hsize, hdepth⟩
          refine (negate_holds hr).mono ?_
          rintro r' _ after ⟨hr', hsize', hdepth'⟩
          rw [hsame] at hsize
          exact ⟨hr', fun hvoid => hsize'.trans (hsize hvoid), hdepth'.trans hdepth⟩
      | increment =>
          rw [Expr.lower]
          simp only [ensures_bind, ensures_visit, ensures_pure]
          refine (ih _ (by exact hfree)).mono fun r _ lowered hr => ?_
          rw [hsame] at hr
          exact (keeps_stepBy _ _ _ lowered).mono fun _ _ after hafter => hr.keep hafter
      | decrement =>
          rw [Expr.lower]
          simp only [ensures_bind, ensures_visit, ensures_pure]
          refine (ih _ (by exact hfree)).mono fun r _ lowered hr => ?_
          rw [hsame] at hr
          exact (keeps_stepBy _ _ _ lowered).mono fun _ _ after hafter => hr.keep hafter
  | @call note function arguments h harguments ih =>
      obtain ⟨parameters, htype⟩ : ∃ parameters,
          function.type = .function note.type parameters := by
        cases h
        exact ⟨_, by assumption⟩
      rw [Expr.lower_call]
      simp only [ensures_bind, ensures_visit]
      refine (lowerCall_allocates h ih (by exact hfree)).mono fun result _ after hresult => ?_
      cases result with
      | none => exact ensures_fail
      | some r =>
          rw [ensures_pure]
          obtain ⟨hholds, -, hsize⟩ := hresult.some r rfl
          refine ⟨hholds, fun hvoid => ?_, hresult.depth⟩
          rw [hsize, Symbol.resultSize_eq htype, Reg.size_result]
          have hone := Ty.size_of_not_void hvoid
          simp only [Expr.type, Expr.note] at hone ⊢
          split <;> omega

end AccumulatorC
