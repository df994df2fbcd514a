import AccumulatorC.Proofs.Lowering.Headroom

/-!
# Headroom below the frames

Between statements nothing is in registers and nothing on the stack but frames. So a statement needs
the frames of the blocks in it and the headroom of its expressions, below the frames around it.
-/

namespace AccumulatorC

open Lowering

mutual

/-- A bound on the bytes by which a statement deepens the stack. -/
def Statement.headroom (scopes : Scopes) : Statement → Nat
  | .declaration declared => declared.initial.elim 0 Expr.headroom
  | .expression value => value.headroom
  | .returning value _ _ => value.elim 0 Expr.headroom
  | .branch condition yes none _ => max condition.headroom (yes.headroom scopes)
  | .branch condition yes (some no) _ =>
      max (max condition.headroom (yes.headroom scopes)) (no.headroom scopes)
  | .loop condition body _ => max condition.headroom (body.headroom scopes)
  | .block scope body _ => scopes.frameOf scope + Statement.allHeadroom scopes body

/-- A bound on the bytes by which statements one after the other deepen the stack. -/
def Statement.allHeadroom (scopes : Scopes) : List Statement → Nat
  | [] => 0
  | statement :: rest => max (statement.headroom scopes) (Statement.allHeadroom scopes rest)

end

/-- A statement of a body needs no more room than the body. -/
theorem Statement.headroom_le {scopes : Scopes} {body : List Statement} {statement : Statement}
    (h : statement ∈ body) : statement.headroom scopes ≤ allHeadroom scopes body := by
  induction body with
  | nil => cases h
  | cons first rest ih =>
      rw [allHeadroom]
      rcases List.mem_cons.mp h with rfl | h
      · exact Nat.le_max_left _ _
      · exact (ih h).trans (Nat.le_max_right _ _)

/-! ## Steps between statements -/

/-- From a state with nothing in registers and nothing pushed, the step stays inside the address
space and comes to such a state again. -/
def Lowering.Stays (step : Lowering Unit) : Prop :=
  ∀ state : LowerState, state.held = .empty → state.depth = 0 →
    Always Event.Fits step state ∧
      Ensures step state fun _ _ after => after.held = .empty ∧ after.depth = 0

namespace Lowering.Stays

variable {step next : Lowering Unit}

theorem bind (h : Stays step) (hnext : Stays next) : Stays (step >>= fun _ => next) := by
  intro state hheld hdepth
  obtain ⟨halways, hstays⟩ := h state hheld hdepth
  rw [always_bind, ensures_bind]
  refine ⟨⟨halways, hstays.mono ?_⟩, hstays.mono ?_⟩
  · exact fun _ _ middle hmiddle => (hnext middle hmiddle.1 hmiddle.2).1
  · exact fun _ _ middle hmiddle => (hnext middle hmiddle.1 hmiddle.2).2

theorem of_keeps (h : Calm step) (hkeeps : Keeps step) : Stays step := by
  intro state hheld hdepth
  refine ⟨h state, (hkeeps state).mono fun _ _ _ hafter => ?_⟩
  exact ⟨hafter.1.trans hheld, hafter.2.trans hdepth⟩

theorem of_settled {frame : Frame} {scope outer : ScopeId} {accesses : List Access}
    (h : ∀ state : LowerState, state.held = .empty → state.depth = 0 → Always Event.Fits step state)
    (hsettled : frame.Settled scope outer step accesses) : Stays step := by
  intro state hheld hdepth
  have hfree : state.held.ConflictFree := by
    rw [hheld]
    exact RegSet.conflictFree_empty
  refine ⟨h state hheld hdepth, (hsettled state hfree hdepth).mono fun _ _ _ hafter => ?_⟩
  exact ⟨hafter.1.trans hheld, hafter.2.1⟩

theorem pure : Stays (Pure.pure ()) :=
  of_keeps (Calm.pure ()) fun _ => ensures_pure.mpr ⟨rfl, rfl⟩

theorem emit (instr : Instr) : Stays (emit instr) := of_keeps (Calm.emit _) (Keeps.emit _)

theorem mark (label : Label) : Stays (mark label) := of_keeps (Calm.mark _) (Keeps.mark _)

theorem visit (location : Location) : Stays (visit location) :=
  of_keeps (Calm.visit _) fun _ => ensures_visit.mpr ⟨rfl, rfl⟩

theorem reserve (bytes : Nat) : Stays (reserve bytes) :=
  of_keeps (Calm.reserve _) fun _ => ensures_reserve.mpr ⟨rfl, rfl⟩

theorem release (bytes : Nat) : Stays (release bytes) :=
  of_keeps (Calm.release _) fun _ => ensures_release.mpr ⟨rfl, rfl⟩

theorem numbered {family : Family} {step : Nat → Lowering Unit} (h : ∀ n, Stays (step n)) :
    Stays (newLabel family >>= step) := by
  intro state hheld hdepth
  obtain ⟨halways, hstays⟩ := h (state.labels.count family)
    { state with labels := state.labels.add family } hheld hdepth
  rw [always_bind, ensures_bind, ensures_newLabel, ensures_newLabel]
  exact ⟨⟨Calm.newLabel family state, halways⟩, hstays⟩

/-- The check after a statement finds nothing. -/
theorem settle (h : Stays step) : Stays (step >>= fun _ => Frame.settle) := by
  apply h.bind
  intro state hheld hdepth
  simp [Frame.settle, hheld, hdepth]

end Lowering.Stays

/-! ## Statements -/

section Statements

variable {frame : Frame} {scope outer : ScopeId}

/-- At rest all that an expression needs is its headroom below the frames. -/
theorem Expr.WellFormed.fits_at_rest (hwf : frame.scopes.WellFormed) {e : Expr}
    (h : e.WellFormed frame.scopes scope)
    (hroom : frame.scopes.frames scope globalScope + e.headroom < addressLimit)
    {state : LowerState} (hheld : state.held = .empty) (hdepth : state.depth = 0) :
    Always Event.Fits (e.lower frame.scopes) state ∧
      Ensures (e.lower frame.scopes) state fun r code after =>
        Allocates e.type state r code after ∧ after.depth = 0 := by
  have hfree : state.held.ConflictFree := by
    rw [hheld]
    exact RegSet.conflictFree_empty
  have hwhole : state.whole = 0 := by rw [LowerState.whole, hheld, hdepth, RegSet.bytes_empty]
  refine ⟨h.fits hwf state hfree (by omega), (h.allocates state hfree).mono ?_⟩
  exact fun _ _ _ hafter => ⟨hafter, hafter.2.2.trans hdepth⟩

theorem Frame.fits_setInitial (hwf : frame.scopes.WellFormed) {declared : Declaration}
    (hvisible : frame.scopes.Visible scope declared.symbol)
    (hinitial : ∀ value, declared.initial = some value →
      value.WellFormed frame.scopes scope ∧ declared.symbol.type.Accepts value.type)
    (hroom : frame.scopes.frames scope globalScope +
      (Statement.declaration declared).headroom frame.scopes < addressLimit)
    {state : LowerState} (hheld : state.held = .empty) (hdepth : state.depth = 0) :
    Always Event.Fits (frame.setInitial declared) state := by
  rw [Statement.headroom] at hroom
  unfold setInitial
  cases hvalue : declared.initial with
  | none => exact always_pure
  | some value =>
      rw [hvalue, Option.elim_some] at hroom
      obtain ⟨hvalueWf, haccepts⟩ := hinitial value hvalue
      obtain ⟨hfits, hlowers⟩ := hvalueWf.fits_at_rest hwf hroom hheld hdepth
      simp only [hvalueWf.note_scope]
      rw [always_bind]
      refine ⟨hfits, hlowers.mono ?_⟩
      rintro r _ lowered ⟨⟨hholds, -, -⟩, hlowered⟩
      rw [always_bind]
      refine ⟨Calm.coerce r _ lowered,
        (coerce_holds hholds (Ty.size_of_isScalar haccepts.isScalar.1)).mono ?_⟩
      rintro r' _ coerced ⟨-, -, hcoerced⟩
      obtain ⟨haddressFits, haddress⟩ :=
        @Scopes.fits_address frame.scopes scope hwf _ hvisible coerced (by omega)
      rw [always_bind]
      refine ⟨haddressFits, haddress.mono ?_⟩
      rintro address _ _ ⟨-, hnext⟩
      exact ((Calm.store hnext r').bind fun _ => Calm.free r') _

theorem Frame.fits_discard (hwf : frame.scopes.WellFormed) {value : Expr}
    (h : value.WellFormed frame.scopes scope)
    (hroom : frame.scopes.frames scope globalScope + value.headroom < addressLimit)
    {state : LowerState} (hheld : state.held = .empty) (hdepth : state.depth = 0) :
    Always Event.Fits (frame.discard value) state := by
  have hback : ∀ result, Calm (giveBack result) := by
    intro result
    cases result with
    | none => exact Calm.pure ()
    | some r => exact Calm.free r
  rw [discard_eq, always_bind]
  refine ⟨?_, fun _ _ => hback _ _⟩
  cases value with
  | call note function arguments =>
      have hwhole : state.whole = 0 := by rw [LowerState.whole, hheld, hdepth, RegSet.bytes_empty]
      rw [Expr.headroom] at hroom
      have hcallRoom : state.whole + Expr.allHeadroom arguments +
          frame.scopes.frames scope globalScope < addressLimit := by omega
      rw [evaluate, always_bind, ensures_visit]
      refine ⟨Calm.visit _ state, fits_lowerCall h ?_ (by exact hcallRoom)⟩
      cases h with
      | call _ _ _ _ _ harguments => exact fun argument hmem => (harguments argument hmem).fits hwf
  | _ => exact always_map.mpr (h.fits_at_rest hwf hroom hheld hdepth).1

theorem Frame.fits_compareZero (r : Reg) : FitsIn 1 (compareZero r) := by
  unfold compareZero
  split
  · apply FitsIn.preservingAccumulator
    exact ((Calm.emit _).bind fun _ => (Calm.emit _).bind fun _ => Calm.emit _).fitsIn 0
  · apply FitsIn.ite ((Calm.emit _).fitsIn 1)
    apply FitsIn.preservingAccumulator
    exact ((Calm.emit _).bind fun _ => Calm.emit _).fitsIn 0

theorem Frame.fits_test (hwf : frame.scopes.WellFormed) {condition : Expr}
    (h : condition.WellFormed frame.scopes scope)
    (hroom : frame.scopes.frames scope globalScope + condition.headroom < addressLimit)
    {state : LowerState} (hheld : state.held = .empty) (hdepth : state.depth = 0) :
    Always Event.Fits (frame.test condition) state := by
  obtain ⟨hfits, hlowers⟩ := h.fits_at_rest hwf hroom hheld hdepth
  rw [test_eq, always_bind]
  refine ⟨hfits, hlowers.mono ?_⟩
  rintro r _ lowered ⟨-, hlowered⟩
  have hone : lowered.depth + 1 < addressLimit := by
    rw [hlowered]
    decide
  exact (fits_compareZero r).calmly (fun _ => Calm.free r) lowered hone

theorem Frame.fits_leave (hwf : frame.scopes.WellFormed) (hscope : scope < frame.scopes.list.length)
    (hbody : frame.scope ∈ frame.scopes.chain scope) {value : Option Expr}
    (h : ∀ given, value = some given → given.WellFormed frame.scopes scope)
    (hroom : frame.scopes.frames scope globalScope + value.elim 0 Expr.headroom < addressLimit)
    {state : LowerState} (hheld : state.held = .empty) (hdepth : state.depth = 0) :
    Always Event.Fits (frame.leave value scope) state := by
  -- The frames of the blocks that are left are part of all frames.
  have hknown := Nat.lt_of_le_of_lt (Scopes.le_of_mem_chain hbody) hscope
  have hframes := Scopes.frames_add hbody (hwf.global_mem_chain hknown)
  have hinside := @Scopes.framesInside_of_lt frame.scopes scope frame.scope hscope (by omega)
  have hend : Calm (frame.goToEnd scope) := by
    unfold goToEnd
    rw [hinside]
    exact (Calm.release _).bind fun _ => Calm.emit _
  rw [leave_eq, always_bind]
  refine ⟨?_, fun _ _ => hend _⟩
  cases value with
  | none => exact always_pure
  | some given =>
      rw [leaveValue, leaveResult, always_bind]
      refine ⟨((h given rfl).fits_at_rest hwf hroom hheld hdepth).1, fun _ _ => ?_⟩
      exact ((Calm.coerce _ _).bind fun r =>
        Calm.ite ((Calm.emit _).bind fun _ => Calm.free r) (Calm.free r)) _

theorem stays_lowerStatements {body : List Statement}
    (h : ∀ statement ∈ body, Stays (statement.lower frame)) :
    Stays (lowerStatements frame body) := by
  induction body with
  | nil =>
      rw [lowerStatements]
      exact .pure
  | cons statement body ih =>
      rw [lowerStatements]
      exact (h statement List.mem_cons_self).bind
        (ih fun statement hmem => h statement (List.mem_cons_of_mem _ hmem))

/-- A statement stays inside the address space where its headroom fits there below the frames around
it. -/
theorem Statement.WellFormed.stays (hnested : frame.Nested outer) {result : Ty}
    (hresult : frame.resultSize = result.size) {statement : Statement}
    (h : statement.WellFormed frame.scopes result scope) (hscope : scope < frame.scopes.list.length)
    (hbody : frame.scope ∈ frame.scopes.chain scope)
    (hroom : frame.scopes.frames scope globalScope + statement.headroom frame.scopes <
      addressLimit) : Stays (statement.lower frame) := by
  have hwf := hnested.scopes
  induction h with
  | declaration hsymbol hvisible hinitial =>
      have houter := Scopes.mem_chain_trans hbody hnested.body
      rw [Statement.lower]
      exact (Stays.of_settled (fun _ => Frame.fits_setInitial hwf hvisible hinitial hroom)
        (Frame.setInitial_settled hnested houter hvisible hinitial)).settle
  | expression hvalue hcall =>
      have houter := Scopes.mem_chain_trans hbody hnested.body
      rw [Statement.headroom] at hroom
      rw [Statement.lower]
      exact (Stays.of_settled (fun _ => Frame.fits_discard hwf hvalue hroom)
        (Frame.discard_settled hnested houter hvalue)).settle
  | returning hnone hvalue =>
      rw [Statement.headroom] at hroom
      rw [Statement.lower]
      have hfits := fun state => @Frame.fits_leave frame _ hwf hscope hbody _
        (fun given hgiven => (hvalue given hgiven).1) hroom state
      exact (Stays.visit _).bind (Stays.of_settled hfits
        (Frame.leave_settled hnested hbody hresult hvalue)).settle
  | @branch scope condition yes no location hcondition hvalue _ _ ihyes ihno =>
      have houter := Scopes.mem_chain_trans hbody hnested.body
      have hboth : condition.headroom ≤ (Statement.branch condition yes no location).headroom
            frame.scopes ∧
          yes.headroom frame.scopes ≤ (Statement.branch condition yes no location).headroom
            frame.scopes := by
        cases no <;> rw [Statement.headroom] <;> omega
      have hno : Stays (lowerElse frame no) := by
        cases no with
        | none => exact .pure
        | some other =>
            rw [Statement.headroom] at hroom
            exact ihno other rfl hscope hbody (by omega)
      have htest := Stays.of_settled (fun _ => Frame.fits_test hwf hcondition (by omega))
        (Frame.test_settled hnested houter hcondition)
      have hyes := ihyes hscope hbody (by omega)
      rw [Statement.lower_branch]
      exact (Stays.visit _).bind <| .numbered fun n => htest.bind <| (Stays.emit _).bind <|
        (Stays.mark _).bind <| hyes.bind <| (Stays.emit _).bind <| (Stays.mark _).bind <|
        hno.bind (Stays.mark _).settle
  | @loop scope condition body location hcondition hvalue _ ih =>
      have houter := Scopes.mem_chain_trans hbody hnested.body
      rw [Statement.headroom] at hroom
      have htest := Stays.of_settled (fun _ => Frame.fits_test hwf hcondition (by omega))
        (Frame.test_settled hnested houter hcondition)
      have hinside := ih hscope hbody (by omega)
      rw [Statement.lower]
      exact (Stays.visit _).bind <| .numbered fun n => (Stays.mark _).bind <| htest.bind <|
        (Stays.emit _).bind <| (Stays.mark _).bind <| hinside.bind <| (Stays.emit _).bind
        (Stays.mark _).settle
  | @block scope inner table body location hinner hparent _ ih =>
      have hlt := hwf.lt_of_parent hinner hparent
      have hknown := (List.getElem?_eq_some_iff.mp hinner).1
      have hmem : frame.scope ∈ frame.scopes.chain inner := by
        rw [Scopes.chain_of_parent hinner hparent hlt]
        exact List.mem_cons_of_mem _ hbody
      have hne : inner ≠ globalScope := Nat.ne_of_gt (Nat.lt_of_le_of_lt (Nat.zero_le _) hlt)
      have hframes := Scopes.frames_of_parent hinner hparent hlt hne
      rw [Statement.headroom] at hroom
      have hstatements := stays_lowerStatements fun statement hstatement => by
        have hle := @Statement.headroom_le frame.scopes _ _ hstatement
        exact ih statement hstatement hknown hmem (by omega)
      rw [Statement.lower, Scopes.frame_eq_ok_of_lt hknown]
      exact (Stays.reserve _).bind (hstatements.bind (Stays.release _).settle)

end Statements

/-! ## Programs -/

/-- A bound on the bytes on the stack while a function runs, its parameters among them. -/
def Function.headroom (scopes : Scopes) (function : Function) : Nat :=
  scopes.frames function.scope globalScope + Statement.allHeadroom scopes function.body

/-- A function whose frames and headroom fit into the address space stays inside it. -/
theorem Function.WellFormed.stays {scopes : Scopes} (hwf : scopes.WellFormed) {function : Function}
    (h : function.WellFormed scopes) (hroom : function.headroom scopes < addressLimit) :
    Stays (function.lower scopes) := by
  have hnested := h.nested hwf
  obtain ⟨result, types, table, htype, -, -, hbody⟩ := h.signature
  obtain ⟨inner, hinner, -⟩ := h.body
  have hknown := (List.getElem?_eq_some_iff.mp hinner).1
  rw [headroom] at hroom
  have hstatements : Stays (lowerStatements (function.toFrame scopes) function.body) := by
    apply stays_lowerStatements
    intro statement hmem
    have hle := @Statement.headroom_le scopes _ _ hmem
    have hstatementRoom : (function.toFrame scopes).scopes.frames function.scope globalScope +
        statement.headroom (function.toFrame scopes).scopes < addressLimit := by
      simp only [toFrame]
      omega
    exact (hbody statement hmem).stays hnested (Symbol.resultSize_eq htype) hknown
      (Scopes.mem_chain_self _ _) hstatementRoom
  unfold Function.lower
  rw [Scopes.frame_eq_ok_of_lt hknown]
  exact (Stays.visit _).bind <| (Stays.mark _).bind <| (Stays.reserve _).bind <|
    hstatements.bind <| (Stays.mark _).bind <| (Stays.release _).bind (Stays.emit _)

theorem Declaration.calm_lowerGlobal (declared : Declaration) : Calm declared.lowerGlobal := by
  have hdata : Calm declared.data := by
    unfold Declaration.data
    split
    · exact .pure _
    · exact (Calm.stringData _ _).bind fun label => .pure _
    · split
      · exact .fail _
      · exact .ite (.pure _) (.pure _)
  apply Calm.ite (.pure ())
  apply (Calm.visit _).bind
  intro _
  exact hdata.bind fun data => (Calm.emit _).bind fun _ => (Calm.mark _).bind fun _ => .line _

theorem Program.WellFormed.stays {program : Program} (h : program.WellFormed)
    (hroom : ∀ function, Item.function function ∈ program.items →
      function.headroom program.scopes < addressLimit) : Stays program.lower := by
  have hitem : ∀ item ∈ program.items, Stays (Item.lower program.scopes item) := by
    intro item hmem
    cases item with
    | function defined => exact (h.functions defined hmem).stays h.scopes (hroom defined hmem)
    | global declared => exact .of_keeps declared.calm_lowerGlobal (keeps_lowerGlobal declared)
  have hitems : ∀ items : List Item, (∀ item ∈ items, Stays (Item.lower program.scopes item)) →
      Stays (items.forM (Item.lower program.scopes)) := by
    intro items hitems
    induction items with
    | nil => exact .pure
    | cons item items ih =>
        exact (hitems item List.mem_cons_self).bind
          (ih fun item hmem => hitems item (List.mem_cons_of_mem _ hmem))
  unfold Program.lower
  exact (Stays.mark _).bind <| (Stays.emit _).bind <| (Stays.mark _).bind <|
    (Stays.emit _).bind <| (hitems _ hitem).bind (Stays.mark _)

/-- The lowering of a program that has been read breaks down only over byte counts, and only where a
function does not fit into the address space with its frames. -/
theorem Program.WellFormed.breakdown {program : Program} (h : program.WellFormed)
    {cause : Breakdown} (hlines : program.lines = .error (.breakdown cause)) :
    cause = .overflow ∧ ∃ function, Item.function function ∈ program.items ∧
      addressLimit ≤ function.headroom program.scopes := by
  have hcause : cause = .overflow := by
    obtain ⟨stop, here, hpermitted, hstop⟩ := h.permitted hlines
    cases stop with
    | diagnosis found => cases hstop
    | breakdown found =>
        cases hstop
        exact hpermitted
  subst hcause
  refine ⟨rfl, ?_⟩
  by_contra hnone
  push Not at hnone
  obtain ⟨stop, here, hmem, hstop⟩ := stops_mem_events (map_eq_error.mp hlines)
  have hfits := (h.stays hnone .initial rfl rfl).1 _ hmem
  cases stop with
  | diagnosis found => cases hstop
  | breakdown found =>
      cases hstop
      exact hfits rfl

end AccumulatorC
