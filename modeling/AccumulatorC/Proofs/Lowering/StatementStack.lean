import AccumulatorC.Proofs.Lowering.ExpressionStack
import AccumulatorC.Proofs.Lowering.StatementLabels

/-!
# The stack along the code of statements and functions

Between statements nothing but frames is on the stack. A block puts its frame there and takes it
off again; a return takes off all frames inside that of the function and goes on at the end of
the function, where the last one is taken off.
-/

namespace AccumulatorC

open Lowering

/-- Parameters lie in a scope directly inside the global one. -/
theorem Scopes.WellFormed.local_inside {scopes : Scopes} (hwf : scopes.WellFormed)
    {outer scope : ScopeId} (hroot : scopes.chain outer = [outer, globalScope])
    (houter : outer ∈ scopes.chain scope) (symbol : Symbol) (offset : Nat)
    (hvisible : scopes.Visible scope symbol) (hstorage : symbol.storage = .framed offset) :
    outer ∈ scopes.chain symbol.scope := by
  obtain ⟨table, -, -, hplace⟩ := hvisible.places hwf
  rw [Scope.Places, hstorage] at hplace
  rcases Scopes.mem_chain_total hvisible.1 houter with hmem | hmem
  · exact hmem
  · rw [hroot] at hmem
    rcases List.mem_cons.mp hmem with heq | hmem
    · rw [heq]
      exact Scopes.mem_chain_self _ _
    · exact absurd (List.mem_singleton.mp hmem) hplace.1

/-- The scopes of a function: that of its parameters lies in the global one, and that of its body
in it. -/
structure Frame.Nested (frame : Frame) (outer : ScopeId) : Prop where
  scopes : frame.scopes.WellFormed
  root : frame.scopes.chain outer = [outer, globalScope]
  body : outer ∈ frame.scopes.chain frame.scope

namespace Frame

/-- What is around the statements of a function: its end, with the frame of its body. -/
def around (frame : Frame) (outer : ScopeId) : LabelShapes :=
  [(.exit frame.name, frame.scopes.frameShape frame.scope outer)]

/-- A statement that goes on leaves nothing on the stack. -/
theorem ensures_settle {state : LowerState} {post : Post Unit} :
    Ensures settle state post ↔ (state.depth = 0 → post () [] state) := by
  simp [settle]

/-- A step in a scope, with nothing but frames on the stack, keeps the registers in use, leaves
the stack as it was and addresses bytes of locals in order. -/
def Settled (frame : Frame) (scope outer : ScopeId) (step : Lowering Unit)
    (accesses : List Access) : Prop :=
  ∀ state : LowerState, state.held.ConflictFree → state.depth = 0 →
    Ensures step state fun _ code after => after.held = state.held ∧ after.depth = 0 ∧
      Addresses frame.scopes outer (frame.around outer) (frame.scopes.frameShape scope outer) code
        (frame.scopes.frameShape scope outer) accesses

variable {frame : Frame} {scope outer : ScopeId}

theorem Settled.settle {step : Lowering Unit} {accesses : List Access}
    (h : frame.Settled scope outer step accesses) :
    frame.Settled scope outer (step >>= fun _ => settle) accesses := by
  intro state hfree hdepth
  rw [ensures_bind]
  refine (h state hfree hdepth).mono ?_
  intro _ code after hafter
  simp only [Frame.ensures_settle, List.append_nil]
  exact fun _ => hafter

theorem settled_pure : frame.Settled scope outer (pure ()) [] := by
  intro state _ hdepth
  rw [ensures_pure]
  exact ⟨rfl, hdepth, .nil⟩

/-- An expression in a statement: its value is held, and the stack is as it was. -/
theorem lower_settled (hnested : frame.Nested outer) (houter : outer ∈ frame.scopes.chain scope)
    {value : Expr} (h : value.WellFormed frame.scopes scope) {state : LowerState}
    (hfree : state.held.ConflictFree) (hdepth : state.depth = 0) :
    Ensures (value.lower frame.scopes) state fun r code after =>
      Allocates value.type state r code after ∧
      Addresses frame.scopes outer (frame.around outer) (frame.scopes.frameShape scope outer) code
        (frame.scopes.frameShape scope outer) value.accesses := by
  have hlocal := hnested.scopes.local_inside hnested.root houter
  have hbalanced := h.balanced hnested.scopes hlocal state [] hfree (by simp [hdepth])
  refine ((h.allocates state hfree).and hbalanced).mono ?_
  intro r code after hafter
  exact ⟨hafter.1, hafter.2.of_nil⟩

theorem setInitial_settled (hnested : frame.Nested outer)
    (houter : outer ∈ frame.scopes.chain scope) {declared : Declaration}
    (hvisible : frame.scopes.Visible scope declared.symbol)
    (hinitial : ∀ value, declared.initial = some value →
      value.WellFormed frame.scopes scope ∧ declared.symbol.type.Accepts value.type) :
    frame.Settled scope outer (frame.setInitial declared)
      (Statement.declaration declared).accesses := by
  intro state hfree hdepth
  unfold setInitial
  cases hvalue : declared.initial with
  | none =>
      simp only [Statement.accesses, hvalue]
      exact settled_pure state hfree hdepth
  | some value =>
      obtain ⟨hwf, haccepts⟩ := hinitial value hvalue
      have hscope : value.note.scope = scope := by cases hwf <;> assumption
      simp only [Statement.accesses, hvalue, ensures_bind, hscope]
      refine (lower_settled hnested houter hwf hfree hdepth).mono ?_
      intro r code lowered hlowered
      obtain ⟨⟨hholds, -, hdepth'⟩, hcode⟩ := hlowered
      refine ((Evens.coerce r _ lowered).and
        (coerce_holds hholds (Ty.size_of_isScalar haccepts.isScalar.1))).mono ?_
      intro r' code' coerced hcoerced
      obtain ⟨hcode', hholds', hsize, hdepth''⟩ := hcoerced
      have hzero : coerced.depth = 0 := by omega
      refine Scopes.address_ensures.mono ?_
      rintro address _ _ ⟨rfl, rfl, haddress⟩
      refine ((level_store (frame.scopes.frameShape scope outer) address r' _).and
        (keeps_store address r' _)).mono ?_
      intro _ storeCode stored hstored
      obtain ⟨hstore, hheld, hdepth'''⟩ := hstored
      rw [ensures_free]
      refine ⟨?_, hdepth'''.trans hzero, ?_⟩
      · show stored.held.erase r' = state.held
        rw [hheld, hholds'.erase]
      · have hoperands := Symbol.accesses_at [] hvisible
          (fun offset => hnested.scopes.local_inside hnested.root houter _ offset hvisible)
          (by simp [hzero])
          haddress (fun _ _ => hsize.symm)
        have hwrites : Addresses frame.scopes outer (frame.around outer)
            (frame.scopes.frameShape scope outer) storeCode
            (frame.scopes.frameShape scope outer)
            (declared.symbol.accesses scope declared.symbol.type.size) :=
          ⟨_, hstore.of_nil _, hoperands⟩
        simpa using (hcode.then_even hcode').append hwrites

/-- A value that nothing uses leaves the stack as it was. -/
theorem discard_settled (hnested : frame.Nested outer) (houter : outer ∈ frame.scopes.chain scope)
    {value : Expr} (h : value.WellFormed frame.scopes scope) :
    frame.Settled scope outer (frame.discard value) value.accesses := by
  intro state hfree hdepth
  rw [discard_eq, ensures_bind]
  -- Either there is no register to give back, or it is the only one taken.
  have hback : ∀ {result : Option Reg} {middle : LowerState} {code : List Line},
      middle.depth = 0 → (result = none → middle.held = state.held) →
      (∀ r, result = some r → Holds state.held r middle) →
      Addresses frame.scopes outer (frame.around outer) (frame.scopes.frameShape scope outer) code
        (frame.scopes.frameShape scope outer) value.accesses →
      Ensures (giveBack result) middle fun _ code' after =>
        after.held = state.held ∧ after.depth = 0 ∧
        Addresses frame.scopes outer (frame.around outer) (frame.scopes.frameShape scope outer)
          (code ++ code') (frame.scopes.frameShape scope outer) value.accesses := by
    intro result middle code hdepth hnone hsome hcode
    cases result with
    | none =>
        rw [giveBack, ensures_pure, List.append_nil]
        exact ⟨hnone rfl, hdepth, hcode⟩
    | some r =>
        rw [giveBack, ensures_free, List.append_nil]
        exact ⟨(hsome r rfl).erase, hdepth, hcode⟩
  have hplain : Ensures (some <$> value.lower frame.scopes) state fun result code middle =>
      Ensures (giveBack result) middle fun _ code' after =>
        after.held = state.held ∧ after.depth = 0 ∧
        Addresses frame.scopes outer (frame.around outer) (frame.scopes.frameShape scope outer)
          (code ++ code') (frame.scopes.frameShape scope outer) value.accesses := by
    rw [ensures_map]
    refine (lower_settled hnested houter h hfree hdepth).mono ?_
    intro r code middle hmiddle
    apply hback (hmiddle.1.2.2.trans hdepth) (by simp) _ hmiddle.2
    rintro _ ⟨⟩
    exact hmiddle.1.1
  cases value with
  | call note function arguments =>
      have harguments : ∀ argument ∈ arguments, argument.WellFormed frame.scopes scope := by
        cases h
        assumption
      have hlocal := hnested.scopes.local_inside hnested.root houter
      rw [evaluate, ensures_bind, ensures_visit]
      refine ((lowerCall_allocates h (fun argument hmem => (harguments argument hmem).allocates)
        (by exact hfree)).and (lowerCall_balanced h (fun argument hmem =>
          (harguments argument hmem).balanced hnested.scopes hlocal) _ [] (by exact hfree)
            (by simp [hdepth]))).mono ?_
      intro result code middle hmiddle
      obtain ⟨hallocates, hcode⟩ := hmiddle
      apply hback (hallocates.depth.trans hdepth) _ _ _
      · exact fun hnone => (hallocates.none hnone).2
      · exact fun r hr => (hallocates.some r hr).1
      · rw [Expr.accesses]
        exact hcode.of_nil
  | _ => exact hplain

theorem keeps_compareZero (r : Reg) : Keeps (compareZero r) := by
  unfold compareZero
  split
  · exact ((Keeps.emit _).bind ((Keeps.emit _).bind (Keeps.emit _))).preservingAccumulator
  · split
    · exact Keeps.emit _
    · exact ((Keeps.emit _).bind (Keeps.emit _)).preservingAccumulator

theorem evens_compareZero (r : Reg) : Evens (compareZero r) := by
  unfold compareZero
  split
  · exact ((Evens.emit rfl).bind fun _ => (Evens.emit rfl).bind fun _ =>
      Evens.emit rfl).preservingAccumulator
  · split
    · exact Evens.emit rfl
    · exact ((Evens.emit rfl).bind fun _ => Evens.emit rfl).preservingAccumulator

/-- The register of a tested value is given back. -/
theorem test_settled (hnested : frame.Nested outer) (houter : outer ∈ frame.scopes.chain scope)
    {condition : Expr} (h : condition.WellFormed frame.scopes scope) :
    frame.Settled scope outer (frame.test condition) condition.accesses := by
  intro state hfree hdepth
  rw [test_eq, ensures_bind]
  refine (lower_settled hnested houter h hfree hdepth).mono ?_
  intro r code lowered hlowered
  obtain ⟨⟨hholds, -, hdepth'⟩, hcode⟩ := hlowered
  rw [ensures_bind]
  refine ((keeps_compareZero r lowered).and (evens_compareZero r lowered)).mono ?_
  intro _ code' after hafter
  obtain ⟨⟨hheld, hkept⟩, heven⟩ := hafter
  rw [ensures_free, List.append_nil]
  refine ⟨?_, hkept.trans (hdepth'.trans hdepth), hcode.then_even heven⟩
  show after.held.erase r = state.held
  rw [hheld, hholds.erase]

theorem Settled.bind {step next : Lowering Unit}
    {accesses others : List Access} (h : frame.Settled scope outer step accesses)
    (hnext : frame.Settled scope outer next others) :
    frame.Settled scope outer (step >>= fun _ => next) (accesses ++ others) := by
  intro state hfree hdepth
  rw [ensures_bind]
  refine (h state hfree hdepth).mono ?_
  intro _ code middle hmiddle
  obtain ⟨hheld, hdepth', hcode⟩ := hmiddle
  refine (hnext middle (by rwa [hheld]) hdepth').mono ?_
  intro _ code' after hafter
  exact ⟨hafter.1.trans hheld, hafter.2.1, hcode.append hafter.2.2⟩

theorem leaveValue_settled (hnested : frame.Nested outer)
    (houter : outer ∈ frame.scopes.chain scope) {result : Ty}
    (hresult : frame.resultSize = result.size) {value : Option Expr}
    (h : ∀ given, value = some given →
      given.WellFormed frame.scopes scope ∧ result.Accepts given.type) :
    frame.Settled scope outer (frame.leaveValue value) (value.elim [] Expr.accesses) := by
  intro state hfree hdepth
  cases value with
  | none => exact settled_pure state hfree hdepth
  | some given =>
      obtain ⟨hwf, haccepts⟩ := h given rfl
      have hsize := Ty.size_of_isScalar haccepts.isScalar.1
      rw [← hresult] at hsize
      simp only [leaveValue, leaveResult, ensures_bind]
      refine (lower_settled hnested houter hwf hfree hdepth).mono ?_
      intro r code lowered hlowered
      obtain ⟨⟨hholds, -, hdepth'⟩, hcode⟩ := hlowered
      refine ((Evens.coerce r _ lowered).and (coerce_holds hholds hsize)).mono ?_
      intro r' code' coerced hcoerced
      obtain ⟨hcode', hholds', -, hdepth''⟩ := hcoerced
      have hzero : coerced.depth = 0 := by omega
      have hwhole := hcode.then_even hcode'
      rw [ensures_ite]
      constructor
      · intro _
        rw [ensures_bind, ensures_emit, ensures_free]
        refine ⟨hholds'.erase, hzero, ?_⟩
        have hcopy : Even [.instr (.copy (.result frame.resultSize) r')] := .plain rfl rfl
        simpa using hwhole.then_even hcopy
      · intro _
        rw [ensures_free]
        exact ⟨hholds'.erase, hzero, by simpa using hwhole⟩

/-- A return takes off the frames inside that of the function before it goes to the end. -/
theorem leave_settled (hnested : frame.Nested outer) (hbody : frame.scope ∈ frame.scopes.chain scope)
    {result : Ty} (hresult : frame.resultSize = result.size) {value : Option Expr}
    (h : ∀ given, value = some given →
      given.WellFormed frame.scopes scope ∧ result.Accepts given.type) :
    frame.Settled scope outer (frame.leave value scope) (value.elim [] Expr.accesses) := by
  have houter := Scopes.mem_chain_trans hbody hnested.body
  have hexit : frame.Settled scope outer (frame.goToEnd scope) [] := by
    intro state _ hdepth
    simp only [goToEnd, ensures_bind, ensures_lift, ensures_release, ensures_emit, List.nil_append]
    intro bytes hbytes
    refine ⟨trivial, hdepth, ?_⟩
    rw [Scopes.framesInside_eq_ok hbytes, ← Scopes.sum_frameShape,
      Scopes.frameShape_append hbody hnested.body]
    have hjump : Addresses frame.scopes outer (frame.around outer)
        (frame.scopes.frameShape frame.scope outer) [.instr (.jump .always (.exit frame.name))]
        (frame.scopes.frameShape scope outer) [] :=
      .of_level (.instr (.jump List.mem_cons_self) rfl)
    rw [Scopes.frameShape_append hbody hnested.body] at hjump
    exact (Addresses.release fun _ hsize => Scopes.frameShape_pos hsize).append hjump
  rw [leave_eq]
  have hvalue := leaveValue_settled hnested houter hresult h
  have hwhole := hvalue.bind hexit
  rwa [List.append_nil] at hwhole

end Frame

/-! ## Statements -/

section Statements

variable {frame : Frame} {scope outer : ScopeId}

theorem lowerStatements_settled {body : List Statement}
    (h : ∀ statement ∈ body,
      frame.Settled scope outer (statement.lower frame) statement.accesses) :
    frame.Settled scope outer (lowerStatements frame body) (Statement.allAccesses body) := by
  induction body with
  | nil =>
      rw [lowerStatements, Statement.allAccesses]
      exact Frame.settled_pure
  | cons statement rest ih =>
      rw [lowerStatements, Statement.allAccesses]
      refine (h statement List.mem_cons_self).bind ?_
      exact ih fun other hmem => h other (List.mem_cons_of_mem _ hmem)

/-- A frame is put on the stack before a code and taken off after it. -/
theorem Addresses.inFrame {scopes : Scopes} {around : LabelShapes} {shape : Shape} {size : Nat}
    {code : List Line} {accesses : List Access}
    (h : Addresses scopes outer around ((if 0 < size then [size] else []) ++ shape) code
      ((if 0 < size then [size] else []) ++ shape) accesses) :
    Addresses scopes outer around shape
      ((if size > 0 then [.instr (.reserve size)] else []) ++ (code ++
        (if size > 0 then [.instr (.release size)] else []))) shape accesses := by
  by_cases hsize : 0 < size
  · simp only [hsize, if_true] at h ⊢
    have hreserve : Addresses scopes outer around shape [.instr (.reserve size)]
        ([size] ++ shape) [] := .of_level (.instr .reserve rfl)
    have hrelease : Addresses scopes outer around ([size] ++ shape) [.instr (.release size)]
        shape [] := by
      have h : Addresses scopes outer around ([size] ++ shape)
          (if [size].sum > 0 then [.instr (.release [size].sum)] else []) shape [] :=
        .release (by simpa using hsize)
      simpa [hsize] using h
    simpa using hreserve.append (h.append hrelease)
  · simp only [hsize, if_false] at h ⊢
    simpa using h

theorem Addresses.label {scopes : Scopes} {around : LabelShapes} {shape : Shape} {l : Label} :
    Addresses scopes outer around shape [.label l] shape [] := by
  refine .of_level ⟨[(l, shape)], List.Perm.refl _, ?_⟩
  have hflow : Flow (around ++ [(l, shape)]) shape [.label l] shape [] :=
    .cons (.label (by simp)) .nil
  exact hflow

/-- Code that goes on at its end. -/
theorem Addresses.atEnd {scopes : Scopes} {first second : Shape} {code : List Line} {l : Label}
    {accesses : List Access}
    (h : Addresses scopes outer [(l, second)] first code second accesses) :
    Addresses scopes outer [] first (code ++ [.label l]) second accesses := by
  obtain ⟨operands, ⟨own, hown, hflow⟩, hoperands⟩ := h
  refine ⟨operands, ⟨(l, second) :: own, ?_, ?_⟩, hoperands⟩
  · rw [List.map_cons, labels_append]
    exact (hown.cons l).trans (List.perm_append_singleton l _).symm
  · have hlabel : Flow ((l, second) :: own) second [.label l] second [] :=
      .cons (.label List.mem_cons_self) .nil
    have hwhole := hflow.append hlabel
    rwa [List.append_nil] at hwhole

/-- A branch, put together from the code of its parts and the lines between them. -/
theorem Addresses.branch {scopes : Scopes} {around : LabelShapes} {shape : Shape}
    {test yes no : List Line} {first second third : List Access} {yesLabel noLabel exit : Label}
    (htest : Addresses scopes outer around shape test shape first)
    (hyes : Addresses scopes outer around shape yes shape second)
    (hno : Addresses scopes outer around shape no shape third) :
    Addresses scopes outer around shape
      (test ++ ([.instr (.jump .equal noLabel), .label yesLabel] ++ (yes ++
        ([.instr (.jump .always exit), .label noLabel] ++ (no ++ [.label exit]))))) shape
      (first ++ (second ++ third)) := by
  obtain ⟨operands, ⟨own, hown, hflow⟩, hoperands⟩ := htest
  obtain ⟨operands', ⟨own', hown', hflow'⟩, hoperands'⟩ := hyes
  obtain ⟨operands'', ⟨own'', hown'', hflow''⟩, hoperands''⟩ := hno
  let marked : LabelShapes := [(yesLabel, shape), (noLabel, shape), (exit, shape)]
  let shapes : LabelShapes := around ++ (own ++ (own' ++ (own'' ++ marked)))
  have hjoint : Flow shapes shape [.instr (.jump .equal noLabel), .label yesLabel] shape [] :=
    .cons (.branch (by simp [shapes, marked])) (.cons (.label (by simp [shapes, marked])) .nil)
  have hjoint' : Flow shapes shape [.instr (.jump .always exit), .label noLabel] shape [] :=
    .cons (.branch (by simp [shapes, marked])) (.cons (.label (by simp [shapes, marked])) .nil)
  have hjoint'' : Flow shapes shape [.label exit] shape [] :=
    .cons (.label (by simp [shapes, marked])) .nil
  have htest : Flow shapes shape test shape operands := hflow.mono fun p hp => by
    rcases List.mem_append.mp hp with hp | hp <;> simp [shapes, hp]
  have hyes : Flow shapes shape yes shape operands' := hflow'.mono fun p hp => by
    rcases List.mem_append.mp hp with hp | hp <;> simp [shapes, hp]
  have hno : Flow shapes shape no shape operands'' := hflow''.mono fun p hp => by
    rcases List.mem_append.mp hp with hp | hp <;> simp [shapes, hp]
  refine ⟨operands ++ (operands' ++ operands''), ⟨own ++ (own' ++ (own'' ++ marked)), ?_, ?_⟩,
    List.rel_append hoperands (List.rel_append hoperands' hoperands'')⟩
  · rw [List.perm_iff_count] at hown hown' hown'' ⊢
    intro l
    have h := hown l
    have h' := hown' l
    have h'' := hown'' l
    simp [marked, List.count_cons] at h h' h'' ⊢
    omega
  · have hwhole := htest.append (hjoint.append (hyes.append (hjoint'.append (hno.append hjoint''))))
    simpa using hwhole

/-- A loop, put together in the same way. -/
theorem Addresses.loop {scopes : Scopes} {around : LabelShapes} {shape : Shape}
    {test body : List Line} {first second : List Access} {start contents exit : Label}
    (htest : Addresses scopes outer around shape test shape first)
    (hbody : Addresses scopes outer around shape body shape second) :
    Addresses scopes outer around shape
      ([.label start] ++ (test ++ ([.instr (.jump .equal exit), .label contents] ++ (body ++
        [.instr (.jump .always start), .label exit])))) shape (first ++ second) := by
  obtain ⟨operands, ⟨own, hown, hflow⟩, hoperands⟩ := htest
  obtain ⟨operands', ⟨own', hown', hflow'⟩, hoperands'⟩ := hbody
  let marked : LabelShapes := [(start, shape), (contents, shape), (exit, shape)]
  let shapes : LabelShapes := around ++ (own ++ (own' ++ marked))
  have hjoint : Flow shapes shape [.label start] shape [] :=
    .cons (.label (by simp [shapes, marked])) .nil
  have hjoint' : Flow shapes shape [.instr (.jump .equal exit), .label contents] shape [] :=
    .cons (.branch (by simp [shapes, marked])) (.cons (.label (by simp [shapes, marked])) .nil)
  have hjoint'' : Flow shapes shape [.instr (.jump .always start), .label exit] shape [] :=
    .cons (.branch (by simp [shapes, marked])) (.cons (.label (by simp [shapes, marked])) .nil)
  have htest : Flow shapes shape test shape operands := hflow.mono fun p hp => by
    rcases List.mem_append.mp hp with hp | hp <;> simp [shapes, hp]
  have hbody : Flow shapes shape body shape operands' := hflow'.mono fun p hp => by
    rcases List.mem_append.mp hp with hp | hp <;> simp [shapes, hp]
  refine ⟨operands ++ operands', ⟨own ++ (own' ++ marked), ?_, ?_⟩,
    List.rel_append hoperands hoperands'⟩
  · rw [List.perm_iff_count] at hown hown' ⊢
    intro l
    have h := hown l
    have h' := hown' l
    simp [marked, List.count_cons] at h h' ⊢
    omega
  · have hwhole := hjoint.append (htest.append (hjoint'.append (hbody.append hjoint'')))
    simpa using hwhole

/-- Every statement leaves nothing but frames on the stack, on all paths through it. -/
theorem Statement.WellFormed.settled (hnested : frame.Nested outer) {result : Ty}
    (hresult : frame.resultSize = result.size) {statement : Statement}
    (h : statement.WellFormed frame.scopes result scope)
    (hbody : frame.scope ∈ frame.scopes.chain scope) :
    frame.Settled scope outer (statement.lower frame) statement.accesses := by
  induction h with
  | declaration hscope hvisible hinitial =>
      have houter := Scopes.mem_chain_trans hbody hnested.body
      rw [Statement.lower]
      exact (Frame.setInitial_settled hnested houter hvisible hinitial).settle
  | expression hvalue _ =>
      have houter := Scopes.mem_chain_trans hbody hnested.body
      rw [Statement.lower, Statement.accesses]
      exact (Frame.discard_settled hnested houter hvalue).settle
  | returning hnone hvalue =>
      intro state hfree hdepth
      rw [Statement.lower, Statement.accesses, ensures_bind, ensures_visit]
      exact (Frame.leave_settled hnested hbody hresult hvalue).settle _ hfree hdepth
  | @branch scope condition yes no location hcondition _ hyes hno ihyes ihno =>
      have houter := Scopes.mem_chain_trans hbody hnested.body
      have helse : frame.Settled scope outer (lowerElse frame no)
          (no.elim [] Statement.accesses) := by
        cases no with
        | none => exact Frame.settled_pure
        | some other => exact ihno other rfl hbody
      have haccesses : (Statement.branch condition yes no location).accesses =
          condition.accesses ++ (yes.accesses ++ no.elim [] Statement.accesses) := by
        cases no <;> simp [Statement.accesses]
      intro state hfree hdepth
      rw [Statement.lower_branch, haccesses]
      simp only [ensures_bind, ensures_visit, ensures_newLabel, ensures_emit, ensures_mark]
      refine (Frame.test_settled hnested houter hcondition _ (by exact hfree)
        (by exact hdepth)).mono ?_
      intro _ testCode tested htested
      obtain ⟨hheld, hzero, htest⟩ := htested
      refine (ihyes hbody tested (by rwa [hheld]) hzero).mono ?_
      intro _ yesCode middle hmiddle
      obtain ⟨hheld', hzero', hyes⟩ := hmiddle
      refine (helse middle (by rwa [hheld', hheld]) hzero').mono ?_
      intro _ noCode joined hjoined
      obtain ⟨hheld'', hzero'', hno⟩ := hjoined
      rw [Frame.ensures_settle]
      intro _
      refine ⟨hheld''.trans (hheld'.trans hheld), hzero'', ?_⟩
      simpa using Addresses.branch htest hyes hno
  | @loop scope condition body location hcondition _ hbodyWf ih =>
      have houter := Scopes.mem_chain_trans hbody hnested.body
      intro state hfree hdepth
      rw [Statement.lower, Statement.accesses]
      simp only [ensures_bind, ensures_visit, ensures_newLabel, ensures_emit, ensures_mark]
      refine (Frame.test_settled hnested houter hcondition _ (by exact hfree)
        (by exact hdepth)).mono ?_
      intro _ testCode tested htested
      obtain ⟨hheld, hzero, htest⟩ := htested
      refine (ih hbody tested (by rwa [hheld]) hzero).mono ?_
      intro _ bodyCode joined hjoined
      obtain ⟨hheld', hzero', hcode⟩ := hjoined
      rw [Frame.ensures_settle]
      intro _
      refine ⟨hheld'.trans hheld, hzero', ?_⟩
      simpa using Addresses.loop htest hcode
  | @block scope inner table body location hinner hparent hstatements ih =>
      have hlt := hnested.scopes.lt_of_parent hinner hparent
      have houter := Scopes.mem_chain_trans hbody hnested.body
      have hne : inner ≠ outer := by
        rintro rfl
        exact Nat.lt_irrefl _ (Nat.lt_of_le_of_lt (Scopes.le_of_mem_chain houter) hlt)
      have hmem : frame.scope ∈ frame.scopes.chain inner := by
        rw [Scopes.chain_of_parent hinner hparent hlt]
        exact List.mem_cons_of_mem _ hbody
      have hshape := Scopes.frameShape_of_parent hinner hparent hlt hne
      have hcontents := lowerStatements_settled fun statement hstatement =>
        ih statement hstatement hmem
      intro state hfree hdepth
      rw [Statement.lower, Statement.accesses]
      simp only [ensures_bind, ensures_lift, ensures_reserve, ensures_release]
      intro size hsize
      rw [Scopes.frame_eq_ok hsize]
      refine (hcontents state hfree hdepth).mono ?_
      intro _ code after hafter
      obtain ⟨hheld, hzero, hcode⟩ := hafter
      rw [Frame.ensures_settle]
      intro _
      refine ⟨hheld, hzero, ?_⟩
      rw [hshape] at hcode
      have hframe := hcode.inFrame
      simpa using hframe

end Statements

/-! ## Functions -/

section Functions

variable {scopes : Scopes} {function : Function}

/-- The frame in which the statements of a function are lowered. -/
def Function.toFrame (scopes : Scopes) (function : Function) : Frame :=
  ⟨scopes, function.symbol.name, function.symbol.resultSize, function.scope⟩

theorem Function.WellFormed.nested (hwf : scopes.WellFormed) (h : function.WellFormed scopes) :
    (function.toFrame scopes).Nested function.parameters := by
  obtain ⟨result, types, table, -, htable, hparameters, -⟩ := h.signature
  obtain ⟨inner, hinner, hparent⟩ := h.body
  refine ⟨hwf, ?_, ?_⟩
  · show scopes.chain function.parameters = [function.parameters, globalScope]
    rw [Scopes.chain_of_parent htable hparameters.parent
      (hwf.lt_of_parent htable hparameters.parent), hwf.chain_global]
  · show function.parameters ∈ scopes.chain function.scope
    rw [Scopes.chain_of_parent hinner hparent (hwf.lt_of_parent hinner hparent)]
    exact List.mem_cons_of_mem _ (Scopes.mem_chain_self _ _)

/-- The code of a function takes everything off that it puts on the stack, and its stack operands
are the bytes of locals that its statements address. -/
theorem Function.WellFormed.settled (hwf : scopes.WellFormed) (h : function.WellFormed scopes)
    {state : LowerState} (hfree : state.held.ConflictFree) (hdepth : state.depth = 0) :
    Ensures (function.lower scopes) state fun _ code after =>
      after.held = state.held ∧ after.depth = 0 ∧
      Addresses scopes function.parameters [] [] code [] function.accesses := by
  have hnested := h.nested hwf
  obtain ⟨result, types, table, htype, -, -, hbody⟩ := h.signature
  obtain ⟨inner, hinner, hparent⟩ := h.body
  have hlt : function.parameters < function.scope := hwf.lt_of_parent hinner hparent
  have hne : function.scope ≠ function.parameters := fun heq => Nat.lt_irrefl _ (heq ▸ hlt)
  have hstatements : (function.toFrame scopes).Settled function.scope function.parameters
      (lowerStatements (function.toFrame scopes) function.body) function.accesses := by
    apply lowerStatements_settled
    intro statement hmem
    have hsize := Symbol.resultSize_eq htype
    exact (hbody statement hmem).settled hnested hsize (Scopes.mem_chain_self _ _)
  have hshape : scopes.frameShape function.scope function.parameters =
      (if 0 < scopes.frameOf function.scope then [scopes.frameOf function.scope] else []) ++ [] := by
    rw [Scopes.frameShape_of_parent hinner hparent hlt hne]
    simp [Scopes.frameShape, Scopes.inside_self]
  unfold Function.lower
  simp only [ensures_bind, ensures_visit, ensures_lift, ensures_mark, ensures_reserve,
    ensures_release, ensures_emit]
  intro size hsize
  rw [Scopes.frame_eq_ok hsize]
  refine (hstatements _ (by exact hfree) (by exact hdepth)).mono ?_
  intro _ code after hafter
  obtain ⟨hheld, hzero, hcode⟩ := hafter
  refine ⟨hheld, hzero, ?_⟩
  have hend : Addresses scopes function.parameters []
      (scopes.frameShape function.scope function.parameters)
      (code ++ [.label (.exit function.symbol.name)])
      (scopes.frameShape function.scope function.parameters) function.accesses := hcode.atEnd
  rw [hshape] at hend
  have hret : Addresses scopes function.parameters [] [] [.instr .ret] [] [] :=
    .of_level (.instr .ret rfl)
  have hname : Addresses scopes function.parameters [] [] [.label (.symbol function.symbol.name)]
      [] [] := .label
  have hwhole := hname.append (hend.inFrame.append hret)
  simpa using hwhole

end Functions

theorem keeps_lowerGlobal (declared : Declaration) : Keeps declared.lowerGlobal := by
  intro state
  have hdata : ∀ state, Ensures declared.data state fun _ _ after =>
      after.held = state.held ∧ after.depth = state.depth := by
    intro state
    unfold Declaration.data
    split
    · simp
    · simp [stringData]
    · split
      · exact ensures_fail
      · simp
  unfold Declaration.lowerGlobal
  simp only [ensures_ite, ensures_pure, ensures_bind, ensures_visit, ensures_emit, ensures_mark,
    ensures_line, and_self, implies_true, true_and]
  intro _
  exact (hdata _).mono fun _ _ after hafter => hafter

end AccumulatorC
