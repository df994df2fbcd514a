import AccumulatorC.Proofs.Lowering.StatementValues
import AccumulatorC.Proofs.Machine.Endings

/-!
# Running the code of statements

The code of a statement does what the statement does: run beside a world, it ends in the same way,
behind the code or at the end of the function, beside the world that the statement leaves.
-/

namespace AccumulatorC

open Lowering

namespace Ending

/-- The label behind which the code goes on that comes after an ending. -/
def target (frame : Frame) : Ending → Option Label
  | further => none
  | returned _ => some (.exit frame.name)

/-- The scope whose frames are still on the stack then. -/
def scope (frame : Frame) (scope : ScopeId) : Ending → ScopeId
  | further => scope
  | returned _ => frame.scope

end Ending

/-- What is known of the state after a step of a statement, besides what the step ensures. -/
theorem Frame.Settled.counted {frame : Frame} {scope outer : ScopeId} {step : Lowering Unit}
    {accesses : List Access} {strings : Nat} {state : LowerState} {post : Post Unit}
    (hsettled : frame.Settled scope outer step accesses) (hstrings : AddsStrings strings step)
    (hfree : state.held.ConflictFree) (hdepth : state.depth = 0) (h : Ensures step state post) :
    Ensures step state fun value code after => after.held.ConflictFree ∧ after.depth = 0 ∧
      after.labels.count .string = state.labels.count .string + strings ∧ post value code after := by
  refine (((hsettled state hfree hdepth).and (hstrings state)).and h).mono ?_
  rintro value code after ⟨⟨⟨hheld, hzero, -⟩, hcount⟩, hpost⟩
  exact ⟨by rwa [hheld], hzero, hcount, hpost⟩

namespace Activation

variable {a : Activation} {scope : ScopeId} {first code rest : List Line}
  {world middle world' : World} {m between m' : Machine} {ending : Ending}

/-- A code takes a machine beside a world to where a statement ends. A returned value is in its
register then, and all bytes that are not kept for the stack still have values. -/
structure Finishes (a : Activation) (scope : ScopeId) (first code : List Line) (world : World)
    (m : Machine) (ending : Ending) (world' : World) (m' : Machine) : Prop where
  ends : Ends a.platform first code m (ending.target a.frame) m'
  beside : a.Beside (ending.scope a.frame scope) world' m'
  result : ∀ value, ending = .returned (some value) →
    m'.read (.result a.frame.resultSize) = value
  known : ∀ x, a.room ≤ a.below x → (world.memory x).isSome = true →
    (world'.memory x).isSome = true

namespace Finishes

theorem of_tracks {kept : Reg → Prop}
    (h : (a.site scope).Tracks (a.height scope) code kept world m world' m') :
    a.Finishes scope first code world m .further world' m' where
  ends := .of_executes h.executes
  beside := h.mirrors
  result _ hreturned := by cases hreturned
  known x _ hx := h.known x hx

/-- Something is executed before a code that finishes. -/
theorem before {first' code' : List Line}
    (h : a.Finishes scope first' code' middle between ending world' m')
    (hknown : ∀ x, a.room ≤ a.below x → (world.memory x).isSome = true →
      (middle.memory x).isSome = true)
    (hends : Ends a.platform first code m (ending.target a.frame) m') :
    a.Finishes scope first code world m ending world' m' where
  ends := hends
  beside := h.beside
  result := h.result
  known x hroom hx := h.known x hroom (hknown x hroom hx)

theorem append (h : a.Finishes scope [] code world m .further middle between)
    (h' : a.Finishes scope [] rest middle between ending world' m') :
    a.Finishes scope [] (code ++ rest) world m ending world' m' :=
  h'.before h.known (.append h.ends.executes h'.ends)

/-- When the function is over, what follows is not executed. -/
theorem skip {value : Option UInt16}
    (h : a.Finishes scope [] code world m (.returned value) world' m') (rest : List Line) :
    a.Finishes scope [] (code ++ rest) world m (.returned value) world' m' :=
  h.before (fun _ _ hx => hx) (h.ends.skip rest)

end Finishes

/-- The code of a step does what a statement does, whose strings are numbered from the number on
that the step finds. -/
def Performs (a : Activation) (scope : ScopeId) (step : Lowering Unit)
    (run : Nat → Evaluation Ending) : Prop :=
  ∀ state : LowerState, state.held.ConflictFree → state.depth = 0 →
    Ensures step state fun _ code _ => ∀ (world world' : World) (m : Machine) (ending : Ending),
      a.Beside scope world m → run (state.labels.count .string) world = some (ending, world') →
      ∃ m', a.Finishes scope [] code world m ending world' m'

namespace Performs

variable {step next : Lowering Unit} {run running : Nat → Evaluation Ending}

theorem settle (h : a.Performs scope step run) :
    a.Performs scope (step >>= fun _ => Frame.settle) run := by
  intro state hfree hdepth
  rw [ensures_bind]
  refine (h state hfree hdepth).mono ?_
  intro _ code after hafter
  simp only [Frame.ensures_settle, List.append_nil]
  exact fun _ => hafter

/-- Nothing is done for a step that does nothing. -/
theorem pure : a.Performs scope (Pure.pure ()) fun _ => return .further := by
  intro state _ _
  rw [ensures_pure]
  intro world world' m ending hbeside hrun
  rw [Evaluation.pure_eq_some] at hrun
  cases hrun
  exact ⟨m, .of_tracks (.nil (fun _ => True) hbeside)⟩

theorem visit {location : Location} (h : a.Performs scope step run) :
    a.Performs scope (Lowering.visit location >>= fun _ => step) run := by
  intro state hfree hdepth
  rw [ensures_bind, ensures_visit]
  exact h { state with here := location } hfree hdepth

/-- A step that follows a calculation is done with it. -/
theorem of_realizes {α : Type} {calculation : Nat → Evaluation α} {leaves : α → Machine → Prop}
    (h : a.Realizes scope step calculation leaves) :
    a.Performs scope step fun n => do
      let _ ← calculation n
      return .further := by
  intro state hfree hdepth
  refine (h state hfree hdepth).mono ?_
  intro _ code _ hcode world world' m ending hbeside hrun
  simp only [Evaluation.bind_eq_some, Evaluation.pure_eq_some] at hrun
  obtain ⟨value, after, hvalue, hpair⟩ := hrun
  obtain ⟨rfl, rfl⟩ := Prod.mk.inj hpair
  obtain ⟨m', htracks, -⟩ := hcode world after m value hbeside hvalue
  exact ⟨m', .of_tracks htracks⟩

/-- Steps one after the other do what statements do one after the other. -/
theorem bind {accesses : List Access} {strings : Nat} (h : a.Performs scope step run)
    (hsettled : a.frame.Settled scope a.outer step accesses) (hstrings : AddsStrings strings step)
    (hnext : a.Performs scope next running) :
    a.Performs scope (step >>= fun _ => next) fun n =>
      Evaluation.following (run n) (running (n + strings)) := by
  intro state hfree hdepth
  rw [ensures_bind]
  refine (hsettled.counted hstrings hfree hdepth (h state hfree hdepth)).mono ?_
  rintro _ code lowered ⟨hfree', hzero, hcount, hcode⟩
  refine (hnext lowered hfree' hzero).mono ?_
  intro _ rest _ hrest world world' m ending hbeside hrun
  rw [Evaluation.following_eq_some] at hrun
  rcases hrun with ⟨middle, hfirst, hsecond⟩ | ⟨value, rfl, hfirst⟩
  · obtain ⟨between, hfinishes⟩ := hcode world middle m .further hbeside hfirst
    rw [← hcount] at hsecond
    obtain ⟨m', hfinishes'⟩ := hrest middle world' between ending hfinishes.beside hsecond
    exact ⟨m', hfinishes.append hfinishes'⟩
  · obtain ⟨m', hfinishes⟩ := hcode world world' m (.returned value) hbeside hfirst
    exact ⟨m', hfinishes.skip rest⟩

end Performs

/-! ## Leaving a function -/

/-- All frames inside that of the function are taken off before the end of the function. -/
theorem goToEnd_ends (hnested : a.frame.Nested a.outer)
    (hbody : a.frame.scope ∈ a.frame.scopes.chain scope) (state : LowerState) :
    Ensures (a.frame.goToEnd scope) state fun _ code _ => ∀ (world : World) (m : Machine),
      a.Beside scope world m → ∃ m',
        Ends a.platform [] code m (some (.exit a.frame.name)) m' ∧
        a.Beside a.frame.scope world m' ∧ m'.registers = m.registers := by
  simp only [Frame.goToEnd, ensures_bind, ensures_lift, ensures_release, ensures_emit,
    List.nil_append]
  intro bytes hbytes world m hbeside
  obtain ⟨m', hexecutes, hmoves⟩ := Executes.release a.platform bytes m
  have hheight : a.height scope = bytes + a.height a.frame.scope := by
    rw [Scopes.framesInside_eq_ok hbytes]
    exact Scopes.frames_add hbody hnested.body
  exact ⟨m', .append hexecutes (.jump _ m'), hbeside.leave hnested.body
    (Scopes.mem_chain_trans hbody hnested.body) hheight hmoves, hmoves.registers⟩

theorem Performs.leave (hnested : a.frame.Nested a.outer)
    (hbody : a.frame.scope ∈ a.frame.scopes.chain scope) {value : Option Expr}
    (h : a.Realizes scope (a.frame.leaveValue value) (a.result · value) fun returned m =>
      ∀ given, returned = some given → m.read (.result a.frame.resultSize) = given) :
    a.Performs scope (a.frame.leave value scope) fun n => do
      return .returned (← a.result n value) := by
  intro state hfree hdepth
  rw [Frame.leave_eq, ensures_bind]
  refine (h state hfree hdepth).mono ?_
  intro _ code lowered hcode
  refine (goToEnd_ends hnested hbody lowered).mono ?_
  intro _ rest _ hrest world world' m ending hbeside hrun
  simp only [Evaluation.bind_eq_some, Evaluation.pure_eq_some] at hrun
  obtain ⟨returned, after, hreturned, hpair⟩ := hrun
  obtain ⟨rfl, rfl⟩ := Prod.mk.inj hpair
  obtain ⟨between, htracks, hleaves⟩ := hcode world after m returned hbeside hreturned
  obtain ⟨m', hends, hbeside', hregisters⟩ := hrest after between htracks.mirrors
  refine ⟨m', .append htracks.executes hends, hbeside', ?_, fun x _ hx => htracks.known x hx⟩
  rintro given ⟨⟩
  rw [← hleaves given rfl, Machine.read, hregisters]
  rfl

/-! ## Branches and loops -/

section Tests

variable {test yes no body : List Line} {yesLabel noLabel start contents exit : Label}
  {value : UInt16} {kept : Reg → Prop}
  (htest : (a.site scope).Tracks (a.height scope) test kept world m middle between)
  (hflag : between.flags.equal = (value == 0))
include htest hflag

theorem Finishes.branch_yes (hvalue : value ≠ 0)
    (h : a.Finishes scope [] yes middle between ending world' m') :
    a.Finishes scope [] (Ends.branchLines test yes no yesLabel noLabel exit) world m ending world'
      m' := by
  have hequal : between.flags.meets .equal = false :=
    hflag.trans (beq_eq_false_iff_ne.mpr hvalue)
  exact h.before (fun x _ hx => htest.known x hx) (.branch_yes htest.executes hequal h.ends)

theorem Finishes.branch_no (hvalue : value = 0)
    (h : a.Finishes scope [] no middle between ending world' m') :
    a.Finishes scope [] (Ends.branchLines test yes no yesLabel noLabel exit) world m ending world'
      m' := by
  have hequal : between.flags.meets .equal = true := hflag.trans (beq_iff_eq.mpr hvalue)
  exact h.before (fun x _ hx => htest.known x hx) (.branch_no htest.executes hequal h.ends)

end Tests

/-- The rounds of a loop are run one after the other, however many there are. -/
theorem finishes_rounds {condition : Evaluation UInt16} {round : Evaluation Ending}
    {test body : List Line} {start contents exit : Label}
    (htest : ∀ (world world' : World) (m : Machine) (value : UInt16), a.Beside scope world m →
      condition world = some (value, world') →
      ∃ m', (a.site scope).Tracks (a.height scope) test (fun _ => False) world m world' m' ∧
        m'.flags.equal = (value == 0))
    (hbody : ∀ (world world' : World) (m : Machine) (ending : Ending), a.Beside scope world m →
      round world = some (ending, world') →
      ∃ m', a.Finishes scope [] body world m ending world' m')
    (count : Nat) (hbeside : a.Beside scope world m)
    (hrun : Evaluation.rounds condition round count world = some (ending, world')) :
    ∃ m', a.Finishes scope [.label start] (Ends.loopLines test body start contents exit) world m
      ending world' m' := by
  induction count generalizing world m with
  | zero => cases hrun
  | succ count ih =>
      rw [Evaluation.rounds, Evaluation.bind_eq_some] at hrun
      obtain ⟨value, middle, hvalue, hrun⟩ := hrun
      obtain ⟨tested, htracks, hflag⟩ := htest world middle m value hbeside hvalue
      have hknown : ∀ x, a.room ≤ a.below x → (world.memory x).isSome = true →
        (middle.memory x).isSome = true := fun x _ hx => htracks.known x hx
      split at hrun
      next hzero =>
        have hequal : tested.flags.meets .equal = true := hflag.trans (beq_iff_eq.mpr hzero)
        rw [Evaluation.pure_eq_some] at hrun
        cases hrun
        exact ⟨tested, .loop_done htracks.executes hequal, htracks.mirrors, by rintro _ ⟨⟩, hknown⟩
      next hnonzero =>
        have hequal : tested.flags.meets .equal = false :=
          hflag.trans (beq_eq_false_iff_ne.mpr hnonzero)
        rw [Evaluation.following_eq_some] at hrun
        rcases hrun with ⟨last, hround, hrest⟩ | ⟨returned, rfl, hround⟩
        · obtain ⟨again, hfinishes⟩ := hbody middle last tested .further htracks.mirrors hround
          obtain ⟨m', hrounds⟩ := ih hfinishes.beside hrest
          exact ⟨m', hrounds.before (fun x hroom hx => hfinishes.known x hroom (hknown x hroom hx))
            (.loop_again htracks.executes hequal hfinishes.ends.executes hrounds.ends)⟩
        · obtain ⟨m', hfinishes⟩ :=
            hbody middle world' tested (.returned returned) htracks.mirrors hround
          exact ⟨m', hfinishes.before hknown
            (.loop_left htracks.executes hequal hfinishes.ends)⟩

/-- The frame of a block is on the stack while its statements run. -/
theorem Finishes.inFrame {inner : ScopeId} (houter : a.outer ∈ a.frame.scopes.chain scope)
    (hinner : a.outer ∈ a.frame.scopes.chain inner)
    (hheight : a.height inner = a.frame.scopes.frameOf inner + a.height scope)
    (hbeside : a.Beside scope world m)
    (h : ∀ m, a.Beside inner (a.enter inner world) m →
      ∃ m', a.Finishes inner [] code (a.enter inner world) m ending world' m') :
    ∃ m', a.Finishes scope []
      ((if a.frame.scopes.frameOf inner > 0 then
          [.instr (.reserve (a.frame.scopes.frameOf inner))] else []) ++
        (code ++
          if a.frame.scopes.frameOf inner > 0 then
            [.instr (.release (a.frame.scopes.frameOf inner))] else []))
      world m ending world' m' := by
  obtain ⟨entered, hreserve, hmoves⟩ :=
    Executes.reserve a.platform (a.frame.scopes.frameOf inner) m
  obtain ⟨left, hfinishes⟩ := h entered (hbeside.enter houter hinner hheight hmoves)
  have hknown : ∀ x, a.room ≤ a.below x → (world.memory x).isSome = true →
      (world'.memory x).isSome = true := by
    intro x hroom hx
    rw [← known_enter hinner hroom world] at hx
    exact hfinishes.known x hroom hx
  cases ending with
  | further =>
      obtain ⟨m', hrelease, hmoves'⟩ :=
        Executes.release a.platform (a.frame.scopes.frameOf inner) left
      have hexecutes := hreserve.append (hfinishes.ends.executes.append hrelease)
      exact ⟨m', .of_executes hexecutes, hfinishes.beside.leave houter hinner hheight hmoves',
        by rintro _ ⟨⟩, hknown⟩
  | returned value =>
      exact ⟨left, .append hreserve (hfinishes.ends.skip _), hfinishes.beside, hfinishes.result,
        hknown⟩

/-- Whichever way the statements of a function end, its frame is taken off behind the label of its
end. -/
theorem Finishes.toEnd (hnested : a.frame.Nested a.outer)
    (hheight : a.height a.frame.scope =
      a.frame.scopes.frameOf a.frame.scope + a.height a.outer)
    (hbeside : a.Beside a.outer world m)
    (h : ∀ m, a.Beside a.frame.scope (a.enter a.frame.scope world) m →
      ∃ m', a.Finishes a.frame.scope [] code (a.enter a.frame.scope world) m ending world' m') :
    ∃ m', Executes a.platform
        ((if a.frame.scopes.frameOf a.frame.scope > 0 then
            [.instr (.reserve (a.frame.scopes.frameOf a.frame.scope))] else []) ++
          (code ++ [.label (.exit a.frame.name)] ++
            if a.frame.scopes.frameOf a.frame.scope > 0 then
              [.instr (.release (a.frame.scopes.frameOf a.frame.scope))] else [])) m m' ∧
      a.Beside a.outer world' m' ∧
      (∀ value, ending = .returned (some value) →
        m'.read (.result a.frame.resultSize) = value) ∧
      ∀ x, a.room ≤ a.below x → (world.memory x).isSome = true →
        (world'.memory x).isSome = true := by
  have houter := Scopes.mem_chain_self a.frame.scopes a.outer
  obtain ⟨entered, hreserve, hmoves⟩ :=
    Executes.reserve a.platform (a.frame.scopes.frameOf a.frame.scope) m
  obtain ⟨left, hfinishes⟩ := h entered (hbeside.enter houter hnested.body hheight hmoves)
  obtain ⟨m', hrelease, hmoves'⟩ :=
    Executes.release a.platform (a.frame.scopes.frameOf a.frame.scope) left
  have hscope : ending.scope a.frame a.frame.scope = a.frame.scope := by cases ending <;> rfl
  have htarget : ending.target a.frame = none ∨
      ending.target a.frame = some (.exit a.frame.name) := by
    cases ending
    · exact .inl rfl
    · exact .inr rfl
  have hleft := hfinishes.beside
  rw [hscope] at hleft
  refine ⟨m', hreserve.append ((hfinishes.ends.upTo htarget).append hrelease),
    hleft.leave houter hnested.body hheight hmoves', fun value hvalue => ?_, fun x hroom hx => ?_⟩
  · rw [← hfinishes.result value hvalue, Machine.read, hmoves'.registers]
    rfl
  · rw [← known_enter hnested.body hroom world] at hx
    exact hfinishes.known x hroom hx

end Activation

/-! ## Every statement -/

section Statements

variable {a : Activation} {scope : ScopeId} {result : Ty}

theorem lowerStatements_performs (count : Nat) {body : List Statement}
    (h : ∀ statement ∈ body,
      a.Performs scope (statement.lower a.frame) (statement.run a count ·) ∧
      a.frame.Settled scope a.outer (statement.lower a.frame) statement.accesses ∧
      AddsStrings statement.strings (statement.lower a.frame)) :
    a.Performs scope (lowerStatements a.frame body) (runAll a count · body) := by
  induction body with
  | nil =>
      simp only [lowerStatements, runAll]
      exact .pure
  | cons statement rest ih =>
      simp only [lowerStatements, runAll]
      obtain ⟨hperforms, hsettled, hstrings⟩ := h statement List.mem_cons_self
      exact hperforms.bind hsettled hstrings (ih fun other hmem => h other (List.mem_cons_of_mem _ hmem))

/-- The code of a statement without calls does what the statement does. -/
theorem Statement.WellFormed.performs (hnested : a.frame.Nested a.outer)
    (hresult : a.frame.resultSize = result.size) (count : Nat) {statement : Statement}
    (h : statement.WellFormed a.frame.scopes result scope)
    (hbody : a.frame.scope ∈ a.frame.scopes.chain scope) (hcalls : statement.isCallFree = true) :
    a.Performs scope (statement.lower a.frame) (statement.run a count ·) := by
  induction h with
  | @declaration scope declared hscope hvisible hinitial =>
      have houter := Scopes.mem_chain_trans hbody hnested.body
      simp only [Statement.lower, Statement.run]
      refine (Activation.Performs.of_realizes (Activation.setInitial_realizes hnested houter hvisible
        hinitial fun value hvalue => ?_)).settle
      simpa [Statement.isCallFree, Statement.nodes, Expr.isCallFree, hvalue] using hcalls
  | expression hvalue _ =>
      have houter := Scopes.mem_chain_trans hbody hnested.body
      simp only [Statement.lower, Statement.run]
      exact (Activation.Performs.of_realizes
        (Activation.discard_realizes hnested houter hvalue hcalls)).settle
  | @returning scope value location hnone hvalue =>
      have houter := Scopes.mem_chain_trans hbody hnested.body
      have hleave := Activation.leaveValue_realizes hnested houter hresult hvalue fun given hgiven => by
        rw [hgiven] at hcalls
        exact hcalls
      simp only [Statement.lower, Statement.run]
      exact (Activation.Performs.leave hnested hbody hleave).settle.visit
  | @branch scope condition yes no location hcondition _ hyes hno ihyes ihno =>
      have houter := Scopes.mem_chain_trans hbody hnested.body
      simp only [Statement.isCallFree_branch, Bool.and_eq_true] at hcalls
      obtain ⟨⟨hfirst, hsecond⟩, hthird⟩ := hcalls
      have helse : a.Performs scope (lowerElse a.frame no) (runElse a count · no) := by
        cases no with
        | none => exact .pure
        | some other => exact ihno other rfl hbody hthird
      intro state hfree hdepth
      rw [Statement.lower_branch]
      simp only [ensures_bind, ensures_visit, ensures_newLabel, ensures_emit, ensures_mark]
      refine ((Frame.test_settled hnested houter hcondition).counted
        ((Frame.test_wraps condition).addsStrings hcondition.addsStrings) (by exact hfree)
        (by exact hdepth) (Activation.test_realizes hnested houter hcondition hfirst _
          (by exact hfree) (by exact hdepth))).mono ?_
      rintro _ testCode tested ⟨hfree', hzero, hcount, htest⟩
      refine ((hyes.settled hnested hresult hbody).counted hyes.addsStrings hfree' hzero
        (ihyes hbody hsecond tested hfree' hzero)).mono ?_
      rintro _ yesCode joined ⟨hfree'', hzero', hcount', hyesCode⟩
      refine (helse joined hfree'' hzero').mono ?_
      intro _ noCode after hnoCode
      rw [Frame.ensures_settle]
      intro _ world world' m ending hbeside hrun
      rw [Statement.run_branch, Evaluation.bind_eq_some] at hrun
      obtain ⟨value, middle, hvalue, hrun⟩ := hrun
      rw [LabelCounts.count_add, if_neg (by decide)] at hcount htest
      obtain ⟨between, htracks, hflag⟩ := htest world middle m value hbeside hvalue
      rw [← hcount, ← hcount'] at hrun
      split at hrun
      next hnonzero =>
        obtain ⟨m', hfinishes⟩ := hyesCode middle world' between ending htracks.mirrors hrun
        exact ⟨m', by simpa [Ends.branchLines] using hfinishes.branch_yes htracks hflag hnonzero⟩
      next hzero =>
        obtain ⟨m', hfinishes⟩ := hnoCode middle world' between ending htracks.mirrors hrun
        exact ⟨m', by simpa [Ends.branchLines] using hfinishes.branch_no htracks hflag (not_not.mp hzero)⟩
  | @loop scope condition body location hcondition _ hbodyWf ih =>
      have houter := Scopes.mem_chain_trans hbody hnested.body
      simp only [Statement.isCallFree_loop, Bool.and_eq_true] at hcalls
      obtain ⟨hfirst, hsecond⟩ := hcalls
      intro state hfree hdepth
      rw [Statement.lower]
      simp only [ensures_bind, ensures_visit, ensures_newLabel, ensures_emit, ensures_mark]
      refine ((Frame.test_settled hnested houter hcondition).counted
        ((Frame.test_wraps condition).addsStrings hcondition.addsStrings) (by exact hfree)
        (by exact hdepth) (Activation.test_realizes hnested houter hcondition hfirst _
          (by exact hfree) (by exact hdepth))).mono ?_
      rintro _ testCode tested ⟨hfree', hzero, hcount, htest⟩
      refine (ih hbody hsecond tested hfree' hzero).mono ?_
      intro _ bodyCode joined hbodyCode
      rw [Frame.ensures_settle]
      intro _ world world' m ending hbeside hrun
      rw [Statement.run] at hrun
      rw [LabelCounts.count_add, if_neg (by decide)] at hcount htest
      rw [hcount] at hbodyCode
      obtain ⟨m', hfinishes⟩ := Activation.finishes_rounds htest hbodyCode count hbeside hrun
      exact ⟨m', by simpa [Ends.loopLines] using hfinishes.before (fun _ _ hx => hx) (.loop hfinishes.ends)⟩
  | @block scope inner table body location hinner hparent hstatements ih =>
      have houter := Scopes.mem_chain_trans hbody hnested.body
      have hlt := hnested.scopes.lt_of_parent hinner hparent
      have hne : inner ≠ a.outer := by
        rintro rfl
        exact Nat.lt_irrefl _ (Nat.lt_of_le_of_lt (Scopes.le_of_mem_chain houter) hlt)
      have hbody' : a.frame.scope ∈ a.frame.scopes.chain inner := by
        rw [Scopes.chain_of_parent hinner hparent hlt]
        exact List.mem_cons_of_mem _ hbody
      have houter' := Scopes.mem_chain_trans hbody' hnested.body
      simp only [Statement.isCallFree, Statement.nodes, List.all_eq_true, Bool.not_eq_true'] at hcalls
      intro state hfree hdepth
      rw [Statement.lower]
      simp only [ensures_bind, ensures_lift, ensures_reserve, ensures_release]
      intro size hsize
      rw [Scopes.frame_eq_ok hsize]
      have hcontents : a.Performs inner (lowerStatements a.frame body) (runAll a count · body) :=
        lowerStatements_performs count fun statement hstatement =>
          ⟨ih statement hstatement hbody' (Statement.allNodes_isCallFree hcalls hstatement),
            (hstatements statement hstatement).settled hnested hresult hbody',
            (hstatements statement hstatement).addsStrings⟩
      refine (hcontents state hfree hdepth).mono ?_
      intro _ code after hcode
      rw [Frame.ensures_settle]
      intro _ world world' m ending hbeside hrun
      rw [Statement.run, Evaluation.bind_eq_some] at hrun
      obtain ⟨_, _, hentered, hrun⟩ := hrun
      cases hentered
      have hheight : a.height inner = a.frame.scopes.frameOf inner + a.height scope :=
        Scopes.frames_of_parent hinner hparent hlt hne
      obtain ⟨m', hfinishes⟩ := Activation.Finishes.inFrame houter houter' hheight hbeside fun m hm =>
        hcode _ world' m ending hm hrun
      exact ⟨m', by simpa using hfinishes⟩

end Statements

end AccumulatorC
