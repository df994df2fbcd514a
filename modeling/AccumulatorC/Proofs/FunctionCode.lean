import AccumulatorC.Proofs.ExpressionCode
import AccumulatorC.Proofs.Lowering.StatementRuns

/-!
# The code of functions

The code of a function without calls does what the function does, from its name to its end,
whichever statements it leaves on the way. The stack is as it was, the bytes that are not kept for
it are as the function leaves them, and a returned value is in the register of the result.
-/

namespace AccumulatorC

open Lowering

/-- A function that is entered on a machine. -/
def Function.activation (function : Function) (scopes : Scopes) (platform : Platform)
    (m : Machine) : Activation where
  frame := function.toFrame scopes
  outer := function.parameters
  platform := platform
  entry := m.sp

/-- The machine at the end of a function that has ended in a way and left a world: the stack
pointer is where it was, all bytes that were not kept for the stack are as in the world, and a
returned value is in the register of the result. -/
structure Activation.Done (a : Activation) (ending : Ending) (world : World) (m : Machine) :
    Prop where
  sp : m.sp = a.entry
  memory : ∀ x, a.room ≤ a.below x → world.memory x = some (m.memory x)
  result : ∀ value, ending = .returned (some value) →
    m.read (.result a.frame.resultSize) = value

theorem Activation.height_outer (a : Activation) : a.height a.outer = 0 := Scopes.frames_self _ _

/-- A function is entered with nothing of its own on the stack. -/
theorem Function.activation_beside {function : Function} {scopes : Scopes} {platform : Platform}
    {m : Machine} :
    (function.activation scopes platform m).Beside function.parameters m.world m where
  sp := by
    have hnone : (function.activation scopes platform m).height function.parameters = 0 :=
      Activation.height_outer _
    rw [hnone]
    exact (UInt16.sub_zero _).symm
  memory _ _ _ hbyte := Option.some.inj hbyte
  outcomes := rfl

/-- A function is done when its frame has been taken off and all bytes that are not kept have
values. -/
theorem Activation.Beside.done {a : Activation} {ending : Ending} {world : World} {m : Machine}
    (h : a.Beside a.outer world m)
    (hknown : ∀ x, a.room ≤ a.below x → (world.memory x).isSome = true)
    (hresult : ∀ value, ending = .returned (some value) →
      m.read (.result a.frame.resultSize) = value) : a.Done ending world m where
  sp := by
    rw [h.sp, a.height_outer]
    exact UInt16.sub_zero _
  memory x hx := by
    obtain ⟨byte, hbyte⟩ := Option.isSome_iff_exists.mp (hknown x hx)
    have hlt : a.below x < addressLimit := UInt16.toNat_lt _
    have hopen : (a.site a.outer).Open x :=
      (Activation.site_open (Scopes.mem_chain_self _ _)).mpr ⟨hx.trans hlt.le, .inr hx⟩
    rw [hbyte, h.memory x byte hopen hbyte]
  result := hresult

/-- The code of a function, run from its name on, comes to its end with what the function does. -/
theorem Function.WellFormed.runs {scopes : Scopes} (hwf : scopes.WellFormed) {function : Function}
    (h : function.WellFormed scopes) (hcalls : ∀ e ∈ function.nodes, e.isCall = false)
    {state : LowerState} (hfree : state.held.ConflictFree) (hdepth : state.depth = 0) :
    Ensures (function.lower scopes) state fun _ code _ =>
      ∃ body, code = .label (.symbol function.symbol.name) :: (body ++ [.instr .ret]) ∧
        ∀ (platform : Platform) (m : Machine) (count : Nat) (ending : Ending) (world : World),
          (function.activation scopes platform m).run count (state.labels.count .string)
            function.body m.world = some (ending, world) →
          ∃ m', Executes platform (.label (.symbol function.symbol.name) :: body) m m' ∧
            (function.activation scopes platform m).Done ending world m' := by
  have hnested := h.nested hwf
  obtain ⟨result, types, table, htype, -, -, hbody⟩ := h.signature
  obtain ⟨inner, hinner, hparent⟩ := h.body
  have hlt : function.parameters < function.scope := hwf.lt_of_parent hinner hparent
  have hne : function.scope ≠ function.parameters := fun heq => Nat.lt_irrefl _ (heq ▸ hlt)
  have hsize := Symbol.resultSize_eq htype
  have hstatements : ∀ (platform : Platform) (m : Machine) (count : Nat),
      (function.activation scopes platform m).Performs function.scope
        (lowerStatements (function.toFrame scopes) function.body)
        (runAll (function.activation scopes platform m) count · function.body) :=
    fun platform m count => lowerStatements_performs count fun statement hmem =>
      ⟨(hbody statement hmem).performs hnested hsize count (Scopes.mem_chain_self _ _)
          (Statement.allNodes_isCallFree hcalls hmem),
        (hbody statement hmem).settled hnested hsize (Scopes.mem_chain_self _ _),
        (hbody statement hmem).addsStrings⟩
  unfold Function.lower
  simp only [ensures_bind, ensures_visit, ensures_lift, ensures_mark, ensures_reserve,
    ensures_release, ensures_emit]
  intro bytes hbytes
  rw [Scopes.frame_eq_ok hbytes]
  intro done hdone
  refine ⟨(if scopes.frameOf function.scope > 0 then
      [.instr (.reserve (scopes.frameOf function.scope))] else []) ++
    (done.code ++ [.label (.exit function.symbol.name)] ++
      if scopes.frameOf function.scope > 0 then
        [.instr (.release (scopes.frameOf function.scope))] else []), by simp, ?_⟩
  intro platform m count ending world hrun
  rw [Activation.run, Evaluation.bind_eq_some] at hrun
  obtain ⟨_, _, hentered, hrun⟩ := hrun
  cases hentered
  have hheight : (function.activation scopes platform m).height function.scope =
      scopes.frameOf function.scope +
        (function.activation scopes platform m).height function.parameters :=
    Scopes.frames_of_parent hinner hparent hlt hne
  obtain ⟨m', hexecutes, hbeside, hresult, hknown⟩ := Activation.Finishes.toEnd hnested hheight
    Function.activation_beside fun between hbetween =>
      (hstatements platform m count { state with here := function.symbol.location } hfree
        hdepth).apply hdone _ _ between ending hbetween hrun
  exact ⟨m', (Executes.label platform _ m).append hexecutes,
    hbeside.done (fun x hx => hknown x hx rfl) hresult⟩

/-! ## Functions in the lines of a program -/

/-- A function without calls has its code in the lines of a program. Run from its name on in a
program that has been assembled from these lines, the code comes to its own last instruction, which
returns to the caller, in the state in which the function has been done. -/
theorem Program.functions_run {tokens : List (Located Token)} {parsed : Parsed} {lines : List Line}
    {earlier later : List Item} {function : Function}
    (hparsed : Program.ofTokens tokens = .ok parsed) (hlines : parsed.program.lines = .ok lines)
    (hitems : parsed.program.items = earlier ++ .function function :: later)
    (hcalls : ∀ e ∈ function.nodes, e.isCall = false) :
    ∃ before body after : List Line,
      lines = before ++ .label (.symbol function.symbol.name) :: (body ++ .instr .ret :: after) ∧
      parsed.program.Emits lines function
        (.label (.symbol function.symbol.name) :: (body ++ [.instr .ret])) ∧
      ∀ (platform : Platform) (m : Machine) (count : Nat) (ending : Ending) (world : World),
        (function.activation parsed.program.scopes platform m).run count
          (earlier.map Item.strings).sum function.body m.world = some (ending, world) →
        ∃ m', platform.Reaches lines
            (.label (.symbol function.symbol.name) :: (body ++ .instr .ret :: after), m)
            (.instr .ret :: after, m') ∧
          (function.activation parsed.program.scopes platform m).Done ending world m' := by
  have hwf := Program.ofTokens_wellFormed hparsed
  have hmem : .function function ∈ parsed.program.items := by simp [hitems]
  obtain ⟨before, code, after, state, rest, rfl, hlower, hheld, hdepth, hcount⟩ :=
    hwf.emits_between hlines hitems
  have hfree : state.held.ConflictFree := by
    rw [hheld]
    exact RegSet.conflictFree_empty
  obtain ⟨body, rfl, hruns⟩ := ((hwf.functions function hmem).runs hwf.scopes hcalls hfree
    hdepth).apply hlower
  refine ⟨before, body, after, by simp, ⟨before, after, state, rest, rfl, hlower, hheld, hdepth⟩, ?_⟩
  intro platform m count ending world hrun
  rw [← hcount] at hrun
  obtain ⟨m', hexecutes, hdone⟩ := hruns platform m count ending world hrun
  refine ⟨m', ?_, hdone⟩
  have hlabels := hwf.labels_nodup hlines
  have hparts : before ++ (.label (.symbol function.symbol.name) :: (body ++ [.instr .ret]) ++ after) =
      before ++ (.label (.symbol function.symbol.name) :: body ++ .instr .ret :: after) := by simp
  rw [hparts] at hlabels ⊢
  exact hexecutes before (.instr .ret :: after) hlabels

/-- From five the loop counts down to zero, so that two is returned. -/
theorem countdown_functions_run :
    ∃ lines step main before body after world m',
      countdown.program.lines = .ok lines ∧
      countdown.program.items = [] ++ .function step :: [.function main] ∧
      (∀ e ∈ step.nodes, e.isCall = false) ∧
      lines = before ++ .label (.symbol step.symbol.name) :: (body ++ .instr .ret :: after) ∧
      (step.activation countdown.program.scopes plainPlatform (fives [])).run 6 0 step.body
        (fives []).world = some (.returned (some 2), world) ∧
      plainPlatform.Reaches lines
        (.label (.symbol step.symbol.name) :: (body ++ .instr .ret :: after), fives [])
        (.instr .ret :: after, m') ∧
      (step.activation countdown.program.scopes plainPlatform (fives [])).Done (.returned (some 2))
        world m' := by
  have hfound : (countdown.program.items.head?.all (·.isFunctionWith fun step =>
      (step.nodes.all fun e => !e.isCall) &&
      ((step.activation countdown.program.scopes plainPlatform (fives [])).run 6 0 step.body
        (fives []).world).any fun result => result.1 == .returned (some 2))) = true := by
    decide +kernel
  obtain ⟨lines, hlines⟩ := countdown_lines
  obtain ⟨step, main, hitems⟩ := countdown_items
  rw [hitems] at hfound
  simp only [List.head?_cons, Option.all_some, Item.isFunctionWith, Bool.and_eq_true,
    List.all_eq_true, Bool.not_eq_true', Option.any_eq_true, beq_iff_eq] at hfound
  obtain ⟨hcalls, ⟨_, world⟩, hrun, rfl⟩ := hfound
  have hsplit : countdown.program.items = [] ++ .function step :: [.function main] := hitems
  obtain ⟨before, body, after, hparts, -, hruns⟩ :=
    Program.functions_run countdown_read hlines hsplit hcalls
  obtain ⟨m', hreaches, hdone⟩ := hruns plainPlatform (fives []) 6 _ world hrun
  exact ⟨lines, step, main, before, body, after, world, m', hlines, hitems, hcalls, hparts, hrun,
    hreaches, hdone⟩

end AccumulatorC
