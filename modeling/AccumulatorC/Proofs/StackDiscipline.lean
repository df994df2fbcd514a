import AccumulatorC.Proofs.Lowering.ProgramLabels
import AccumulatorC.Proofs.Lowering.StatementStack
import AccumulatorC.Proofs.Program.Parser.Unit

/-!
# The stack discipline of compiled programs

In the lines of a compiled program every function has its code. Along every path through it from
its name the displacement of the stack pointer is the same at a place, and zero at the end. Every
operand that is found from the stack pointer is a byte of a local, at the place that the local
has in the finished frame.
-/

namespace AccumulatorC

open Lowering

/-- The strongest postcondition of a step is what its run gives. -/
theorem Lowering.ensures_self {α : Type} (step : Lowering α) (state : LowerState) :
    Ensures step state fun value code after => step.run state = .ok ⟨value, code, after⟩ :=
  fun _ hdone => hdone

/-! ## The code of a function in the lines of a program -/

/-- A code stands in the lines of a program as that of a function: it is lowered while no
register is in use and nothing is pushed. -/
def Program.Emits (program : Program) (lines : List Line) (function : Function)
    (code : List Line) : Prop :=
  ∃ (before after : List Line) (state rest : LowerState), lines = before ++ (code ++ after) ∧
    (function.lower program.scopes).run state = .ok ⟨(), code, rest⟩ ∧
    state.held = .empty ∧ state.depth = 0

/-- Items are lowered one after the other from states without registers and pushed bytes. -/
theorem forM_items_ensures {scopes : Scopes} (hwf : scopes.WellFormed) {items : List Item}
    (hfunctions : ∀ function, .function function ∈ items → function.WellFormed scopes)
    {state : LowerState} (hempty : state.held = .empty) (hdepth : state.depth = 0) :
    Ensures (items.forM (Item.lower scopes)) state fun _ _ after =>
      after.held = .empty ∧ after.depth = 0 := by
  induction items generalizing state with
  | nil =>
      simp only [List.forM, ensures_pure]
      exact ⟨hempty, hdepth⟩
  | cons item items ih =>
      have hitem : Ensures (Item.lower scopes item) state fun _ _ after =>
          after.held = .empty ∧ after.depth = 0 := by
        cases item with
        | global declared =>
            refine (keeps_lowerGlobal declared state).mono ?_
            intro _ _ after hafter
            exact ⟨hafter.1.trans hempty, hafter.2.trans hdepth⟩
        | function defined =>
            have hsettled := (hfunctions defined List.mem_cons_self).settled hwf
              (by rw [hempty]; exact RegSet.conflictFree_empty) hdepth
            refine hsettled.mono ?_
            intro _ _ after hafter
            exact ⟨hafter.1.trans hempty, hafter.2.1⟩
      simp only [List.forM, ensures_bind]
      refine hitem.mono ?_
      intro _ _ middle hmiddle
      exact ih (fun function hmem => hfunctions function (List.mem_cons_of_mem _ hmem)) hmiddle.1
        hmiddle.2

/-- The code of a function in the lines of a program, and the state from which it was lowered: the
string literals of all items before it are numbered. -/
theorem Program.WellFormed.emits_between {program : Program} (h : program.WellFormed)
    {lines : List Line} (hlines : program.lines = .ok lines) {earlier later : List Item}
    {function : Function} (hitems : program.items = earlier ++ .function function :: later) :
    ∃ (before code after : List Line) (state rest : LowerState),
      lines = before ++ (code ++ after) ∧
      (function.lower program.scopes).run state = .ok ⟨(), code, rest⟩ ∧
      state.held = .empty ∧ state.depth = 0 ∧
      state.labels.count .string = (earlier.map Item.strings).sum := by
  have hearlier : ∀ item ∈ earlier, item ∈ program.items := fun item hmem => by
    rw [hitems]
    exact List.mem_append_left _ hmem
  have hstrings : AddsStrings (earlier.map Item.strings).sum
      (earlier.forM (Item.lower program.scopes)) :=
    addsStrings_items fun item hmem => h.addsStrings_item (hearlier item hmem)
  have hlower : Ensures program.lower .initial fun _ lines _ =>
      ∃ (before code after : List Line) (state rest : LowerState),
        lines = before ++ (code ++ after) ∧
        (function.lower program.scopes).run state = .ok ⟨(), code, rest⟩ ∧
        state.held = .empty ∧ state.depth = 0 ∧
        state.labels.count .string = (earlier.map Item.strings).sum := by
    unfold Program.lower
    have hsplit : (earlier ++ .function function :: later).forM (Item.lower program.scopes) = (do
        earlier.forM (Item.lower program.scopes)
        function.lower program.scopes
        later.forM (Item.lower program.scopes)) := List.forM_append
    rw [hitems, hsplit]
    simp only [ensures_bind, ensures_mark, ensures_emit]
    refine ((forM_items_ensures h.scopes (fun other hmem => h.functions other (hearlier _ hmem)) rfl
      rfl).and (hstrings _)).mono ?_
    rintro _ code state ⟨⟨hheld, hdepth⟩, hcount⟩
    refine (ensures_self _ state).mono ?_
    intro _ functionCode rest hfunction
    refine (ensures_self _ rest).mono ?_
    intro _ laterCode after _
    refine ⟨.label .entry :: .instr (.call mainName) :: .label .halt ::
      .instr (.jump .always .halt) :: code, functionCode, laterCode ++ [.label .heap], state, rest,
      by simp, hfunction, hheld, hdepth, ?_⟩
    rw [hcount]
    exact Nat.zero_add _
  simp only [Program.lines, map_eq_ok] at hlines
  obtain ⟨done, hdone, rfl⟩ := hlines
  exact hlower done hdone

/-- Every function of a compiled program has its code in the lines. -/
theorem Program.WellFormed.emits {program : Program} (h : program.WellFormed) {lines : List Line}
    (hlines : program.lines = .ok lines) {function : Function}
    (hmem : .function function ∈ program.items) : ∃ code, program.Emits lines function code := by
  obtain ⟨earlier, later, hitems⟩ := List.append_of_mem hmem
  obtain ⟨before, code, after, state, rest, hparts, hlower, hheld, hdepth, -⟩ :=
    h.emits_between hlines hitems
  exact ⟨code, before, after, state, rest, hparts, hlower, hheld, hdepth⟩

/-! ## Paths through a function -/

/-- A flow through the code of a function gives every label one shape. -/
theorem Program.Emits.flow {program : Program} (h : program.WellFormed) {lines code : List Line}
    {function : Function} (hmem : .function function ∈ program.items)
    (hcode : program.Emits lines function code) :
    ∃ (own : LabelShapes) (operands : Operands), Flow own [] code [] operands ∧
      (∀ l shape shape', (l, shape) ∈ own → (l, shape') ∈ own → shape = shape') ∧
      (∀ p ∈ own, .label p.1 ∈ code) ∧
      List.Forall₂ (Access.At program.scopes function.parameters) function.accesses operands := by
  obtain ⟨before, after, state, rest, -, hlower, hheld, hdepth⟩ := hcode
  have hfunction := h.functions function hmem
  have hfree : state.held.ConflictFree := by
    rw [hheld]
    exact RegSet.conflictFree_empty
  obtain ⟨-, -, operands, ⟨own, hown, hflow⟩, hoperands⟩ :=
    (hfunction.settled h.scopes hfree hdepth).apply hlower
  obtain ⟨body, hlabels, hnumbers⟩ := (hfunction.labels_lower state).apply hlower
  -- The name and the end of the function are not numbered, so all labels differ.
  have hnodup : (own.map Prod.fst).Nodup := by
    rw [hown.nodup_iff, hlabels, List.cons_append, List.nodup_cons, List.nodup_append]
    refine ⟨?_, hnumbers.nodup, by simp, ?_⟩
    · intro hname
      rcases List.mem_append.mp hname with hname | hname
      · exact hnumbers.numbered _ hname
      · simp at hname
    · intro l hl exit hexit
      rw [List.mem_singleton] at hexit
      rintro rfl
      rw [hexit] at hl
      exact hnumbers.numbered _ hl
  refine ⟨own, operands, hflow, ?_, ?_, hoperands⟩
  · intro l shape shape' hshape hshape'
    have hpairs := (List.nodup_map_iff_inj_on (List.Nodup.of_map _ hnodup)).mp hnodup
    exact congrArg Prod.snd (hpairs _ hshape _ hshape' rfl)
  · intro p hp
    rw [← mem_labels, ← hown.mem_iff]
    exact List.mem_map_of_mem hp

/-- Every function of a compiled program has its code in the lines, and any such code keeps the
stack discipline. -/
theorem Program.functions_disciplined {tokens : List (Located Token)} {parsed : Parsed}
    {lines : List Line} {function : Function} (hparsed : Program.ofTokens tokens = .ok parsed)
    (hlines : parsed.program.lines = .ok lines)
    (hmem : .function function ∈ parsed.program.items) :
    (∃ code, parsed.program.Emits lines function code) ∧
      ∀ code, parsed.program.Emits lines function code → Disciplined code := by
  have hwf := Program.ofTokens_wellFormed hparsed
  refine ⟨hwf.emits hlines hmem, fun code hcode => ?_⟩
  obtain ⟨own, operands, hflow, hsame, hown, -⟩ := hcode.flow hwf hmem
  exact hflow.disciplined hsame hown

theorem countdown_lines : ∃ lines, countdown.program.lines = .ok lines :=
  ⟨_, eq_ok_of_isOk (by decide +kernel) []⟩

theorem countdown_functions_disciplined :
    ∃ lines step main, countdown.program.lines = .ok lines ∧
      countdown.program.items = [.function step, .function main] ∧
      ((∃ code, countdown.program.Emits lines step code) ∧
        ∀ code, countdown.program.Emits lines step code → Disciplined code) ∧
      (∃ code, countdown.program.Emits lines main code) ∧
        ∀ code, countdown.program.Emits lines main code → Disciplined code := by
  obtain ⟨lines, hlines⟩ := countdown_lines
  obtain ⟨step, main, hitems⟩ := countdown_items
  exact ⟨lines, step, main, hlines, hitems,
    Program.functions_disciplined countdown_read hlines (by simp [hitems]),
    Program.functions_disciplined countdown_read hlines (by simp [hitems])⟩

/-! ## Operands on the stack -/

/-- The symbols of a scope without gaps lie below the bytes that they take together. -/
theorem Symbol.Contiguous.below {symbols : List Symbol} (h : Symbol.Contiguous symbols)
    {symbol : Symbol} (hmem : symbol ∈ symbols) {offset : Nat}
    (hstorage : symbol.storage = .framed offset) :
    offset + symbol.type.size ≤ Symbol.bytes symbols := by
  induction symbols with
  | nil => cases hmem
  | cons latest earlier ih =>
      obtain ⟨hlatest, hearlier⟩ := h
      have hbytes : Symbol.bytes (latest :: earlier) =
          latest.type.size + Symbol.bytes earlier := by
        simp [Symbol.bytes]
      rcases List.mem_cons.mp hmem with rfl | hmem
      · rw [hlatest, Storage.framed.injEq] at hstorage
        omega
      · have := ih hearlier hmem
        omega

/-- A parameter lies above the return address, and every other local below it. -/
theorem Function.WellFormed.clear_of_returnAddress {scopes : Scopes} (hwf : scopes.WellFormed)
    {function : Function} (h : function.WellFormed scopes) {access : Access}
    (hsound : access.Sound scopes function.parameters) :
    scopes.slot function.parameters access.symbol + access.symbol.type.size ≤ 0 ∨
      (returnAddressSize : Int) ≤ scopes.slot function.parameters access.symbol := by
  obtain ⟨offset, hstorage⟩ := hsound.framed
  obtain ⟨result, types, table, -, htable, hparameters, -⟩ := h.signature
  by_cases hscope : access.symbol.scope = function.parameters
  · right
    obtain ⟨table', htable', hmem, -⟩ := hsound.visible.places hwf
    rw [hscope, htable, Option.some.injEq] at htable'
    subst htable'
    have hbelow := hparameters.contiguous.below hmem hstorage
    have hframe : scopes.frameOf function.parameters = table.frame := by
      simp [Scopes.frameOf, htable]
    rw [hparameters.frame] at hframe
    simp only [Scopes.slot, hstorage, hscope, Scopes.frames_self]
    omega
  · left
    have hbounds := Scopes.slot_bounds function.parameters hwf hsound.visible hstorage
    have hframe : scopes.frameOf access.symbol.scope ≤
        scopes.frames access.symbol.scope function.parameters := Scopes.frameOf_le_frames hscope
    omega

/-- An operand that is found from the stack pointer, reached with a displacement, addresses a
byte of a local at the distance that is computed for it in the finished frame. Counted from the
entry of the function the byte lies in the slot of the local, which depends on nothing else, and
neither in the return address nor in another local nor in what has been pushed. -/
structure Access.Reached (scopes : Scopes) (outer : ScopeId) (access : Access) (offset : Nat)
    (displacement : Int) (shape : Shape) : Prop where
  distance : ∃ distance : Nat,
    scopes.stackOffset access.symbol access.scope = .ok (some distance) ∧
    offset + displacement = distance - scopes.frames access.scope outer + access.byte
  slot : offset + displacement = scopes.slot outer access.symbol + access.byte
  byte_lt : access.byte < access.symbol.type.size
  returnAddress : offset + displacement < 0 ∨ (returnAddressSize : Int) ≤ offset + displacement
  apart : ∀ (other : Symbol) (place : Nat), scopes.Visible access.scope other →
    other.storage = .framed place → other ≠ access.symbol →
    offset + displacement < scopes.slot outer other ∨
      scopes.slot outer other + other.type.size ≤ offset + displacement
  temporaries : ∃ temporaries : Shape,
    shape = temporaries ++ scopes.frameShape access.scope outer ∧ temporaries.sum ≤ offset

/-- An access at a place of a function finds its slot on the stack. -/
theorem Function.WellFormed.reached {scopes : Scopes} (hwf : scopes.WellFormed)
    {function : Function} (h : function.WellFormed scopes) {access : Access}
    (hsound : access.Sound scopes function.parameters) {offset : Nat} {shape : Shape}
    (hat : access.At scopes function.parameters (offset, shape)) :
    access.Reached scopes function.parameters offset (-(shape.sum : Nat)) shape := by
  have hclear := h.clear_of_returnAddress hwf hsound
  have hbyte := hsound.byte_lt
  have hslot := hat.slot
  obtain ⟨place, hstorage⟩ := hsound.framed
  have hroot := (h.nested hwf).root
  refine ⟨hat.distance, hslot, hbyte, ?_, fun other place' hvisible hstorage' hne => ?_, hat.above⟩
  · simp only at hslot
    omega
  · have hinside := hwf.local_inside hroot hsound.inside _ _ hsound.visible hstorage
    have hinside' := hwf.local_inside hroot hsound.inside _ _ hvisible hstorage'
    have hdisjoint := Scopes.slot_disjoint hwf hvisible hsound.visible hstorage' hstorage hne
      hinside' hinside
    simp only at hslot
    omega

/-- On every path through the code of a function, each operand that is found from the stack
pointer is the byte of a local that the function accesses at that point, in the place of the
local in the finished frame; and every access has its operand. -/
theorem Program.operands_in_slots {tokens : List (Located Token)} {parsed : Parsed}
    {lines code : List Line} {function : Function}
    (hparsed : Program.ofTokens tokens = .ok parsed)
    (hmem : .function function ∈ parsed.program.items)
    (hcode : parsed.program.Emits lines function code) :
    (code.filterMap Line.stackOperand?).length = function.accesses.length ∧
    ∀ (place : Nat) (displacement : Int) (shape : Shape) (line : Line) (offset : Nat),
      Route code place displacement shape → code[place]? = some line →
      line.stackOperand? = some offset →
      ∃ access, function.accesses[Flow.operandsBefore code place]? = some access ∧
        access.Reached parsed.program.scopes function.parameters offset displacement shape := by
  have hwf := Program.ofTokens_wellFormed hparsed
  have hfunction := hwf.functions function hmem
  obtain ⟨own, operands, hflow, hsame, -, hoperands⟩ := hcode.flow hwf hmem
  refine ⟨hflow.length_operands.symm.trans hoperands.length_eq.symm, ?_⟩
  intro place displacement shape line offset hroute hline hoperand
  obtain ⟨shapeAt, hstart, hflows⟩ := hflow.shapeAt
  obtain ⟨rfl, rfl⟩ := hroute.shape_eq hsame hstart fun place line hline =>
    (hflows place line hline).1
  have hfound := (hflows place line hline).2 offset hoperand
  obtain ⟨hlt, hget⟩ := List.getElem?_eq_some_iff.mp hfound
  have hlt' : Flow.operandsBefore code place < function.accesses.length := by
    rwa [hoperands.length_eq]
  refine ⟨_, List.getElem?_eq_getElem hlt', ?_⟩
  have hat := List.Forall₂.get hoperands hlt' hlt
  have hsound := hfunction.accesses_sound hwf.scopes (List.getElem_mem hlt')
  apply hfunction.reached hwf.scopes hsound
  rw [← hget]
  exact hat

theorem countdown_operands_in_slots :
    ∃ lines step main code, countdown.program.lines = .ok lines ∧
      countdown.program.items = [.function step, .function main] ∧
      countdown.program.Emits lines step code ∧
      (code.filterMap Line.stackOperand?).length = step.accesses.length ∧
      ∀ (place : Nat) (displacement : Int) (shape : Shape) (line : Line) (offset : Nat),
        Route code place displacement shape → code[place]? = some line →
        line.stackOperand? = some offset →
        ∃ access, step.accesses[Flow.operandsBefore code place]? = some access ∧
          access.Reached countdown.program.scopes step.parameters offset displacement shape := by
  obtain ⟨lines, hlines⟩ := countdown_lines
  obtain ⟨step, main, hitems⟩ := countdown_items
  have hmem : .function step ∈ countdown.program.items := by simp [hitems]
  obtain ⟨code, hcode⟩ :=
    (Program.ofTokens_wellFormed countdown_read).emits hlines hmem
  exact ⟨lines, step, main, code, hlines, hitems, hcode,
    Program.operands_in_slots countdown_read hmem hcode⟩

end AccumulatorC
