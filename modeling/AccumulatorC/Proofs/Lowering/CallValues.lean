import AccumulatorC.Proofs.Lowering.Following
import AccumulatorC.Proofs.Lowering.Pushing

/-!
# The values around a call

Arguments are left on the stack, each at the size of its parameter, and below them the return
address. What the called function leaves alone is what evaluation takes it to leave alone, so the
machine is beside the world after the call. The registers that were saved have their values again.
-/

namespace AccumulatorC

open Lowering

namespace Site

variable {site : Site} {depth : Nat} {world world' : World} {m : Machine}

/-! ## Arguments -/

/-- Pushing touches none of the bytes that the program may touch. -/
theorem Mirrors.push {r : Reg} {after : Machine} (h : site.Mirrors depth world m)
    (hroom : depth + r.size ≤ site.room) (hpushed : site.Pushed depth r m after) :
    site.Mirrors (depth + r.size) world after where
  sp := hpushed.sp
  memory x byte hx hbyte := by
    rw [hpushed.memory x (.inr (hroom.trans hx))]
    exact h.memory x byte hx hbyte
  outcomes := hpushed.outcomes.trans h.outcomes

/-- A code leaves values of given sizes on the stack, beside the evaluation of arguments. -/
structure Passes (site : Site) (depth : Nat) (sizes : List Nat) (values : List UInt16)
    (code : List Line) (world : World) (m : Machine) (world' : World) (m' : Machine) : Prop where
  executes : Executes site.platform code m m'
  rise : netRise code = -(sizes.sum : Int)
  mirrors : site.Mirrors (depth + sizes.sum) world' m'
  stacked : site.Stacked m'.memory depth (sizes.zip values)
  pushed : ∀ x, site.level x < depth → m'.memory x = m.memory x
  known : ∀ x, (world.memory x).isSome = true → (world'.memory x).isSome = true

theorem Passes.nil (h : site.Mirrors depth world m) :
    site.Passes depth [] [] [] world m world m where
  executes := .nil site.platform m
  rise := rfl
  mirrors := h
  stacked := trivial
  pushed _ _ := rfl
  known _ hx := hx

/-- An argument is evaluated and pushed before the others. -/
theorem Passes.cons {r : Reg} {sizes : List Nat} {values : List UInt16} {code rest : List Line}
    {kept : Reg → Prop} {middle : World} {first last : Machine} (hused : site.used ≤ depth)
    (hroom : depth + r.size ≤ site.room)
    (hcode : site.Tracks depth code kept world m middle first)
    (hrest : site.Passes (depth + r.size) sizes values rest middle (first.push r) world' last) :
    site.Passes depth (r.size :: sizes) (first.read r :: values) (code ++ .instr (.push r) :: rest)
      world m world' last where
  executes := hcode.executes.append (.cons rfl hrest.executes)
  rise := by
    rw [netRise_append, netRise_cons, hcode.rise, hrest.rise, List.sum_cons]
    simp only [Line.rise, Instr.rise]
    omega
  mirrors := by
    rw [List.sum_cons, ← Nat.add_assoc]
    exact hrest.mirrors
  stacked := by
    have hlimit := hroom.trans site.room_le
    have hpushed := pushed_push hcode.mirrors.sp r hused hlimit
    refine ⟨?_, hrest.stacked⟩
    rw [valueAt_congr r.size_eq_one_or_two hused hlimit fun x _ hx => hrest.pushed x hx]
    exact hpushed.value
  pushed x hx := by
    have hpushed := pushed_push hcode.mirrors.sp r hused (hroom.trans site.room_le)
    rw [hrest.pushed x (by omega), hpushed.memory x (.inl hx)]
    exact hcode.pushed x hx
  known x hx := hrest.known x (hcode.known x hx)

/-- Arguments are pushed one after the other, each with the value that the evaluator gives it. -/
theorem lowerArguments_passes {scope : ScopeId} {parameters : List Ty} {arguments : List Expr}
    (haccepts : List.Forall₂ (fun parameter (argument : Expr) => parameter.Accepts argument.type)
      parameters arguments)
    (hwf : ∀ argument ∈ arguments, argument.WellFormed site.scopes scope)
    (halong : ∀ argument ∈ arguments, site.LowersAlong scope argument)
    {state : LowerState} (hfree : state.held.ConflictFree) :
    Ensures (lowerArguments site.scopes parameters arguments) state fun _ code _ =>
      ∀ (world world' : World) (m : Machine) (values : List UInt16),
        site.used ≤ site.height scope state →
        (∀ argument ∈ arguments,
          site.CanCall argument (site.height scope state + reach code + 2)) →
        site.Mirrors (site.height scope state) world m →
        evaluateArguments site (state.labels.count .string) parameters arguments world =
          some (values, world') →
        ∃ m', site.Passes (site.height scope state) (parameters.map Ty.size) values code world m
          world' m' := by
  induction haccepts generalizing state with
  | nil =>
      rw [lowerArguments, ensures_pure]
      · intro world world' m values _ _ hmirrors hvalues
        rw [evaluateArguments_nil, Evaluation.pure_eq_some] at hvalues
        cases hvalues
        exact ⟨m, .nil hmirrors⟩
      · simp
  | @cons parameter argument parameters arguments haccept _ ih =>
      have hsize := Ty.size_of_isScalar haccept.isScalar.1
      rw [lowerArguments, ensures_bind]
      simp only [ensures_bind]
      refine ((halong argument List.mem_cons_self).coerce (hwf argument List.mem_cons_self) hsize
        hfree).mono ?_
      intro r code lowered hlowered
      refine hlowered.mono ?_
      rintro r' code' coerced ⟨hrsize, hlowers⟩
      simp only [save, ensures_bind, ensures_push, ensures_free, ensures_lift]
      intro _
      rw [hlowers.holds.erase]
      refine (ih (fun argument hmem => hwf argument (List.mem_cons_of_mem _ hmem))
        (fun argument hmem => halong argument (List.mem_cons_of_mem _ hmem))
        (by exact hfree)).mono ?_
      rintro rest restCode after hrest total _ world world' m values hused hcalls hmirrors hvalues
      have hheight : site.scopes.frames scope site.outer + state.depth = site.height scope state :=
        rfl
      simp only [height, hlowers.depth, hlowers.strings, ← Nat.add_assoc] at hrest
      rw [hheight] at hrest
      have hcode : code ++ (code' ++ ([.instr (.push r')] ++ [] ++ (restCode ++ []))) =
          (code ++ code') ++ .instr (.push r') :: restCode := by simp
      rw [hcode] at hcalls ⊢
      -- The value is evaluated first, then the others with it on the stack.
      rw [evaluateArguments_cons, Evaluation.bind_eq_some] at hvalues
      obtain ⟨value, middle, hvalue, hvalues⟩ := hvalues
      rw [Evaluation.bind_eq_some] at hvalues
      obtain ⟨others, last, hothers, hvalues⟩ := hvalues
      rw [Evaluation.pure_eq_some] at hvalues
      cases hvalues
      have hcall := hcalls argument List.mem_cons_self
      have hroom := hcall.bytes_le
      have hreach := reach_le_append (code ++ code') (.instr (.push r') :: restCode)
      obtain ⟨first, htracks, hread⟩ := hlowers.follows world middle m value ⟨hused, by omega⟩
        (fun _ => hcall.part (List.Subset.refl _) (by omega)) hmirrors hvalue
      have hdeeper : r'.size + reach restCode ≤ reach ((code ++ code') ++ .instr (.push r') :: restCode) := by
        have hafter := reach_le_after htracks.rise (.instr (.push r') :: restCode)
        rw [reach_cons] at hafter
        simp only [Line.rise, Instr.rise] at hafter
        omega
      have hfits : site.height scope state + r'.size ≤ site.room := by omega
      have hpushed := pushed_push htracks.mirrors.sp r' hused (hfits.trans site.room_le)
      obtain ⟨m', hpasses⟩ := hrest middle world' (first.push r') others (by omega)
        (fun argument hmem => (hcalls argument (List.mem_cons_of_mem _ hmem)).part
          (List.Subset.refl _) (by omega))
        (htracks.mirrors.push hfits hpushed) hothers
      rw [List.map_cons, ← hread, ← hrsize]
      exact ⟨m', .cons hused hfits htracks hpasses⟩

/-! ## The called function -/

/-- What a called function leaves alone, from how far a byte is below the caller's entry: all that
was on the stack before its arguments. -/
theorem leaves_iff (function : String) {kept : Nat} (hused : site.used ≤ kept)
    (hroom : kept + site.above < site.used + addressLimit) (x : UInt16) :
    site.platform.leaves function
        (site.entry - .ofNat (kept + site.platform.arguments function + 2)) x = true ↔
      site.level x < kept ∨ site.used + addressLimit ≤ site.level x + site.above := by
  obtain ⟨more, rfl⟩ := Nat.exists_eq_add_of_le hused
  have hlowest : site.entry - .ofNat (site.used + more + site.platform.arguments function + 2) + 2 +
      .ofNat (site.platform.arguments function) = site.start - .ofNat more := by
    rw [start, UInt16.ofNat_add, UInt16.ofNat_add, UInt16.ofNat_add]
    grind
  have hx : x - (site.start - .ofNat more) = .ofNat more - 1 - (site.start - 1 - x) := by grind
  have hbase : site.platform.base - (site.start - .ofNat more) =
      (site.platform.base - site.start) + .ofNat more := by grind
  have hlevel : (site.start - 1 - x).toNat < addressLimit := UInt16.toNat_lt _
  simp only [Platform.leaves, decide_eq_true_eq]
  rw [hlowest, hx, hbase, UInt16.lt_iff_toNat_lt]
  simp only [level, above, addressLimit] at hroom hlevel ⊢
  generalize site.start - 1 - x = below at hlevel ⊢
  generalize site.platform.base - site.start = room at hroom ⊢
  have hone : (1 : UInt16).toNat = 1 := rfl
  rw [UInt16.toNat_add, UInt16.toNat_sub, UInt16.toNat_sub, UInt16.toNat_ofNat', hone]
  omega

/-- A called function finds its return address below all that was on the stack. -/
theorem enter_eq (hsp : m.sp = site.entry - .ofNat depth) (hused : site.used ≤ depth)
    (hlimit : depth + 2 ≤ site.used + addressLimit) (rest : List Line) :
    (m.enter site.platform rest).sp = site.entry - .ofNat (depth + 2) ∧
    ∀ x, site.level x < depth ∨ depth + 2 ≤ site.level x →
      (m.enter site.platform rest).memory x = m.memory x := by
  let first := m.pushByte (highByte (site.platform.returnAddress rest))
  obtain ⟨hsp', -, hmemory⟩ := pushByte_eq hsp hused (by omega)
    (highByte (site.platform.returnAddress rest))
  obtain ⟨hsp'', -, hmemory'⟩ := pushByte_eq (m := first) hsp' (by omega) (by omega)
    (site.platform.returnAddress rest).toUInt8
  exact ⟨hsp'', fun x hx => (hmemory' x (by omega)).trans (hmemory x (by omega))⟩

/-- The state after a called function has returned, while so many bytes lie above its arguments. -/
def afterCall (site : Site) (kept : Nat) (m : Machine) (outcome : Returned)
    (others : List Returned) : Machine where
  registers := outcome.registers
  flags := outcome.flags
  sp := m.sp
  memory x :=
    if site.level x < kept ∨ site.used + addressLimit ≤ site.level x + site.above then m.memory x
    else outcome.memory x
  outcomes := others

section Calling

variable {function : Symbol} {kept : Nat} {outcome : Returned} {others : List Returned}

/-- A call takes the machine to the state after it, wherever the call stands. -/
theorem call_executes
    (hsp : m.sp = site.entry - .ofNat (kept + site.platform.arguments function.name))
    (hused : site.used ≤ kept) (hroom : kept + site.platform.arguments function.name + 2 ≤ site.room)
    (habove : site.room + site.above ≤ site.used + addressLimit) (houtcomes : m.outcomes = outcome :: others) :
    Executes site.platform [.instr (.call function.name)] m
      (site.afterCall kept m outcome others) := by
  intro before rest _
  have hlimit := hroom.trans site.room_le
  obtain ⟨hsp', hmemory⟩ := enter_eq hsp (by omega) hlimit rest
  have hsame : (m.enter site.platform rest).comeBack site.platform function.name outcome others =
      site.afterCall kept m outcome others := by
    simp only [Machine.comeBack, afterCall, Machine.mk.injEq, true_and, and_true]
    constructor
    · rw [hsp', hsp, UInt16.ofNat_add _ 2]
      grind
    · ext1 x
      have hleaves := leaves_iff function.name hused (by omega) x
      rw [hsp']
      by_cases hleft : site.level x < kept ∨ site.used + addressLimit ≤ site.level x + site.above
      · rw [if_pos hleft, if_pos (hleaves.mpr hleft)]
        exact hmemory x (by omega)
      · rw [if_neg hleft, if_neg fun h => hleft (hleaves.mp h)]
  refine .step ?_ (.refl _)
  rw [← hsame]
  exact Platform.step_call houtcomes

/-- After a call the machine is beside the world in which the function has returned. -/
theorem Mirrors.afterCall {value : UInt16} (h : site.Mirrors depth world m)
    (hroom : kept ≤ site.room)
    (hreturned : function.returned site world = some (value, world')) :
    ∃ outcome others, m.outcomes = outcome :: others ∧
      outcome.registers.read (.result function.resultSize) = value ∧
      site.Mirrors depth world' (site.afterCall kept m outcome others) ∧
      ∀ x, (world.memory x).isSome = true → (world'.memory x).isSome = true := by
  unfold Symbol.returned at hreturned
  split at hreturned
  next outcome others houtcomes =>
    cases hreturned
    refine ⟨outcome, others, h.outcomes.trans houtcomes, rfl, ⟨h.sp, ?_, rfl⟩, fun x hx => ?_⟩
    · intro x byte hx hbyte
      have hsame : site.OnStack x ↔
          site.level x < kept ∨ site.used + addressLimit ≤ site.level x + site.above := by
        simp only [Open] at hx
        simp only [OnStack]
        omega
      simp only [Site.afterCall, ← hsame]
      simp only at hbyte
      split at hbyte
      next hstack =>
        rw [if_pos hstack]
        exact h.memory x byte hx hbyte
      next hstack =>
        rw [if_neg hstack]
        exact Option.some.inj hbyte
    · simp only
      split
      · exact hx
      · rfl
  · cases hreturned

end Calling

/-! ## The rest of a call -/

/-- Bytes are taken off the stack at once. -/
theorem release_executes {bytes : Nat} (hsp : m.sp = site.entry - .ofNat (depth + bytes)) :
    ∃ m', Executes site.platform (if bytes > 0 then [.instr (.release bytes)] else []) m m' ∧
      m'.sp = site.entry - .ofNat depth ∧ m'.registers = m.registers ∧ m'.memory = m.memory ∧
      m'.outcomes = m.outcomes := by
  split
  next =>
    refine ⟨_, .effect rfl, ?_, rfl, rfl, rfl⟩
    show m.sp + .ofNat bytes = _
    rw [hsp, UInt16.ofNat_add]
    grind
  next hnone =>
    have hzero : bytes = 0 := by omega
    subst hzero
    exact ⟨m, .nil site.platform m, hsp, rfl, rfl, rfl⟩

/-- The rest of a call brings back the registers that were saved, and the result besides them. -/
theorem restores_execute {function : Symbol} {registers : List Reg} {state after : LowerState}
    {result : Option Reg} {code : List Line} {before : Machine}
    (h : Restores function registers state result code after)
    (hapart : registers.Pairwise Reg.Apart)
    (hsp : m.sp = site.entry - .ofNat (depth + (registers.map Reg.size).sum))
    (hstacked : site.Stacked m.memory depth (savedValues before registers)) :
    ∃ m', Executes site.platform code m m' ∧ netRise code = (registers.map Reg.size).sum ∧
      m'.sp = site.entry - .ofNat depth ∧ m'.memory = m.memory ∧ m'.outcomes = m.outcomes ∧
      (∀ r ∈ registers, m'.read r = before.read r) ∧
      ∀ r, result = some r → m'.read r = m.read (.result function.resultSize) := by
  have hrise : netRise (registers.reverse.map fun r => .instr (.pop r)) =
      (registers.map Reg.size).sum := by
    rw [netRise_pops, List.map_reverse, List.sum_reverse]
  cases hresult : result with
  | none =>
      rw [(h.none hresult).2]
      obtain ⟨m', hexecutes, hsp', hread, -, hmemory, houtcomes⟩ := pops_execute hapart hsp hstacked
      exact ⟨m', hexecutes, hrise, hsp', hmemory, houtcomes, hread, by simp⟩
  | some r =>
      obtain ⟨-, hsize, hclear, hcode⟩ := h.some r hresult
      -- The result is where it is to be before anything is popped.
      have hmoved : ∃ moved, Quiet site.platform 0
          (if r = .result function.resultSize then []
            else [.instr (.copy r (.result function.resultSize))]) (Reg.ApartFrom [r]) m moved ∧
          moved.read r = m.read (.result function.resultSize) := by
        split
        next hsame => exact ⟨m, .nil _ _ _ m, by rw [hsame]⟩
        next =>
          exact ⟨_, .copy site.platform 0 m r _, Registers.read_copy r _ hsize.symm m.registers⟩
      obtain ⟨moved, hquiet, hread⟩ := hmoved
      have hmemory : moved.memory = m.memory := funext fun x => hquiet.keeps.memory x (Nat.zero_le _)
      obtain ⟨m', hexecutes, hsp', hpopped, hkept, hmemory', houtcomes⟩ :=
        pops_execute hapart (hquiet.keeps.sp.trans hsp) (hmemory ▸ hstacked)
      rw [hcode]
      refine ⟨m', hquiet.executes.append hexecutes, ?_, hsp', hmemory'.trans hmemory,
        houtcomes.trans hquiet.keeps.outcomes, hpopped, ?_⟩
      · rw [netRise_append, hquiet.rise, hrise, Int.zero_add]
      · intro s hs
        cases hs
        rw [hkept r fun s hs => (Reg.overlaps_comm s r).trans (hclear s hs), hread]

/-- Registers are saved below the bytes that are on the stack. -/
theorem Mirrors.save (h : site.Mirrors depth world m) (registers : List Reg)
    (hused : site.used ≤ depth) (hroom : depth + (registers.map Reg.size).sum ≤ site.room) :
    ∃ m', Executes site.platform (registers.map fun r => .instr (.push r)) m m' ∧
      site.Mirrors (depth + (registers.map Reg.size).sum) world m' ∧
      site.Stacked m'.memory depth (savedValues m registers) ∧
      ∀ x, site.level x < depth → m'.memory x = m.memory x := by
  obtain ⟨m', hexecutes, hsp, hstacked, hmemory, houtcomes⟩ :=
    pushes_execute registers h.sp hused (hroom.trans site.room_le)
  refine ⟨m', hexecutes, ⟨hsp, fun x byte hx hbyte => ?_, houtcomes.trans h.outcomes⟩, hstacked,
    fun x hx => hmemory x (.inl hx)⟩
  rw [hmemory x (.inr (hroom.trans hx))]
  exact h.memory x byte hx hbyte

/-- From the call instruction on, the function returns, its arguments leave the stack, and the
saved registers are brought back. -/
theorem finishCall_executes {function : Symbol} {registers : List Reg} {state after : LowerState}
    {result : Option Reg} {rest : List Line} {before : Machine} {value : UInt16} {bytes : Nat}
    (hrestores : Restores function registers state result rest after)
    (hapart : registers.Pairwise Reg.Apart)
    (harguments : site.platform.arguments function.name = bytes) (hused : site.used ≤ depth)
    (hroom : depth + (registers.map Reg.size).sum + bytes + 2 ≤ site.room)
    (habove : site.room + site.above ≤ site.used + addressLimit)
    (hmirrors : site.Mirrors (depth + (registers.map Reg.size).sum + bytes) world m)
    (hstacked : site.Stacked m.memory depth (savedValues before registers))
    (hreturned : function.returned site world = some (value, world')) :
    ∃ m', Executes site.platform (.instr (.call function.name) ::
        ((if bytes > 0 then [.instr (.release bytes)] else []) ++ rest)) m m' ∧
      netRise (.instr (.call function.name) ::
        ((if bytes > 0 then [.instr (.release bytes)] else []) ++ rest)) =
          bytes + (registers.map Reg.size).sum ∧
      site.Mirrors depth world' m' ∧ (∀ r ∈ registers, m'.read r = before.read r) ∧
      (∀ r, result = some r → m'.read r = value) ∧
      (∀ x, site.level x < depth → m'.memory x = m.memory x) ∧
      ∀ x, (world.memory x).isSome = true → (world'.memory x).isSome = true := by
  subst harguments
  let kept := depth + (registers.map Reg.size).sum
  have hkept : kept ≤ site.room := by
    simp only [kept]
    omega
  obtain ⟨outcome, others, houtcomes, hresult, hafter, hknown⟩ :=
    hmirrors.afterCall hkept hreturned
  have hcall := call_executes hmirrors.sp (by omega) hroom habove houtcomes
  have hmemory : ∀ x, site.level x < kept →
      (site.afterCall kept m outcome others).memory x = m.memory x := fun x hx => if_pos (.inl hx)
  obtain ⟨released, hrelease, hsp, hregisters, hmemory', houtcomes'⟩ := release_executes hafter.sp
  have hstacked' : site.Stacked released.memory depth (savedValues before registers) := by
    refine hstacked.congr_saved hused (by have := site.room_le; omega) fun x _ hx => ?_
    rw [hmemory']
    exact hmemory x hx
  obtain ⟨m', hrest, hrise, hsp', hmemory'', houtcomes'', hsaved, hvalue⟩ :=
    restores_execute hrestores hapart hsp hstacked'
  have hsame : m'.memory = (site.afterCall kept m outcome others).memory :=
    hmemory''.trans hmemory'
  refine ⟨m', .append hcall (hrelease.append hrest), ?_, ⟨hsp', ?_, ?_⟩, hsaved, ?_, ?_, hknown⟩
  · rw [netRise_cons, netRise_append, hrise]
    split
    · simp only [netRise_cons, netRise_nil, Line.rise, Instr.rise]
      omega
    · simp only [netRise_nil, Line.rise, Instr.rise]
      omega
  · rw [hsame]
    exact hafter.memory
  · exact houtcomes''.trans (houtcomes'.trans hafter.outcomes)
  · intro r hr
    rw [hvalue r hr, ← hresult]
    exact congrArg (·.read (.result function.resultSize)) hregisters
  · intro x hx
    rw [hsame]
    exact hmemory x (by omega)

/-- A call leads to its function with the values of the arguments on the stack, below the registers
that were saved, and from there to the world in which the function has returned. -/
structure Calls (site : Site) (depth n : Nat) (function : Symbol) (arguments : List Expr)
    (held : RegSet) (result : Option Reg) (code : List Line) (world : World) (m : Machine)
    (value : UInt16) (world' : World) (m' : Machine) : Prop where
  tracks : site.Tracks depth code (fun s => held.contains s = true) world m world' m'
  value : ∀ r, result = some r → m'.read r = value
  entered : ∃ first rest values middle entered,
    code = first ++ .instr (.call function.name) :: rest ∧
    evaluateArguments site n function.parameters arguments world = some (values, middle) ∧
    Executes site.platform first m entered ∧
    depth + (held.toList.map Reg.size).sum + (function.parameters.map Ty.size).sum + 2 ≤
      site.room ∧
    site.Mirrors (depth + (held.toList.map Reg.size).sum +
      (function.parameters.map Ty.size).sum) middle entered ∧
    site.Stacked entered.memory (depth + (held.toList.map Reg.size).sum)
      ((function.parameters.map Ty.size).zip values)

/-- The code of a call: registers saved, arguments pushed, the call, and everything restored
around the result. -/
theorem lowerCall_calls {scope : ScopeId} {note : Note} {function : Symbol} {arguments : List Expr}
    (h : (Expr.call note function arguments).WellFormed site.scopes scope)
    (halong : ∀ argument ∈ arguments, site.LowersAlong scope argument)
    {state : LowerState} (hfree : state.held.ConflictFree) :
    Ensures (lowerCall site.scopes function arguments) state fun result code _ =>
      ∀ (world world' : World) (m : Machine) (value : UInt16),
        site.Fits (site.height scope state) →
        site.CanCall (.call note function arguments)
          (site.height scope state + reach code + 2) →
        site.Mirrors (site.height scope state) world m →
        (Expr.call note function arguments).evaluate site (state.labels.count .string) world =
          some (value, world') →
        ∃ m', site.Calls (site.height scope state) (state.labels.count .string) function arguments
          state.held result code world m value world' m' := by
  obtain ⟨parameters, htype, haccepts, harguments⟩ : ∃ parameters,
      function.type = .function note.type parameters ∧
      List.Forall₂ (fun parameter (argument : Expr) => parameter.Accepts argument.type)
        parameters arguments ∧ ∀ argument ∈ arguments, argument.WellFormed site.scopes scope := by
    cases h with
    | call _ _ htype _ haccepts harguments => exact ⟨_, htype, haccepts, harguments⟩
  have hparameters := Symbol.parameters_eq htype
  rw [← hparameters] at haccepts
  unfold lowerCall
  rw [ensures_bind]
  refine saveAll_ensures.mono ?_
  rintro saved _ emptied ⟨rfl, rfl, hempty, hdepth, hlabels⟩
  rw [ensures_bind]
  have hnone : emptied.held.ConflictFree := by
    rw [hempty]
    exact RegSet.conflictFree_empty
  refine ((lowerArguments_passes haccepts harguments halong hnone).and
    (lowerArguments_pushes haccepts (fun argument hmem state hfree =>
      (harguments argument hmem).allocates state hfree) hnone)).mono ?_
  rintro pushed argumentCode pushedState ⟨hpasses, rfl, hheld, -⟩
  refine (finishCall_ensures (hheld.trans hempty) hfree.apart).mono ?_
  rintro result _ after ⟨-, rest, rfl, hrestores⟩ world world' m value hfits hcan hmirrors hvalue
  rw [Expr.evaluate_call, Evaluation.bind_eq_some] at hvalue
  obtain ⟨values, middle, hvalues, hreturned⟩ := hvalue
  -- The registers in use are saved below the bytes that were on the stack, and the arguments lie
  -- below them.
  let kept := site.height scope state + (state.held.toList.map Reg.size).sum
  let total := (function.parameters.map Ty.size).sum
  have hheight : site.height scope emptied = kept := by
    simp only [height, hdepth, kept]
    omega
  rw [hheight, hlabels] at hpasses
  let saves : List Line := state.held.toList.map fun r => .instr (.push r)
  let tail : List Line := .instr (.call function.name) ::
    ((if total > 0 then [.instr (.release total)] else []) ++ rest)
  replace hcan : site.CanCall (.call note function arguments)
    (site.height scope state + reach (saves ++ (argumentCode ++ tail)) + 2) := hcan
  have hbytes := hcan.bytes_le
  have hreach : (reach (argumentCode ++ tail) : Int) - netRise saves ≤
      reach (saves ++ (argumentCode ++ tail)) := reach_sub_le saves (argumentCode ++ tail)
  have hsavesRise : netRise saves = -((state.held.toList.map Reg.size).sum : Nat) := netRise_pushes _
  have hroom : kept + reach (argumentCode ++ tail) + 2 ≤ site.room := by
    simp only [kept]
    omega
  have hused : site.used ≤ kept := hfits.used_le.trans (Nat.le_add_right _ _)
  obtain ⟨m₁, hsaves, hmirrors₁, hstacked₁, hmemory₁⟩ := hmirrors.save state.held.toList
    hfits.used_le (by simp only [kept] at hroom; omega)
  have hargumentReach := reach_le_append argumentCode tail
  obtain ⟨m₂, hpassed⟩ := hpasses world middle m₁ values hused
    (fun argument hmem => hcan.part (Expr.argument_subset hmem) (by simp only [kept]; omega))
    hmirrors₁ hvalues
  have htailReach : (reach tail : Int) - netRise argumentCode ≤ reach (argumentCode ++ tail) :=
    reach_sub_le argumentCode tail
  have hdip : 2 ≤ reach tail := by
    simp only [tail, reach_cons, Line.dip]
    omega
  have hargumentRise : netRise argumentCode = -(total : Int) := hpassed.rise
  have hstacked₂ : site.Stacked m₂.memory (site.height scope state)
      (savedValues m state.held.toList) := by
    refine hstacked₁.congr_saved hfits.used_le
      (by have := site.room_le; simp only [kept] at hroom; omega) ?_
    exact fun x _ hx => hpassed.pushed x hx
  have hbelow : kept + total + 2 ≤ site.room := by omega
  obtain ⟨m', hfinish, hfinishRise, hmirrors', hsaved, hresult, hmemory', hknown⟩ :=
    finishCall_executes hrestores hfree.apart
      (hcan.arguments note function arguments List.mem_cons_self) hfits.used_le hbelow
      hcan.above_le hpassed.mirrors hstacked₂ hreturned
  have hparts : saves ++ (argumentCode ++ tail) = (saves ++ argumentCode) ++ tail :=
    (List.append_assoc _ _ _).symm
  refine ⟨m', ⟨?_, ?_, hmirrors', ?_, ?_, ?_⟩, hresult, saves ++ argumentCode,
    (if total > 0 then [.instr (.release total)] else []) ++ rest, values, middle, m₂, hparts,
    hvalues, hsaves.append hpassed.executes, hbelow, hpassed.mirrors, hpassed.stacked⟩
  · exact hsaves.append (hpassed.executes.append hfinish)
  · have hwhole : netRise (saves ++ (argumentCode ++ tail)) = 0 := by
      have hrise : netRise tail = total + (state.held.toList.map Reg.size).sum := hfinishRise
      rw [netRise_append, netRise_append, hsavesRise, hargumentRise, hrise]
      omega
    exact hwhole
  · intro r hr
    exact hsaved r (RegSet.mem_toList.mpr hr)
  · intro x hx
    rw [hmemory' x hx, hpassed.pushed x (by omega), hmemory₁ x hx]
  · exact fun x hx => hknown x (hpassed.known x hx)

end Site

end AccumulatorC
