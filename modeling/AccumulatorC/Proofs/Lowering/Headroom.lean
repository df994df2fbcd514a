import AccumulatorC.Proofs.Lowering.ProgramSoundness

/-!
# Headroom on the stack

How far lowering an expression deepens the stack is bounded by the shape of the expression. While
the frames around it, the registers in use and that bound fit into the address space together, every
sum of byte counts on the way does.
-/

namespace AccumulatorC

open Lowering

/-! ## Bytes in registers -/

/-- Bytes that the registers of a set hold. -/
def RegSet.bytes (set : RegSet) : Nat := (set.toList.map Reg.size).sum

theorem RegSet.bytes_empty : RegSet.empty.bytes = 0 := rfl

theorem RegSet.bytes_insert {set : RegSet} {r : Reg} (h : set.contains r = false) :
    (set.insert r).bytes = r.size + set.bytes := by
  have hnot : r ∉ set.toList := by rw [mem_toList, h]; simp
  have hperm : (set.insert r).toList.Perm (r :: set.toList) := by
    apply (List.perm_ext_iff_of_nodup (nodup_toList _)
      (List.nodup_cons.mpr ⟨hnot, nodup_toList _⟩)).mpr
    intro s
    simp [mem_toList]
  rw [bytes, (hperm.map Reg.size).sum_nat, List.map_cons, List.sum_cons, bytes]

/-- Bytes on the stack once all registers in use are saved there. -/
def LowerState.whole (state : LowerState) : Nat := state.depth + state.held.bytes

theorem LowerState.depth_le_whole (state : LowerState) : state.depth ≤ state.whole :=
  Nat.le_add_right _ _

/-- With one register more in use, there are at most two bytes more. -/
theorem Lowering.Holds.whole_le {set : RegSet} {r : Reg} {state : LowerState}
    (h : Holds set r state) : state.whole ≤ state.depth + set.bytes + 2 := by
  have hbytes := RegSet.bytes_insert (RegSet.not_contains_of_isFree h.isFree)
  rw [LowerState.whole, h.held, hbytes]
  rcases r.size_eq_one_or_two with hr | hr <;> omega

/-! ## Steps inside the address space -/

/-- Whatever happens, it is no sum of byte counts that leaves the address space. -/
def Event.Fits (event : Event) : Prop := event ≠ .stops (.breakdown .overflow)

@[simp] theorem Event.fits_enters (state : LowerState) : (Event.enters state).Fits := nofun

@[simp] theorem Event.fits_emits (line : Line) : (Event.emits line).Fits := nofun

@[simp] theorem Event.fits_asks (size : Nat) : (Event.asks size).Fits := nofun

@[simp] theorem Event.fits_diagnosis (cause : LowerError) :
    (Event.stops (.diagnosis cause)).Fits := nofun

/-- Of the breakdowns only an overflow is a sum of byte counts that leaves the address space. -/
@[simp] theorem Event.fits_breakdown (cause : Breakdown) :
    (Event.stops (.breakdown cause)).Fits ↔ cause ≠ .overflow := by
  simp [Fits]

namespace Lowering

variable {α β : Type}

/-- The step stays inside the address space wherever so many bytes more than those on the stack
do. -/
def FitsIn (room : Nat) (step : Lowering α) : Prop :=
  ∀ state : LowerState, state.depth + room < addressLimit → Always Event.Fits step state

/-- The step adds no byte counts that could leave the address space. -/
def Calm (step : Lowering α) : Prop := ∀ state, Always Event.Fits step state

/-- A step that adds no byte counts needs no room. -/
theorem Calm.fitsIn {step : Lowering α} (h : Calm step) (room : Nat) : FitsIn room step :=
  fun state _ => h state

namespace Calm

theorem pure (value : α) : Calm (Pure.pure value) := fun _ => always_pure

theorem bind {step : Lowering α} {next : α → Lowering β} (h : Calm step)
    (hnext : ∀ value, Calm (next value)) : Calm (step >>= next) := fun state =>
  always_bind.mpr ⟨h state, fun done _ => hnext done.value done.state⟩

theorem ite {c : Prop} [Decidable c] {yes no : Lowering α} (hyes : Calm yes) (hno : Calm no) :
    Calm (if c then yes else no) := fun state =>
  always_ite.mpr ⟨fun _ => hyes state, fun _ => hno state⟩

theorem emit (instr : Instr) : Calm (emit instr) := fun _ => always_emit.mpr (by simp)

theorem mark (label : Label) : Calm (mark label) := fun _ => always_mark.mpr (by simp)

theorem line (l : Line) : Calm (line l) := fun _ => always_line.mpr (by simp)

theorem visit (location : Location) : Calm (visit location) :=
  fun _ => always_visit.mpr (by simp)

theorem newLabel (family : Family) : Calm (newLabel family) :=
  fun _ => always_newLabel.mpr (by simp)

theorem fail (cause : LowerError) : Calm (fail cause : Lowering α) :=
  fun _ => always_fail.mpr (by simp)

theorem allocate (size : Nat) : Calm (allocate size) :=
  fun _ => always_allocate.mpr (by simp)

theorem claim (r : Reg) : Calm (claim r) := fun _ => always_claim.mpr (by simp)

theorem free (r : Reg) : Calm (free r) := fun _ => always_free.mpr (by simp)

theorem shallow (bytes : Nat) : Calm (shallow bytes) := fun _ => always_shallow.mpr (by simp)

theorem pop (r : Reg) : Calm (pop r) := fun _ => always_pop.mpr (by simp)

theorem reserve (bytes : Nat) : Calm (reserve bytes) := ite (emit _) (pure ())

theorem release (bytes : Nat) : Calm (release bytes) := ite (emit _) (pure ())

theorem forM {step : α → Lowering Unit} (h : ∀ a, Calm (step a)) (list : List α) :
    Calm (list.forM step) := by
  induction list with
  | nil => exact pure ()
  | cons a list ih => exact (h a).bind fun _ => ih

theorem coerce (r : Reg) (size : Nat) : Calm (coerce r size) := by
  apply ite
  · apply (free r).bind
    intro _
    apply (allocate 2).bind
    intro wide
    have hrest : Calm (do Lowering.emit (.setNumber wide.high 0); return wide) :=
      (emit _).bind fun _ => pure wide
    exact ite ((emit _).bind fun _ => hrest) hrest
  · apply ite
    · exact (free r).bind fun _ => (claim _).bind fun _ => pure _
    · exact pure r

theorem stepBy (step : Reg → Instr) (r : Reg) (count : Nat) : Calm (stepBy step r count) := by
  induction count with
  | zero => exact pure ()
  | succ count ih => exact (emit _).bind fun _ => ih

theorem stringData (inside : Bool) (bytes : List UInt8) : Calm (stringData inside bytes) := by
  intro state
  simp [Lowering.stringData]

theorem combine (op : PairOp) (left right : Reg) : Calm (combine op left right) :=
  (emit _).bind fun _ => (free right).bind fun _ => pure left

theorem comparing (comparison : Comparison) (n : Nat) (r : Reg) :
    Calm (comparing comparison n r) := by
  intro state
  simp [Lowering.comparing, decideTruth]

theorem comparingPairs (comparison : Comparison) (n : Nat) (left right : Reg) :
    Calm (comparingPairs comparison n left right) := by
  intro state
  simp [Lowering.comparingPairs, decideTruth]

theorem multiplication (n : Nat) (count : Reg) : Calm (multiplication n count) := by
  intro state
  simp [Lowering.multiplication]

theorem division (n : Nat) (divisor : Reg) : Calm (division n divisor) := by
  intro state
  simp [Lowering.division]

/-- Moving a byte from or to an address, and the next one if the address has a next one. -/
theorem nextByte {address : Address} (h : ∃ next, address.next = .ok next)
    (instr : Address → Instr) : Calm (do
      stepPair address
      Lowering.emit (instr (← lift address.next))) := by
  obtain ⟨next, hnext⟩ := h
  rw [hnext]
  have hstep : Calm (stepPair address) := by
    cases address with
    | indirect pair => exact emit _
    | label name offset => exact pure ()
    | stack offset => exact pure ()
  exact hstep.bind fun _ => emit (instr next)

theorem load (r : Reg) {address : Address} (h : ∃ next, address.next = .ok next) :
    Calm (load r address) := by
  unfold Lowering.load
  split
  · exact emit _
  · exact (emit _).bind fun _ => nextByte h (.load _)

theorem store {address : Address} (h : ∃ next, address.next = .ok next) (r : Reg) :
    Calm (store address r) := by
  unfold Lowering.store
  split
  · exact emit _
  · exact (emit _).bind fun _ => nextByte h (.store · _)

end Calm

namespace FitsIn

variable {room : Nat}

/-- A step that leaves the stack as it is comes first. -/
theorem bind {step : Lowering α} {next : α → Lowering β} (h : FitsIn room step)
    (hkeeps : KeepsDepth step) (hnext : ∀ value, FitsIn room (next value)) :
    FitsIn room (step >>= next) := by
  intro state hroom
  rw [always_bind]
  refine ⟨h state hroom, (hkeeps state).mono fun value _ after hafter => ?_⟩
  apply hnext value after
  rwa [hafter]

/-- What comes after the step needs no room. -/
theorem calmly {step : Lowering α} {next : α → Lowering β} (h : FitsIn room step)
    (hnext : ∀ value, Calm (next value)) : FitsIn room (step >>= next) := fun state hroom =>
  always_bind.mpr ⟨h state hroom, fun done _ => hnext done.value done.state⟩

theorem mono {step : Lowering α} {more : Nat} (h : FitsIn room step) (hle : room ≤ more) :
    FitsIn more step := fun state hroom =>
  h state (Nat.lt_of_le_of_lt (Nat.add_le_add_left hle _) hroom)

theorem ite {c : Prop} [Decidable c] {yes no : Lowering α} (hyes : FitsIn room yes)
    (hno : FitsIn room no) : FitsIn room (if c then yes else no) := fun state hroom =>
  always_ite.mpr ⟨fun _ => hyes state hroom, fun _ => hno state hroom⟩

theorem push {r : Reg} (h : r.size ≤ room) : FitsIn room (push r) := by
  intro state hroom
  rw [always_push]
  refine ⟨fun _ => by simp, fun hlarge => absurd hroom ?_⟩
  omega

/-- An accumulator in use takes a byte of the stack. -/
theorem preservingAccumulator {step : Lowering Unit} (h : FitsIn room step) :
    FitsIn (room + 1) (preservingAccumulator step) := by
  intro state hroom
  unfold Lowering.preservingAccumulator
  simp only [always_bind, always_ite, always_claim, ensures_claim, Event.fits_enters, true_and]
  constructor
  · intro _
    refine ⟨fun _ => ⟨h _ (by simp only; omega), fun _ _ => Calm.free .a _⟩, fun hno => ?_⟩
    exact absurd trivial hno
  · intro _
    refine ⟨fun hyes => absurd hyes Bool.false_ne_true, fun _ => ?_⟩
    refine ⟨push (Nat.le_add_left 1 room) state hroom, ?_⟩
    rw [ensures_push]
    intro _
    refine ⟨h _ ?_, fun _ _ => Calm.pop .a _⟩
    show state.depth + 1 + room < addressLimit
    omega

theorem throughAccumulator {step : Lowering Unit} (h : FitsIn room step) (r : Reg) :
    FitsIn (room + 1) (throughAccumulator r step) := by
  have hinside : FitsIn room (do emit (.copy .a r); step; emit (.copy r .a)) := by
    apply ((Calm.emit _).fitsIn room).bind fun _ => ensures_emit.mpr rfl
    exact fun _ => h.calmly fun _ => Calm.emit _
  exact ite (h.mono (Nat.le_succ room)) hinside.preservingAccumulator

theorem accumulate {left right : Reg} {step : Reg → Lowering Unit} (h : ∀ r, FitsIn room (step r)) :
    FitsIn (room + 1) (accumulate left right step) := by
  have hrest : ∀ r, FitsIn (room + 1) (do
      Lowering.throughAccumulator left (step r)
      Lowering.free r
      return left) := fun r =>
    ((h r).throughAccumulator left).calmly fun _ => (Calm.free r).bind fun _ => Calm.pure left
  -- Moving the right operand out of the way leaves the stack as it is.
  have hmoving : FitsIn (room + 1) (do
      let moved ← Lowering.allocate 1
      emit (.copy moved .a)
      Lowering.free .a
      Lowering.throughAccumulator left (step moved)
      Lowering.free moved
      return left) := by
    apply ((Calm.allocate 1).fitsIn _).bind fun _ => ensures_allocate.mpr fun _ _ => rfl
    intro moved
    apply ((Calm.emit _).fitsIn _).bind fun _ => ensures_emit.mpr rfl
    intro _
    exact ((Calm.free _).fitsIn _).bind (fun _ => ensures_free.mpr rfl) fun _ => hrest moved
  exact ite hmoving (hrest right)

theorem numbered {family : Family} {step : Nat → Lowering α} (h : ∀ n, FitsIn room (step n)) :
    FitsIn room (Lowering.newLabel family >>= step) :=
  ((Calm.newLabel family).fitsIn room).bind (fun _ => ensures_newLabel.mpr rfl) h

theorem simple (op : AccumulatorOp) (left right : Reg) : FitsIn 1 (simple op left right) :=
  accumulate fun _ => (Calm.emit _).fitsIn 0

theorem compare (comparison : Comparison) (left right : Reg) :
    FitsIn 1 (compare comparison left right) := by
  rw [compare_eq]
  apply numbered
  intro n
  apply ite
  · exact accumulate fun r => (Calm.comparing comparison n r).fitsIn 0
  · have hpairs := (Calm.comparingPairs comparison n left right).fitsIn 0
    exact hpairs.preservingAccumulator.calmly fun _ =>
      (Calm.free right).bind fun _ => Calm.pure left

theorem multiply (left right : Reg) : FitsIn 1 (multiply left right) := by
  rw [multiply_eq]
  exact numbered fun n => accumulate fun count => (Calm.multiplication n count).fitsIn 0

theorem divide (left right : Reg) : FitsIn 1 (divide left right) := by
  rw [divide_eq]
  exact numbered fun n => accumulate fun divisor => (Calm.division n divisor).fitsIn 0

/-- The value is pushed once more while the count is looked at. -/
theorem shifting (right : Bool) (n : Nat) (count : Reg) : FitsIn 1 (shifting right n count) := by
  intro state hroom
  cases right <;> simpa [Lowering.shifting, Reg.size] using hroom

theorem shift (right : Bool) (value count : Reg) : FitsIn 2 (shift right value count) := by
  rw [shift_eq]
  exact numbered fun n => accumulate fun r => shifting right n r

theorem halfwise (op : AccumulatorOp) (left right : Reg) : FitsIn 1 (halfwise op left right) := by
  have hhalf : ∀ half other : Reg,
      FitsIn 1 (Lowering.throughAccumulator half (emit (.accumulate op (.reg other)))) :=
    fun half other => ((Calm.emit _).fitsIn 0).throughAccumulator half
  apply (hhalf _ _).bind
  · intro state
    exact ((Keeps.emit _).throughAccumulator _ state).mono fun _ _ _ hafter => hafter.2
  · intro _
    exact (hhalf _ _).calmly fun _ => (Calm.free right).bind fun _ => Calm.pure left

/-- Every operator on registers finds room for two bytes enough. -/
theorem operate (op : BinaryOp) (size : Nat) (left right : Reg) :
    FitsIn 2 (operate op size left right) := by
  unfold Lowering.operate
  split
  · exact (compare _ left right).mono (Nat.le_succ 1)
  · have hmalformed : Calm (lift (.error .malformedTree) : Lowering Reg) := by
      intro state
      rw [always_lift]
      rintro _ ⟨⟩
      simp
    have htwo := Nat.le_succ 1
    apply ite
    · cases op with
      | add | sub => exact (Calm.combine _ left right).fitsIn 2
      | and | or => exact (halfwise _ left right).mono htwo
      | mul | div | shiftLeft | shiftRight => exact (Calm.fail _).fitsIn 2
      | _ => exact hmalformed.fitsIn 2
    · cases op with
      | add | sub | and | or => exact (simple _ left right).mono htwo
      | mul => exact (multiply left right).mono htwo
      | div => exact (divide left right).mono htwo
      | shiftLeft => exact shift false left right
      | shiftRight => exact shift true left right
      | _ => exact hmalformed.fitsIn 2

theorem negate (r : Reg) : FitsIn 1 (negate r) := by
  apply ((Calm.allocate _).fitsIn 1).bind fun _ => ensures_allocate.mpr fun _ _ => rfl
  intro zero
  apply ((Calm.emit _).fitsIn 1).bind fun _ => ensures_emit.mpr rfl
  exact fun _ => ite ((Calm.combine .sub zero r).fitsIn 1) (simple .sub zero r)

end FitsIn

/-! ## Calls -/

theorem Calm.claimAll (registers : List Reg) : Calm (claimAll registers) :=
  forM (fun r => (claim r).bind fun _ => pure ()) registers

theorem Calm.claimResult (size : Nat) : Calm (claimResult size) :=
  ite (pure none) ((claim _).bind fun _ => pure _)

theorem Calm.moveResult (clashing : List Reg) (result : Option Reg) :
    Calm (moveResult clashing result) := by
  cases result with
  | none => exact pure none
  | some r =>
      apply ite (pure _)
      exact (allocate _).bind fun _ => (emit _).bind fun _ => (free r).bind fun _ => pure _

/-- After the arguments of a call nothing is pushed any more. -/
theorem Calm.finishCall (function : Symbol) (saved : List Reg) (pushed : Nat) :
    Calm (finishCall function saved pushed) := by
  have hrestore : Calm (restore function saved) :=
    (claimResult _).bind fun result => (claimAll _).bind fun _ =>
      (moveResult _ result).bind fun _ => (claimAll _).bind fun _ =>
        (forM pop _).bind fun _ => pure _
  rw [finishCall_eq]
  apply (emit _).bind
  intro _
  exact ite ((emit _).bind fun _ => (shallow _).bind fun _ => hrestore) hrestore

theorem fits_forM_save {registers : List Reg} {state : LowerState}
    (hroom : state.depth + (registers.map Reg.size).sum < addressLimit) :
    Always Event.Fits (registers.forM save) state := by
  induction registers generalizing state with
  | nil => exact always_pure
  | cons r registers ih =>
      rw [List.map_cons, List.sum_cons, ← Nat.add_assoc] at hroom
      have hpush : Always Event.Fits (push r) state :=
        FitsIn.push (Nat.le_refl _) state (Nat.lt_of_le_of_lt (Nat.le_add_right _ _) hroom)
      simp only [List.forM_eq_forM, List.forM_cons, save, always_bind, ensures_bind, ensures_push,
        ensures_free]
      exact ⟨⟨hpush, fun _ => Calm.free r _⟩, fun _ => ih hroom⟩

theorem fits_saveAll {state : LowerState} (hroom : state.whole < addressLimit) :
    Always Event.Fits saveAll state := by
  rw [saveAll, always_bind, ensures_get]
  exact ⟨always_get, always_bind.mpr ⟨fits_forM_save hroom, fun _ _ => always_pure⟩⟩

end Lowering

/-! ## Expressions -/

mutual

/-- A bound on the bytes by which lowering an expression deepens the stack, besides those of the
registers in use. The left operand of an operator is in a register meanwhile, and so is an assigned
value while the pointer to its place is lowered; the argument of a call is on the stack while the
later ones are lowered. -/
def Expr.headroom : Expr → Nat
  | .number _ _ | .string _ _ | .name _ _ => 0
  | .assign _ target value => max value.headroom (1 + target.headroom)
  | .binary _ _ left right => max left.headroom (2 + right.headroom)
  | .unary _ .deref operand => 1 + operand.headroom
  | .unary _ .negate operand => max 1 operand.headroom
  | .unary _ _ operand => operand.headroom
  | .call _ _ arguments => Expr.allHeadroom arguments

/-- The same for the arguments of a call. -/
def Expr.allHeadroom : List Expr → Nat
  | [] => 0
  | argument :: rest => max argument.headroom (2 + Expr.allHeadroom rest)

end

/-- Two bytes for each argument are part of the headroom. -/
theorem Expr.two_mul_length_le (arguments : List Expr) :
    2 * arguments.length ≤ allHeadroom arguments := by
  induction arguments with
  | nil => exact Nat.le_refl _
  | cons argument rest ih =>
      rw [List.length_cons, allHeadroom]
      omega

theorem Ty.sum_size_le (types : List Ty) : (types.map Ty.size).sum ≤ 2 * types.length := by
  induction types with
  | nil => exact Nat.le_refl _
  | cons type rest ih =>
      have hsize := type.size_le_two
      rw [List.map_cons, List.sum_cons, List.length_cons]
      omega

theorem UnaryOp.headroom_of_keepsType {op : UnaryOp} (h : op.keepsType = true) (note : Note)
    (operand : Expr) : operand.headroom ≤ (Expr.unary note op operand).headroom := by
  cases op with
  | addressOf => cases h
  | deref => cases h
  | negate => exact Nat.le_max_right _ _
  | _ => exact Nat.le_refl _

section Expressions

variable {scopes : Scopes} {scope : ScopeId}

/-- Every known scope lies in the global one. -/
theorem Scopes.WellFormed.global_mem_chain (hwf : scopes.WellFormed)
    (hknown : scope < scopes.list.length) : globalScope ∈ scopes.chain scope := by
  induction scope using Nat.strongRecOn with
  | ind scope ih =>
      by_cases hglobal : scope = globalScope
      · rw [hglobal]
        exact mem_chain_self _ _
      · obtain ⟨parent, -, hlt, hchain⟩ :=
          hwf.chain_cons (List.getElem?_eq_getElem hknown) hglobal
        rw [hchain]
        exact List.mem_cons_of_mem _ (ih parent hlt (Nat.lt_trans hlt hknown))

/-- The frame of a local's scope and those further inside are part of all frames. -/
theorem Scopes.Visible.frames_le (hwf : scopes.WellFormed) {symbol : Symbol}
    (h : scopes.Visible scope symbol) {offset : Nat} (hstorage : symbol.storage = .framed offset) :
    1 ≤ symbol.type.size ∧ scopes.frames scope symbol.scope + scopes.frameOf symbol.scope ≤
      scopes.frames scope globalScope := by
  obtain ⟨table, htable, -, hplace⟩ := h.places hwf
  rw [Scope.Places, hstorage] at hplace
  obtain ⟨hne, hscalar, -⟩ := hplace
  have hchain := hwf.global_mem_chain (List.getElem?_eq_some_iff.mp htable).1
  have hown : scopes.frameOf symbol.scope ≤ scopes.frames symbol.scope globalScope :=
    frameOf_le_frames hne
  have hsize := Ty.size_of_isScalar hscalar
  rw [frames_add h.1 hchain]
  omega

/-- A visible symbol has an address where the frames around and the bytes on the stack fit into the
address space together, and so has the byte behind its first one. -/
theorem Scopes.fits_address (hwf : scopes.WellFormed) {symbol : Symbol}
    (hvisible : scopes.Visible scope symbol) {state : LowerState}
    (hroom : state.depth + scopes.frames scope globalScope < addressLimit) :
    Always Event.Fits (scopes.address symbol scope) state ∧
      Ensures (scopes.address symbol scope) state fun address _ after =>
        after = state ∧ ∃ next, address.next = .ok next := by
  have hlabel : ∃ next, (Address.label symbol.name 0).next = .ok next := ⟨.label symbol.name 1, rfl⟩
  unfold address
  cases hstorage : symbol.storage with
  | labelled =>
      have hnone : scopes.stackOffset symbol scope = .ok none := by rw [stackOffset, hstorage]
      simp [hnone, hlabel]
  | external =>
      have hnone : scopes.stackOffset symbol scope = .ok none := by rw [stackOffset, hstorage]
      simp [hnone, hlabel]
  | framed offset =>
      obtain ⟨hsize, hframes⟩ := hvisible.frames_le hwf hstorage
      have hfits :
          scopes.frames scope symbol.scope + scopes.frameOf symbol.scope < addressLimit := by omega
      have hoffset := stackOffset_framed hwf hvisible hstorage
      rw [if_pos hfits] at hoffset
      obtain ⟨_, hsame, -, hdistance⟩ := stackOffset_eq_some hoffset
      obtain rfl := Storage.framed.inj (hstorage.symm.trans hsame)
      generalize scopes.frames scope symbol.scope + scopes.frameOf symbol.scope - offset -
        symbol.type.size = distance at hoffset hdistance
      have hsum : addBytes distance state.depth = .ok (distance + state.depth) :=
        addBytes_eq_ok.mpr ⟨by omega, rfl⟩
      have hnext : addBytes (distance + state.depth) 1 = .ok (distance + state.depth + 1) :=
        addBytes_eq_ok.mpr ⟨by omega, rfl⟩
      simp [hoffset, hsum, Address.next, hnext, Except.map]

/-- Arguments need room for those pushed before them and for their own code. -/
theorem fits_lowerArguments {parameters : List Ty} {arguments : List Expr}
    (haccepts : List.Forall₂ (fun parameter (argument : Expr) => parameter.Accepts argument.type)
      parameters arguments)
    (hlower : ∀ argument ∈ arguments, argument.WellFormed scopes scope) {frames : Nat}
    (hfits : ∀ argument ∈ arguments, ∀ state : LowerState, state.held.ConflictFree →
      state.whole + argument.headroom + frames < addressLimit →
        Always Event.Fits (argument.lower scopes) state)
    {state : LowerState} (hfree : state.held.ConflictFree)
    (hroom : state.whole + Expr.allHeadroom arguments + frames < addressLimit) :
    Always Event.Fits (lowerArguments scopes parameters arguments) state := by
  induction haccepts generalizing state with
  | nil =>
      rw [lowerArguments]
      · exact always_pure
      · simp
  | @cons parameter argument parameters arguments haccept haccepts ih =>
      obtain ⟨hfirst, hothers⟩ := List.forall_mem_cons.mp hlower
      obtain ⟨hfitsFirst, hfitsOthers⟩ := List.forall_mem_cons.mp hfits
      rw [Expr.allHeadroom] at hroom
      rw [lowerArguments, always_bind]
      refine ⟨hfitsFirst state hfree (by omega), (hfirst.allocates state hfree).mono ?_⟩
      intro r _ lowered hlowered
      obtain ⟨hholds, -, hdepth⟩ := hlowered
      rw [always_bind]
      refine ⟨Calm.coerce r _ lowered,
        (coerce_holds hholds (Ty.size_of_isScalar haccept.isScalar.1)).mono ?_⟩
      intro r' _ coerced hcoerced
      obtain ⟨hholds', hsize, hdepth'⟩ := hcoerced
      -- The argument is on the stack from here on, in place of its register.
      have hbyte := parameter.size_le_two
      have hwhole : coerced.depth + state.held.bytes = state.whole := by
        rw [hdepth', hdepth, LowerState.whole]
      have hpush : coerced.depth + r'.size < addressLimit := by omega
      have hsaved : LowerState.whole { coerced with
          depth := coerced.depth + r'.size, held := coerced.held.erase r' } =
            state.whole + r'.size := by
        simp only [LowerState.whole, hholds'.erase]
        omega
      simp only [save, always_bind, ensures_bind, ensures_push, ensures_free, always_lift]
      refine ⟨⟨FitsIn.push (Nat.le_refl _) coerced hpush, fun _ => Calm.free r' _⟩, fun _ => ?_⟩
      have hconflictFree : (coerced.held.erase r').ConflictFree := by
        rw [hholds'.erase]
        exact hfree
      refine ⟨ih hothers hfitsOthers (by exact hconflictFree) ?_, ?_⟩
      · rw [hsaved]
        omega
      · refine (lowerArguments_pushes haccepts (fun argument hmem state hfree =>
          (hothers argument hmem).allocates state hfree) (by exact hconflictFree)).mono ?_
        rintro rest _ after ⟨hrest, -, -⟩ cause hcause
        have hbytes := Ty.sum_size_le parameters
        have hlength := haccepts.length_eq
        have hall := Expr.two_mul_length_le arguments
        rw [addBytes_eq_error] at hcause
        omega

/-- A call needs room for the registers in use, saved at once, and for its arguments. -/
theorem fits_lowerCall {note : Note} {function : Symbol} {arguments : List Expr}
    (h : (Expr.call note function arguments).WellFormed scopes scope) {frames : Nat}
    (hfits : ∀ argument ∈ arguments, ∀ state : LowerState, state.held.ConflictFree →
      state.whole + argument.headroom + frames < addressLimit →
        Always Event.Fits (argument.lower scopes) state)
    {state : LowerState}
    (hroom : state.whole + Expr.allHeadroom arguments + frames < addressLimit) :
    Always Event.Fits (lowerCall scopes function arguments) state := by
  obtain ⟨parameters, htype, haccepts, hwf⟩ : ∃ parameters,
      function.type = .function note.type parameters ∧
      List.Forall₂ (fun parameter (argument : Expr) => parameter.Accepts argument.type)
        parameters arguments ∧ ∀ argument ∈ arguments, argument.WellFormed scopes scope := by
    cases h with
    | call _ _ htype _ haccepts harguments => exact ⟨_, htype, haccepts, harguments⟩
  unfold lowerCall
  rw [always_bind, Symbol.parameters_eq htype]
  refine ⟨fits_saveAll (by omega), saveAll_ensures.mono ?_⟩
  intro saved _ emptied hemptied
  obtain ⟨hsaved, -, hempty, hdepth, -⟩ := hemptied
  -- What was in registers is on the stack now, and counts as much there.
  have hwhole : emptied.whole = state.whole := by
    rw [LowerState.whole, hempty, hdepth, hsaved]
    rfl
  have hnone : emptied.held.ConflictFree := by
    rw [hempty]
    exact RegSet.conflictFree_empty
  rw [always_bind]
  refine ⟨fits_lowerArguments haccepts hwf hfits hnone (by rwa [hwhole]), ?_⟩
  exact fun _ _ => Calm.finishCall function saved _ _

/-- Lowering an expression stays inside the address space where its headroom, the frames around it,
and the bytes on the stack and in registers fit there together. -/
theorem Expr.WellFormed.fits (hwf : scopes.WellFormed) {e : Expr} (h : e.WellFormed scopes scope)
    (state : LowerState) (hfree : state.held.ConflictFree)
    (hroom : state.whole + e.headroom + scopes.frames scope globalScope < addressLimit) :
    Always Event.Fits (e.lower scopes) state := by
  induction h using Expr.WellFormed.alongLowering generalizing state with
  | number h =>
      rw [Expr.lower]
      exact ((Calm.visit _).bind fun _ => (Calm.allocate _).bind fun r =>
        (Calm.emit _).bind fun _ => Calm.pure r) state
  | string h =>
      rw [Expr.lower]
      exact ((Calm.visit _).bind fun _ => (Calm.stringData _ _).bind fun _ =>
        (Calm.allocate 2).bind fun r => (Calm.emit _).bind fun _ => Calm.pure r) state
  | @name note symbol h =>
      obtain ⟨hscope, -, hvisible⟩ := h.of_name
      have hdepth := state.depth_le_whole
      have hroom : state.depth + scopes.frames scope globalScope < addressLimit := by omega
      obtain ⟨hfits, haddress⟩ :=
        @Scopes.fits_address scopes scope hwf _ hvisible { state with here := note.location } hroom
      rw [Expr.lower, hscope, always_bind, ensures_visit, always_bind]
      refine ⟨Calm.visit _ state, hfits, haddress.mono ?_⟩
      rintro address _ _ ⟨rfl, hnext⟩
      exact ((Calm.allocate _).bind fun r => (Calm.load r hnext).bind fun _ => Calm.pure r) _
  | @assignName note inner symbol value h hvalue ih =>
      obtain ⟨htarget, haccepts⟩ : (Expr.name inner symbol).WellFormed scopes scope ∧
          inner.type.Accepts value.type := by
        cases h
        exact ⟨by assumption, by assumption⟩
      obtain ⟨hscope, -, hvisible⟩ := htarget.of_name
      have hdepth := state.depth_le_whole
      rw [Expr.headroom] at hroom
      have hvalueRoom :
          state.whole + value.headroom + scopes.frames scope globalScope < addressLimit := by omega
      rw [Expr.lower]
      simp only [always_bind, ensures_visit, always_visit, Event.fits_enters, true_and]
      refine ⟨ih _ (by exact hfree) hvalueRoom, (hvalue.allocates _ (by exact hfree)).mono ?_⟩
      intro r _ lowered hlowered
      obtain ⟨hholds, -, hlowered⟩ := hlowered
      refine ⟨Calm.coerce r _ lowered,
        (coerce_holds hholds (Ty.size_of_isScalar haccepts.isScalar.1)).mono ?_⟩
      intro r' _ coerced hcoerced
      obtain ⟨-, -, hcoerced⟩ := hcoerced
      rw [hscope]
      have haddressRoom : coerced.depth + scopes.frames scope globalScope < addressLimit := by
        rw [hcoerced, hlowered]
        show state.depth + _ < _
        omega
      obtain ⟨hfits, haddress⟩ := @Scopes.fits_address scopes scope hwf _ hvisible
        { coerced with here := Expr.location (.name inner symbol) } haddressRoom
      refine ⟨hfits, haddress.mono ?_⟩
      rintro address _ _ ⟨-, hnext⟩
      exact ⟨Calm.store hnext r' _, fun _ _ => always_pure⟩
  | @assignDeref note inner pointer value h hvalue hpointer ihvalue ihpointer =>
      have haccepts : inner.type.Accepts value.type := by
        cases h
        assumption
      rw [Expr.headroom, Expr.headroom] at hroom
      have hvalueRoom :
          state.whole + value.headroom + scopes.frames scope globalScope < addressLimit := by omega
      rw [Expr.lower]
      simp only [always_bind, ensures_visit, always_visit, Event.fits_enters, true_and]
      refine ⟨ihvalue _ (by exact hfree) hvalueRoom, (hvalue.allocates _ (by exact hfree)).mono ?_⟩
      intro r _ lowered hlowered
      obtain ⟨hholds, -, hlowered⟩ := hlowered
      refine ⟨Calm.coerce r _ lowered,
        (coerce_holds hholds (Ty.size_of_isScalar haccepts.isScalar.1)).mono ?_⟩
      intro r' _ coerced hcoerced
      obtain ⟨hholds', -, hcoerced⟩ := hcoerced
      -- The value is in a register while the pointer is lowered.
      have hwhole : coerced.whole ≤ state.whole + 2 := by
        have hbytes := hholds'.whole_le
        rw [hcoerced, hlowered] at hbytes
        exact hbytes
      have hpointerRoom : coerced.whole + pointer.headroom + scopes.frames scope globalScope <
          addressLimit := by omega
      refine ⟨ihpointer _ (by exact hholds'.held_conflictFree) (by exact hpointerRoom), ?_⟩
      intro pair _
      exact ⟨Calm.store ⟨_, rfl⟩ r' _, fun _ _ => ⟨Calm.free _ _, fun _ _ => always_pure⟩⟩
  | @binary note op left right h hleft hright ihleft ihright =>
      have hcombines : left.type.Combines right.type note.type := by
        cases h
        assumption
      have hsize := Ty.size_of_isScalar hcombines.isScalar.2.2
      rw [Expr.headroom] at hroom
      have hleftRoom :
          state.whole + left.headroom + scopes.frames scope globalScope < addressLimit := by omega
      rw [Expr.lower]
      simp only [always_bind, ensures_visit, always_visit, Event.fits_enters, true_and]
      refine ⟨ihleft _ (by exact hfree) hleftRoom, (hleft.allocates _ (by exact hfree)).mono ?_⟩
      intro l _ first hfirst
      obtain ⟨hl, -, hfirst⟩ := hfirst
      refine ⟨Calm.coerce l _ first, (coerce_holds hl hsize).mono ?_⟩
      intro l' _ second hsecond
      obtain ⟨hl', -, hsecond⟩ := hsecond
      -- The left operand is in a register while the right one is lowered.
      have hwhole : second.whole ≤ state.whole + 2 := by
        have hbytes := hl'.whole_le
        rw [hsecond, hfirst] at hbytes
        exact hbytes
      refine ⟨ihright second hl'.held_conflictFree (by omega),
        (hright.allocates second hl'.held_conflictFree).mono ?_⟩
      intro r _ third hthird
      obtain ⟨hr, -, hthird⟩ := hthird
      refine ⟨Calm.coerce r _ third, (coerce_holds hr hsize).mono ?_⟩
      intro r' _ fourth hfourth
      obtain ⟨-, -, hfourth⟩ := hfourth
      apply FitsIn.operate op _ l' r' fourth
      have hdepth := state.depth_le_whole
      have hkept : fourth.depth = state.depth := by rw [hfourth, hthird, hsecond, hfirst]
      omega
  | @addressName note inner symbol h =>
      obtain ⟨hscope, -, hvisible⟩ : inner.scope = scope ∧ inner.type = symbol.type ∧
          scopes.Visible scope symbol := by
        cases h with
        | addressOf _ _ _ _ hoperand => exact hoperand.of_name
        | keeping hop => cases hop
      have hdepth := state.depth_le_whole
      have haddressRoom : state.depth + scopes.frames scope globalScope < addressLimit := by omega
      obtain ⟨hfits, -⟩ := @Scopes.fits_address scopes scope hwf _ hvisible
        { state with here := note.location } haddressRoom
      rw [Expr.lower, always_bind, ensures_visit]
      refine ⟨Calm.visit _ state, ?_⟩
      simp only [hscope]
      rw [always_bind]
      exact ⟨hfits, fun _ _ =>
        ((Calm.allocate 2).bind fun r => (Calm.emit _).bind fun _ => Calm.pure r) _⟩
  | @addressDeref note inner pointer h hpointer ih =>
      have hpointerRoom : state.whole + pointer.headroom + scopes.frames scope globalScope <
          addressLimit := by
        rw [Expr.headroom, Expr.headroom] at hroom
        · omega
        all_goals simp
      rw [Expr.lower, always_bind, ensures_visit]
      exact ⟨Calm.visit _ state, ih _ (by exact hfree) hpointerRoom⟩
  | @deref note operand h hoperand ih =>
      rw [Expr.headroom] at hroom
      have hoperandRoom :
          state.whole + operand.headroom + scopes.frames scope globalScope < addressLimit := by
        omega
      rw [Expr.lower, always_bind, ensures_visit, always_bind]
      refine ⟨Calm.visit _ state, ih _ (by exact hfree) hoperandRoom, fun _ _ => ?_⟩
      exact ((Calm.allocate _).bind fun r => (Calm.load r ⟨_, rfl⟩).bind fun _ =>
        (Calm.free _).bind fun _ => Calm.pure r) _
  | @keeping note op operand h hoperand hop htype hoperandVoid ih =>
      have hle := UnaryOp.headroom_of_keepsType hop note operand
      have hoperandRoom :
          state.whole + operand.headroom + scopes.frames scope globalScope < addressLimit := by
        omega
      have hvisited :
          Always Event.Fits (operand.lower scopes) { state with here := note.location } :=
        ih _ hfree hoperandRoom
      cases op with
      | addressOf => cases hop
      | deref => cases hop
      | plus =>
          rw [Expr.lower, always_bind, ensures_visit]
          exact ⟨Calm.visit _ state, hvisited⟩
      | negate =>
          rw [Expr.headroom] at hroom
          rw [Expr.lower, always_bind, ensures_visit, always_bind]
          refine ⟨Calm.visit _ state, hvisited, (hoperand.allocates _ (by exact hfree)).mono ?_⟩
          intro r _ lowered hlowered
          apply FitsIn.negate r lowered
          have hdepth := state.depth_le_whole
          have hkept : lowered.depth = state.depth := hlowered.2.2
          omega
      | increment =>
          rw [Expr.lower, always_bind, ensures_visit, always_bind]
          refine ⟨Calm.visit _ state, hvisited, fun _ _ => ?_⟩
          exact ((Calm.stepBy _ _ _).bind fun _ => Calm.pure _) _
      | decrement =>
          rw [Expr.lower, always_bind, ensures_visit, always_bind]
          refine ⟨Calm.visit _ state, hvisited, fun _ _ => ?_⟩
          exact ((Calm.stepBy _ _ _).bind fun _ => Calm.pure _) _
  | @call note function arguments h harguments ih =>
      rw [Expr.headroom] at hroom
      rw [Expr.lower_call, always_bind, ensures_visit, always_bind]
      refine ⟨Calm.visit _ state, fits_lowerCall h ih (by exact hroom), fun result _ => ?_⟩
      cases result.value with
      | some r => exact always_pure
      | none => exact Calm.fail _ _

end Expressions

end AccumulatorC
