import AccumulatorC.Proofs.Lowering.ExpressionValues
import AccumulatorC.Proofs.StackDiscipline

/-!
# The code of expressions

The code of an expression without calls, wherever it stands in a function, leaves the value of the
expression in the register that was taken for it. The stack pointer and the registers in use are
as before, and memory changes as evaluation changes it.
-/

namespace AccumulatorC

open Lowering

/-- What evaluation finds on a machine: all bytes have values. -/
def Machine.world (m : Machine) : World where
  memory x := some (m.memory x)
  outcomes := m.outcomes

/-- Where an expression of a function is evaluated on a machine, while so many bytes have been
pushed below the frames around the expression. So many bytes below the stack pointer are kept for
what the code pushes. -/
def Function.site (function : Function) (scopes : Scopes) (e : Expr) (pushed kept : Nat)
    (hkept : kept ≤ addressLimit) (platform : Platform) (m : Machine) : Site where
  scopes := scopes
  outer := function.parameters
  platform := platform
  entry := m.sp + .ofNat (scopes.frames e.note.scope function.parameters + pushed)
  used := scopes.frames e.note.scope function.parameters + pushed
  room := scopes.frames e.note.scope function.parameters + pushed + kept
  room_le := Nat.add_le_add_left hkept _

section Sites

variable {function : Function} {scopes : Scopes} {e : Expr} {pushed kept : Nat}
  {hkept : kept ≤ addressLimit} {platform : Platform} {m : Machine}

theorem Function.site_start :
    (function.site scopes e pushed kept hkept platform m).start = m.sp := by
  simp only [Site.start, site]
  grind

/-- All bytes but those that are kept are open. -/
theorem Function.site_open {x : UInt16} (hx : kept ≤ (m.sp - 1 - x).toNat) :
    (function.site scopes e pushed kept hkept platform m).Open x := by
  simp only [Site.Open, Site.level, site_start]
  exact Nat.add_le_add_left hx _

theorem Function.site_mirrors :
    (function.site scopes e pushed kept hkept platform m).Mirrors
      (scopes.frames e.note.scope function.parameters + pushed) m.world m where
  sp := by
    simp only [site]
    grind
  memory _ _ _ hbyte := Option.some.inj hbyte
  outcomes := rfl

end Sites

/-- What a machine beside a world has in the bytes that are open, when all bytes had values. -/
theorem Site.Mirrors.memory_eq {site : Site} {depth : Nat} {world : World} {m after : Machine}
    (h : site.Mirrors depth world after)
    (hknown : ∀ x, (m.world.memory x).isSome = true → (world.memory x).isSome = true) {x : UInt16}
    (hx : site.Open x) : world.memory x = some (after.memory x) := by
  obtain ⟨byte, hbyte⟩ := Option.isSome_iff_exists.mp (hknown x rfl)
  rw [hbyte, h.memory x byte hx hbyte]

/-- Expressions of a function that is read are well-formed where they stand, with its parameters
around them. -/
theorem Function.WellFormed.lowersAlong {site : Site} (hwf : site.scopes.WellFormed)
    {function : Function} (h : function.WellFormed site.scopes)
    (houter : site.outer = function.parameters) {e : Expr} (hnode : e ∈ function.nodes) :
    site.LowersAlong e.note.scope e := by
  obtain ⟨he, hinside⟩ := h.node hwf hnode
  refine Site.lowersAlong he fun symbol offset hvisible hstorage => ?_
  rw [houter]
  exact hwf.local_inside (h.nested hwf).root hinside symbol offset hvisible hstorage

/-- The code of an expression without calls leaves its value in the register that was taken for
it, whichever registers are in use and however much has been pushed. The stack pointer and the
registers in use stay as they are, and all bytes but the two below the stack pointer are as
evaluation leaves them. -/
theorem Program.expressions_evaluated {tokens : List (Located Token)} {parsed : Parsed}
    {function : Function} {e : Expr} {state : LowerState}
    (hparsed : Program.ofTokens tokens = .ok parsed)
    (hmem : .function function ∈ parsed.program.items) (hnode : e ∈ function.nodes)
    (hcalls : e.isCallFree = true) (hfree : state.held.ConflictFree) :
    Ensures (e.lower parsed.program.scopes) state fun r code _ =>
      ∀ (platform : Platform) (m : Machine) (value : UInt16) (world : World),
        e.evaluate (function.site parsed.program.scopes e state.depth 2 (by decide) platform m)
          (state.labels.count .string) m.world = some (value, world) →
        ∃ m', Executes platform code m m' ∧ m'.read r = value ∧ m'.sp = m.sp ∧
          (∀ s, state.held.contains s = true → m'.read s = m.read s) ∧
          ∀ x, 2 ≤ (m.sp - 1 - x).toNat → world.memory x = some (m'.memory x) := by
  have hwf := Program.ofTokens_wellFormed hparsed
  intro done hdone platform m value world hvalue
  let site := function.site parsed.program.scopes e state.depth 2 (by decide) platform m
  have halong : site.LowersAlong e.note.scope e :=
    Function.WellFormed.lowersAlong hwf.scopes (hwf.functions function hmem) rfl hnode
  obtain ⟨m', htracks, hread⟩ := halong state hfree done hdone m.world world m value
    ⟨Nat.le_refl _, Nat.le_refl _⟩ (by simp [hcalls]) Function.site_mirrors hvalue
  refine ⟨m', htracks.executes, hread, ?_, htracks.registers, fun x hx => ?_⟩
  · exact htracks.mirrors.sp.trans Function.site_mirrors.sp.symm
  · exact htracks.mirrors.memory_eq htracks.known (Function.site_open hx)

/-- A platform on which all labels are at the same address and every function takes one byte. -/
def plainPlatform : Platform where
  address _ := 0x100
  flags _ m := m.flags
  returnAddress _ := 0
  arguments _ := 1
  base := 0xfff0

/-- A machine with five in every byte, before so many calls. -/
def fives (outcomes : List Returned) : Machine where
  registers := ⟨5, 5, 5, 5, 5⟩
  flags := ⟨false, false⟩
  sp := 0x8000
  memory _ := 5
  outcomes := outcomes

/-- A state in which the accumulator is in use and three bytes are pushed. -/
def busyState : LowerState := ⟨RegSet.empty.insert .a, 3, .empty, .startOf "<output>"⟩

theorem busyState_conflictFree : busyState.held.ConflictFree :=
  RegSet.conflictFree_empty.insert (by decide)

/-- An operator of a program leaves its value in a busy state. -/
theorem countdown_expressions_evaluated :
    ∃ function e done world, .function function ∈ countdown.program.items ∧ e ∈ function.nodes ∧
      e.isCallFree = true ∧ busyState.held.ConflictFree ∧
      (e.lower countdown.program.scopes).run busyState = .ok done ∧
      e.evaluate (function.site countdown.program.scopes e 3 2 (by decide) plainPlatform (fives [])) 0
        (fives []).world = some (7, world) ∧
      ∃ m', Executes plainPlatform done.code (fives []) m' ∧ m'.read done.value = 7 ∧
        m'.sp = 0x8000 ∧ (∀ s, busyState.held.contains s = true → m'.read s = (fives []).read s) ∧
        ∀ x, 2 ≤ ((fives []).sp - 1 - x).toNat → world.memory x = some (m'.memory x) := by
  have hfound : (countdown.program.items.any (·.isFunctionWith fun step => step.nodes.any fun e =>
      e.isCallFree && ((e.lower countdown.program.scopes).run busyState).isOk &&
      (e.evaluate (step.site countdown.program.scopes e 3 2 (by decide) plainPlatform (fives [])) 0
        (fives []).world).any fun result => result.1 == 7)) = true := by decide +kernel
  obtain ⟨item, hmem, hitem⟩ := List.any_eq_true.mp hfound
  obtain ⟨step, rfl, hstep⟩ := Item.isFunctionWith_eq_true.mp hitem
  obtain ⟨e, hnode, he⟩ := List.any_eq_true.mp hstep
  simp only [Bool.and_eq_true, Option.any_eq_true, beq_iff_eq] at he
  obtain ⟨⟨hcalls, hlowered⟩, ⟨value, world⟩, hvalue, rfl⟩ := he
  cases hdone : (e.lower countdown.program.scopes).run busyState with
  | error stop =>
      rw [hdone] at hlowered
      cases hlowered
  | ok done =>
      exact ⟨step, e, done, world, hmem, hnode, hcalls, busyState_conflictFree, hdone, hvalue,
        Program.expressions_evaluated countdown_read hmem hnode hcalls busyState_conflictFree
          done hdone plainPlatform (fives []) 7 world hvalue⟩

end AccumulatorC
