import AccumulatorC.Lowering.Unit
import AccumulatorC.Proofs.Lowering.Allocation
import AccumulatorC.Proofs.Lowering.Outcomes
import AccumulatorC.Proofs.Program.Nodes
import AccumulatorC.Proofs.Program.Unplaced

/-!
# How many registers an expression needs

An expression on bytes takes registers from the first one on, as a stack: its left operand takes the
next one, and its right operand is calculated above that. So how many registers it needs is found
from its shape, and it is lowered if and only if the machine has as many.
-/

namespace AccumulatorC

open Lowering

/-! ## Expressions on bytes -/

/-- Operators that are calculated in the accumulator by a single instruction or by a comparison. -/
def BinaryOp.isDirect : BinaryOp → Bool
  | .mul | .div | .shiftLeft | .shiftRight => false
  | _ => true

namespace Expr

/-- Expressions on bytes: character literals and variables, and what such operators make of them. -/
inductive OnBytes : Expr → Prop
  | number {note : Note} {value : UInt16} (htype : note.type = .char) : OnBytes (.number note value)
  | name {note : Note} {symbol : Symbol} (htype : note.type = .char) : OnBytes (.name note symbol)
  | binary {note : Note} {op : BinaryOp} {left right : Expr} (htype : note.type = .char)
      (hop : op.isDirect = true) (hleft : left.OnBytes) (hright : right.OnBytes) :
      OnBytes (.binary note op left right)

/-- How many registers an expression needs: the value of a left operand is kept while the right one
is calculated. -/
def registers : Expr → Nat
  | .binary _ _ left right => max left.registers (1 + right.registers)
  | _ => 1

/-- Whether an operator stands at the top. -/
def isBinary : Expr → Bool
  | .binary _ _ _ _ => true
  | _ => false

/-- Whether no right operand has operands itself. -/
def leansLeft : Expr → Bool
  | .binary _ _ left right => left.leansLeft && !right.isBinary
  | _ => true

theorem one_le_registers (e : Expr) : 1 ≤ e.registers := by
  cases e with
  | binary note op left right =>
      rw [registers]
      omega
  | _ => exact Nat.le_refl 1

theorem registers_of_not_binary {e : Expr} (h : e.isBinary = false) : e.registers = 1 := by
  cases e with
  | binary => cases h
  | _ => rfl

/-- Two registers are enough for a chain of operators, however long it is. -/
theorem OnBytes.registers_of_leansLeft {e : Expr} (he : e.OnBytes) (h : e.leansLeft = true) :
    e.registers ≤ 2 := by
  induction he with
  | number | name => exact Nat.le_succ 1
  | binary _ _ _ _ ih =>
      rw [leansLeft, Bool.and_eq_true, Bool.not_eq_true'] at h
      have hleft := ih h.1
      rw [registers, registers_of_not_binary h.2]
      omega

end Expr

/-! ## The registers below -/

namespace RegSet

/-- The first registers of the file. -/
def lowest (count : Nat) : RegSet := (Reg.file.take count).foldl insert empty

/-- How many registers hold a byte. -/
def byteRegisters : Nat := 5

/-- While there is a register above those in use, it is the one that is given out. -/
theorem firstFree_lowest {count : Nat} (h : count < byteRegisters) :
    ∃ r, Reg.file[count]? = some r ∧ (lowest count).firstFree 1 = some r ∧
      (lowest count).insert r = lowest (count + 1) ∧ r.size = 1 := by
  have hall : ∀ count < byteRegisters, ((Reg.file[count]?).any fun r =>
      (lowest count).firstFree 1 = some r ∧ (lowest count).insert r = lowest (count + 1) ∧
        r.size = 1) = true := by decide
  obtain ⟨r, hr, hholds⟩ := (Option.any_eq_true _ _).mp (hall count h)
  exact ⟨r, hr, of_decide_eq_true hholds⟩

theorem size_of_lowest {count : Nat} {r : Reg} (h : count < byteRegisters)
    (hr : Reg.file[count]? = some r) : r.size = 1 := by
  obtain ⟨found, hfound, -, -, hsize⟩ := firstFree_lowest h
  exact Option.some.inj (hfound.symm.trans hr) ▸ hsize

theorem firstFree_lowest_full : (lowest byteRegisters).firstFree 1 = none := by decide

/-- The register above another one is not the accumulator, and without it the lower ones are left. -/
theorem erase_lowest {count : Nat} {r : Reg} (h : count + 1 < byteRegisters)
    (hr : Reg.file[count + 1]? = some r) :
    (lowest (count + 2)).erase r = lowest (count + 1) ∧ (lowest (count + 2)).contains r = true ∧
      r ≠ .a := by
  have hall : ∀ count < byteRegisters - 1, ((Reg.file[count + 1]?).all fun r =>
      (lowest (count + 2)).erase r = lowest (count + 1) ∧
        (lowest (count + 2)).contains r = true ∧ r ≠ .a) = true := by decide
  have hown := hall count (by omega)
  rw [hr] at hown
  exact of_decide_eq_true hown

end RegSet

/-! ## Operations -/

namespace Lowering

variable {state : LowerState}

/-- What is done with the accumulator at its disposal is done when one more byte can be pushed. -/
theorem gives_preservingAccumulator {step : Lowering Unit} (hkeeps : Keeps step)
    (hstep : ∀ state, Gives step state fun _ _ => True) (hdepth : state.depth + 1 < addressLimit) :
    Gives (preservingAccumulator step) state fun _ _ => True := by
  have hall : ∀ state, Gives step state fun _ after =>
      after.held = state.held ∧ after.depth = state.depth :=
    fun state => (hstep state).ensured (hkeeps state)
  unfold preservingAccumulator
  rw [gives_bind, gives_claim]
  split
  · rw [gives_bind]
    exact (hstep _).mono fun _ _ _ => gives_free.mpr trivial
  · rw [gives_bind, gives_push]
    refine ⟨hdepth, ?_⟩
    rw [gives_bind]
    refine (hall _).mono fun _ after hafter => gives_pop.mpr ⟨?_, trivial⟩
    rw [hafter.2]
    exact Nat.le_add_left _ _

theorem gives_throughAccumulator {step : Lowering Unit} (hkeeps : Keeps step)
    (hstep : ∀ state, Gives step state fun _ _ => True) (hdepth : state.depth + 1 < addressLimit)
    (r : Reg) : Gives (throughAccumulator r step) state fun _ _ => True := by
  unfold throughAccumulator
  split
  · exact hstep state
  · refine gives_preservingAccumulator ((Keeps.emit _).bind (hkeeps.bind (Keeps.emit _))) ?_ hdepth
    intro state
    rw [gives_bind, gives_emit, gives_bind]
    exact (hstep state).mono fun _ _ _ => gives_emit.mpr trivial

/-- An operation is done when its right operand is not in the accumulator. -/
theorem gives_accumulate {left right : Reg} {step : Reg → Lowering Unit}
    (hkeeps : Keeps (step right)) (hstep : ∀ state, Gives (step right) state fun _ _ => True)
    (hdepth : state.depth + 1 < addressLimit) (hright : right ≠ .a) :
    Gives (accumulate left right step) state fun _ _ => True := by
  unfold accumulate
  rw [if_neg fun h => hright h.1]
  simp only [gives_bind, gives_pure, gives_free]
  exact (gives_throughAccumulator hkeeps hstep hdepth left).mono fun _ _ _ => trivial

/-- A byte is brought to its own size by doing nothing. -/
theorem coerce_lowest {count : Nat} {r : Reg} (h : count < RegSet.byteRegisters)
    (hr : Reg.file[count]? = some r) : coerce r 1 = pure r := by
  simp [coerce, RegSet.size_of_lowest h hr]

theorem gives_decideTruth (comparison : Comparison) (n : Nat) :
    Gives (decideTruth comparison n) state fun _ _ => True := by
  simp [decideTruth]

theorem gives_simple {op : AccumulatorOp} {left right : Reg}
    (hdepth : state.depth + 1 < addressLimit) (hright : right ≠ .a) :
    Gives (simple op left right) state fun _ _ => True :=
  gives_accumulate (Keeps.emit _) (fun _ => gives_emit.mpr trivial) hdepth hright

/-- An operator on bytes is done, and its result replaces its left operand. -/
theorem gives_operate {op : BinaryOp} {left right : Reg} (hop : op.isDirect = true)
    (hleft : left.size = 1) (hright : right ≠ .a) (hheld : state.held.contains right = true)
    (hdepth : state.depth + 1 < addressLimit) :
    Gives (operate op 1 left right) state fun r after =>
      r = left ∧ after.held = state.held.erase right ∧ after.depth = state.depth := by
  refine Gives.ensured ?_ (operate_replaces hheld)
  unfold operate
  split
  next comparison hcomparison =>
    rw [compare_eq, gives_bind, gives_newLabel, if_pos hleft]
    refine gives_accumulate (keeps_comparing _ _ _) (fun state => ?_) hdepth hright
    rw [comparing, gives_bind, gives_emit]
    exact gives_decideTruth _ _
  next hcomparison =>
    rw [if_neg (by decide)]
    cases op with
    | add | sub | and | or => exact gives_simple hdepth hright
    | mul | div | shiftLeft | shiftRight => cases hop
    | equal | notEqual | less | lessOrEqual | greater | greaterOrEqual => cases hcomparison

end Lowering

/-! ## Expressions -/

/-- A variable can be addressed while so many bytes are pushed. -/
def Scopes.Reaches (scopes : Scopes) (depth : Nat) (symbol : Symbol) (scope : ScopeId) : Prop :=
  ∃ place, scopes.stackOffset symbol scope = .ok place ∧
    ∀ offset, place = some offset → offset + depth < addressLimit

/-- A symbol within reach has an address. -/
theorem Scopes.Reaches.gives {scopes : Scopes} {symbol : Symbol} {scope : ScopeId}
    (state : LowerState) (h : scopes.Reaches state.depth symbol scope) :
    Gives (scopes.address symbol scope) state fun _ after => after = state := by
  obtain ⟨place, hplace, hfits⟩ := h
  unfold address
  rw [gives_bind, hplace, gives_lift]
  refine ⟨place, rfl, ?_⟩
  cases place with
  | none => exact gives_pure.mpr rfl
  | some offset =>
      rw [gives_bind, gives_get, gives_bind, gives_lift]
      exact ⟨_, if_pos (hfits offset rfl), gives_pure.mpr rfl⟩

/-- The bytes that are counted for an expression fit into the address space: all variables in it can
be addressed, and one more byte can be pushed. -/
structure Expr.Fits (e : Expr) (scopes : Scopes) (depth : Nat) : Prop where
  reaches : ∀ note symbol, .name note symbol ∈ e.nodes → scopes.Reaches depth symbol note.scope
  pushes : depth + 1 < addressLimit

namespace Expr

variable {scopes : Scopes} {depth : Nat}

theorem Fits.operands {note : Note} {op : BinaryOp} {left right : Expr}
    (h : (Expr.binary note op left right).Fits scopes depth) :
    left.Fits scopes depth ∧ right.Fits scopes depth := by
  have hleft : left.nodes ⊆ (Expr.binary note op left right).nodes :=
    List.subset_cons_of_subset _ (List.subset_append_left _ _)
  have hright : right.nodes ⊆ (Expr.binary note op left right).nodes :=
    List.subset_cons_of_subset _ (List.subset_append_right _ _)
  exact ⟨⟨fun note symbol hmem => h.reaches note symbol (hleft hmem), h.pushes⟩,
    ⟨fun note symbol hmem => h.reaches note symbol (hright hmem), h.pushes⟩⟩

/-- With so many registers in use, an expression takes the next one, if there are as many as it
needs above them. Otherwise it fails when all of them are in use. -/
def Takes (e : Expr) (scopes : Scopes) (depth count : Nat) : Prop :=
  ∀ state : LowerState, state.held = .lowest count → state.depth = depth →
    (count + e.registers ≤ RegSet.byteRegisters →
      Gives (e.lower scopes) state fun r after =>
        Reg.file[count]? = some r ∧ after.held = .lowest (count + 1) ∧ after.depth = depth) ∧
    (RegSet.byteRegisters < count + e.registers →
      Fails (e.lower scopes) state (.exhausted 1 (.lowest RegSet.byteRegisters)))

/-- A byte takes the next register, if there is one. -/
theorem allocate_outcome {count : Nat} (hcount : count ≤ RegSet.byteRegisters) (state : LowerState)
    (hheld : state.held = .lowest count) :
    (count + 1 ≤ RegSet.byteRegisters →
      Gives (allocate 1) state fun r after =>
        Reg.file[count]? = some r ∧ r.size = 1 ∧ after.held = .lowest (count + 1) ∧
          after.depth = state.depth) ∧
    (RegSet.byteRegisters < count + 1 →
      Fails (allocate 1) state (.exhausted 1 (.lowest RegSet.byteRegisters))) := by
  constructor
  · intro hfew
    obtain ⟨r, hr, hfirst, hinsert, hsize⟩ := RegSet.firstFree_lowest hfew
    rw [gives_allocate, hheld]
    exact ⟨r, hfirst, hr, hsize, hinsert, rfl⟩
  · intro hmany
    obtain rfl : count = RegSet.byteRegisters := by omega
    have hfull := RegSet.firstFree_lowest_full
    rw [← hheld] at hfull
    exact hheld ▸ Fails.allocate hfull

theorem takes_number {note : Note} {value : UInt16} (htype : note.type = .char) {count : Nat}
    (hcount : count ≤ RegSet.byteRegisters) : (Expr.number note value).Takes scopes depth count := by
  rintro state hheld rfl
  obtain ⟨hgives, hfails⟩ := allocate_outcome hcount { state with here := note.location } hheld
  unfold lower registers
  rw [htype]
  constructor
  · intro hfew
    rw [gives_bind, gives_visit, gives_bind]
    refine (hgives hfew).mono fun r after hafter => ?_
    rw [gives_bind, gives_emit, gives_pure]
    exact ⟨hafter.1, hafter.2.2⟩
  · intro hmany
    exact .visit ((hfails hmany).bind _)

theorem takes_name {note : Note} {symbol : Symbol} (htype : note.type = .char)
    (hfits : (Expr.name note symbol).Fits scopes depth) {count : Nat}
    (hcount : count ≤ RegSet.byteRegisters) : (Expr.name note symbol).Takes scopes depth count := by
  rintro state hheld rfl
  have hreach := Scopes.Reaches.gives { state with here := note.location }
    (hfits.reaches note symbol List.mem_cons_self)
  obtain ⟨hgives, hfails⟩ := allocate_outcome hcount { state with here := note.location } hheld
  unfold lower registers
  rw [htype]
  constructor
  · intro hfew
    rw [gives_bind, gives_visit, gives_bind]
    refine hreach.mono fun address middle hmiddle => ?_
    rw [hmiddle, gives_bind]
    refine (hgives hfew).mono fun r after hafter => ?_
    have hhalves : r.halves = none := by
      cases r <;> first | rfl | cases hafter.2.1
    rw [gives_bind, load, hhalves, gives_emit, gives_pure]
    exact ⟨hafter.1, hafter.2.2⟩
  · intro hmany
    refine .visit (.after hreach fun address middle hmiddle => ?_)
    rw [hmiddle]
    exact (hfails hmany).bind _

/-- The right operand is calculated with one more register in use, that of the left one. -/
theorem takes_binary {note : Note} {op : BinaryOp} {left right : Expr} (htype : note.type = .char)
    (hop : op.isDirect = true) {count : Nat} (hpushes : depth + 1 < addressLimit)
    (hleft : left.Takes scopes depth count)
    (hright : count + 1 ≤ RegSet.byteRegisters → right.Takes scopes depth (count + 1)) :
    (Expr.binary note op left right).Takes scopes depth count := by
  rintro state hheld rfl
  obtain ⟨hgives, hfails⟩ := hleft { state with here := note.location } hheld rfl
  have hone := left.one_le_registers
  have htwo := right.one_le_registers
  have hbyte : note.type.size = 1 := by
    rw [htype]
    rfl
  unfold lower
  rw [hbyte, registers]
  constructor
  · intro hfew
    rw [gives_bind, gives_visit, gives_bind]
    refine (hgives (by omega)).mono fun l middle hmiddle => ?_
    obtain ⟨hl, hheld, hdepth⟩ := hmiddle
    rw [coerce_lowest (by omega) hl, gives_bind, gives_pure, gives_bind]
    refine ((hright (by omega) middle hheld hdepth).1 (by omega)).mono fun r last hlast => ?_
    obtain ⟨hr, hheld, hdepth⟩ := hlast
    obtain ⟨herase, hcontains, hne⟩ := RegSet.erase_lowest (by omega) hr
    rw [coerce_lowest (by omega) hr, gives_bind, gives_pure]
    have hsize := RegSet.size_of_lowest (by omega) hl
    refine (gives_operate hop hsize hne (hheld ▸ hcontains) (hdepth ▸ hpushes)).mono ?_
    rintro value after ⟨rfl, hafter, hsame⟩
    exact ⟨hl, by rw [hafter, hheld, herase], hsame.trans hdepth⟩
  · intro hmany
    refine .visit ?_
    by_cases hfew : count + left.registers ≤ RegSet.byteRegisters
    · refine .after (hgives hfew) fun l middle hmiddle => ?_
      obtain ⟨hl, hheld, hdepth⟩ := hmiddle
      rw [coerce_lowest (by omega) hl, pure_bind]
      exact ((hright (by omega) middle hheld hdepth).2 (by omega)).bind _
    · exact (hfails (by omega)).bind _

/-- An expression on bytes takes the next register, if there are as many as it needs. -/
theorem OnBytes.takes {e : Expr} (h : e.OnBytes) (hfits : e.Fits scopes depth) {count : Nat}
    (hcount : count ≤ RegSet.byteRegisters) : e.Takes scopes depth count := by
  induction h generalizing count with
  | number htype => exact takes_number htype hcount
  | name htype => exact takes_name htype hfits hcount
  | binary htype hop _ _ ihleft ihright =>
      obtain ⟨hleft, hright⟩ := hfits.operands
      exact takes_binary htype hop hfits.pushes (ihleft hleft hcount) fun hmore => ihright hright hmore

/-- Whether an expression is lowered is found from the registers that it needs: there are five, and
when these are not enough all of them are in use. -/
def LoweredByNeed (e : Expr) (scopes : Scopes) (state : LowerState) : Prop :=
  ((∃ done, (e.lower scopes).run state = .ok done) ↔ e.registers ≤ 5) ∧
    (5 < e.registers → ∃ here, (e.lower scopes).run state =
      .error (.diagnosis ⟨.exhausted 1 ⟨true, true, true, true, true, false, false⟩, here⟩))

/-- An expression on bytes is lowered from the first register on if and only if it needs no more
registers than there are, as long as no byte count leaves the address space. So a chain of operators
is always lowered, however long it is. -/
theorem lowered_iff_registers (scopes : Scopes) (state : LowerState) {e : Expr} (h : e.OnBytes)
    (hheld : state.held = .empty) (hfits : e.Fits scopes state.depth) :
    e.LoweredByNeed scopes state ∧
      (e.leansLeft = true → ∃ done, (e.lower scopes).run state = .ok done) := by
  obtain ⟨hgives, hfails⟩ := h.takes hfits (Nat.zero_le _) state hheld rfl
  rw [Nat.zero_add] at hgives hfails
  have hfew : e.registers ≤ 5 → ∃ done, (e.lower scopes).run state = .ok done := by
    intro hfew
    obtain ⟨done, hdone, -⟩ := hgives hfew
    exact ⟨done, hdone⟩
  refine ⟨⟨⟨?_, hfew⟩, hfails⟩, fun hleft => hfew (by have := h.registers_of_leansLeft hleft; omega)⟩
  rintro ⟨done, hdone⟩
  by_contra hmany
  obtain ⟨here, hrun⟩ := hfails (Nat.lt_of_not_le hmany)
  cases hdone.symm.trans hrun

/-- The first five registers, as they are named in a message. -/
example : (LowerError.exhausted 1 (.lowest RegSet.byteRegisters)).message =
    "Register exhaustion: no free register of 1 bytes (held: a, b, c, d, e)" := by decide +kernel

/-- A variable at a label. -/
def flag : Symbol := ⟨"flag", nowhere, .char, .labelled, globalScope⟩

/-- What the parts of such expressions carry. -/
def byteNote : Note := ⟨.char, globalScope, false, nowhere⟩

/-- Sums inside of sums, each one as the right operand of the next. -/
def nestedSum : Nat → Expr
  | 0 => .name byteNote flag
  | depth + 1 => .binary byteNote .add (.name byteNote flag) (nestedSum depth)

theorem nestedSum_onBytes (depth : Nat) : (nestedSum depth).OnBytes := by
  induction depth with
  | zero => exact .name rfl
  | succ depth ih => exact .binary rfl rfl (.name rfl) ih

/-- What is at a label is addressed however many bytes are pushed. -/
theorem nestedSum_reaches (depth pushed : Nat) : ∀ note symbol,
    .name note symbol ∈ (nestedSum depth).nodes →
      Scopes.initial.Reaches pushed symbol note.scope := by
  have hflag : Scopes.initial.Reaches pushed flag byteNote.scope := ⟨none, rfl, nofun⟩
  induction depth with
  | zero =>
      intro note symbol hmem
      cases List.mem_singleton.mp hmem
      exact hflag
  | succ depth ih =>
      intro note symbol hmem
      rcases List.mem_cons.mp hmem with hmem | hmem
      · cases hmem
      rcases List.mem_append.mp hmem with hmem | hmem
      · cases List.mem_singleton.mp hmem
        exact hflag
      · exact ih note symbol hmem

theorem nestedSum_fits (depth : Nat) : (nestedSum depth).Fits .initial 0 :=
  ⟨nestedSum_reaches depth 0, by decide⟩

theorem nestedSum_lowered_iff :
    LowerState.initial.held = .empty ∧ (nestedSum 5).OnBytes ∧ (nestedSum 5).Fits .initial 0 ∧
      (nestedSum 5).LoweredByNeed .initial .initial ∧
      ((nestedSum 5).leansLeft = true →
        ∃ done, ((nestedSum 5).lower .initial).run .initial = .ok done) :=
  ⟨rfl, nestedSum_onBytes 5, nestedSum_fits 5,
    lowered_iff_registers .initial .initial (nestedSum_onBytes 5) rfl (nestedSum_fits 5)⟩

/-- A variable in a scope around one whose frame takes all bytes but the last one. -/
def distant : Symbol := ⟨"distant", nowhere, .char, .framed 0, 2⟩

/-- The scopes around a use of this variable. -/
def distantScopes : Scopes :=
  ⟨[⟨none, [], 0⟩, ⟨some globalScope, [], 2⟩, ⟨some 1, [distant], 1⟩, ⟨some 2, [], 65535⟩]⟩

/-- The state when so many bytes are pushed that no other one can be counted. -/
def pushedState : LowerState := { LowerState.initial with depth := 65535 }

/-- A variable needs a single register, but it may have no address. If all variables have one, there
may still be no room for the accumulator, which is pushed while a sum is calculated elsewhere. -/
theorem not_lowered_beyond_addresses :
    (¬∀ (scopes : Scopes) (state : LowerState) (e : Expr), e.OnBytes → state.held = .empty →
      e.LoweredByNeed scopes state) ∧
    ¬∀ (scopes : Scopes) (state : LowerState) (e : Expr), e.OnBytes → state.held = .empty →
      (∀ note symbol, .name note symbol ∈ e.nodes →
        scopes.Reaches state.depth symbol note.scope) → e.LoweredByNeed scopes state := by
  constructor
  · intro h
    have hfar : distantScopes.stackOffset distant 3 = .error .overflow := by decide +kernel
    have hneed := h distantScopes .initial (.name ⟨.char, 3, false, nowhere⟩ distant) (.name rfl) rfl
    obtain ⟨done, hdone⟩ := hneed.1.mpr (Nat.succ_le_succ (Nat.zero_le 4))
    rw [lower, Scopes.address, hfar] at hdone
    cases hdone
  · intro h
    have hneed := h .initial pushedState (nestedSum 2) (nestedSum_onBytes 2) rfl
      (nestedSum_reaches 2 _)
    obtain ⟨done, hdone⟩ := hneed.1.mpr (by decide)
    have hnot : (((nestedSum 2).lower .initial).run pushedState).isOk = false := by decide +kernel
    rw [hdone] at hnot
    cases hnot

end Expr

end AccumulatorC
