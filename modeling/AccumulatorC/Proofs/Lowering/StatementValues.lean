import AccumulatorC.Proofs.Lowering.ExpressionValues
import AccumulatorC.Proofs.Lowering.StatementStack
import AccumulatorC.Proofs.Program.Running

/-!
# The values of expressions in statements

Between statements a machine stays beside the world of the function with nothing but frames on
the stack. The steps of a statement follow the evaluation of its expressions: an initial value
comes to be in its slot, a tested one in the flags, and a returned one in the register of the
result.
-/

namespace AccumulatorC

open Lowering

/-! ## Testing -/

/-- A pair is zero when neither of its halves has a bit. -/
theorem word_eq_zero {high low : UInt8} : word high low = 0 ↔ high ||| low = 0 := by
  rw [← UInt16.toNat_inj, ← UInt8.toNat_inj, UInt8.toNat_or]
  have hword : (word high low).toNat = high.toNat * 256 + low.toNat := by
    have hhigh := high.toNat_lt
    have hlow := low.toNat_lt
    simp [word]
    omega
  simp only [hword, UInt16.toNat_zero, UInt8.toNat_zero, Nat.or_eq_zero_iff]
  omega

theorem Registers.read_eq_zero {r : Reg} (h : r.size = 2) (registers : Registers) :
    registers.read r = 0 ↔ cut 1 (registers.read r.high ||| registers.read r.low) = 0 := by
  have hcut : ∀ value : UInt16, cut 1 value = value.toUInt8.toUInt16 := by
    intro value
    rw [cut_one, ← word_mod (highByte value), word_highByte]
  rw [Registers.read_pair h, word_eq_zero, hcut, UInt16.toUInt8_or, ← UInt8.toUInt16_inj]
  rfl

/-- A comparison with zero changes nothing but the flags. -/
theorem Quiet.compareZero (platform : Platform) (m : Machine) :
    ∃ m', Quiet platform 0 [.instr (.accumulate .compare (.number 0))] (fun _ => True) m m' ∧
      m'.flags.equal = (m.read .a == 0) := by
  refine ⟨{ m with flags := ⟨m.read .a == 0, 0 < m.read .a⟩ }, ⟨.effect rfl, rfl, ?_⟩, rfl⟩
  exact ⟨rfl, rfl, fun _ _ => rfl, fun _ _ => rfl⟩

/-- A pair is compared with zero when its halves have been joined in the accumulator. -/
theorem Quiet.comparePair (platform : Platform) (m : Machine) {r : Reg} (h : r.size = 2) :
    ∃ m', Quiet platform 0 [.instr (.copy .a r.high), .instr (.accumulate .or (.reg r.low)),
        .instr (.accumulate .compare (.number 0))] (Reg.ApartFrom [.a]) m m' ∧
      m'.flags.equal = (m.read r == 0) := by
  let copied : Machine := m.write .a (m.read r.high)
  let joined : Machine := { copied.write .a (copied.read .a ||| copied.read r.low) with
    flags := platform.flags (.accumulate .or (.reg r.low)) copied }
  have hjoin : Quiet platform 0 [.instr (.accumulate .or (.reg r.low))] (Reg.ApartFrom [.a]) copied
      joined := .write rfl rfl
  obtain ⟨m', hquiet, hflag⟩ := Quiet.compareZero platform joined
  refine ⟨m', (Quiet.copy platform 0 m .a r.high).append (hjoin.append
    (hquiet.mono (Nat.le_refl 0) fun _ _ => trivial)), ?_⟩
  have hhigh : copied.read .a = m.read r.high :=
    Registers.read_copy .a r.high (Reg.size_high r) m.registers
  have hlow : copied.read r.low = m.read r.low :=
    Registers.read_write_of_apart (Reg.a_apart_of_ne (Reg.halves_ne_a h).2) _ _
  have hread : joined.read .a = cut 1 (m.read r.high ||| m.read r.low) := by
    rw [← hhigh, ← hlow]
    exact Registers.read_write_self copied.registers .a _
  rw [hflag, hread, Bool.eq_iff_iff, beq_iff_eq, beq_iff_eq]
  exact (Registers.read_eq_zero h m.registers).symm

/-- The flag that a comparison with zero leaves tells whether a register has the value zero. -/
theorem Frame.compareZero_quiet {r : Reg} {state : LowerState} {value : UInt16} :
    Ensures (Frame.compareZero r) state fun _ code _ =>
      ∀ (platform : Platform) (m : Machine), m.read r = value →
        ∃ m', Quiet platform 1 code (fun s => state.held.contains s = true) m m' ∧
          m'.flags.equal = (value == 0) := by
  -- In the accumulator the value is compared; elsewhere it is brought there first.
  have hthrough : ∀ step : Lowering Unit,
      (∀ inner, Ensures step inner fun _ code _ => ∀ (platform : Platform) (m : Machine),
        m.read r = value → ∃ m', Quiet platform 0 code (Reg.ApartFrom [.a]) m m' ∧
          m'.flags.equal = (value == 0)) → r ≠ .a →
      Ensures (preservingAccumulator step) state fun _ code _ =>
        ∀ (platform : Platform) (m : Machine), m.read r = value →
          ∃ m', Quiet platform 1 code (fun s => state.held.contains s = true) m m' ∧
            m'.flags.equal = (value == 0) := by
    intro step hstep hr
    refine (preservingAccumulator_quiet (fun m => m.read r = value)
      (fun m => m.flags.equal = (value == 0)) (by decide) (fun _ _ hm => hm) (fun _ hm => hm)
      fun inner _ => hstep inner).mono ?_
    intro _ code _ hcode platform m hm
    obtain ⟨m', hquiet, hflag⟩ := hcode platform m hm
    refine ⟨m', hquiet.mono (Nat.le_refl 1) fun s hs => ?_, hflag⟩
    by_cases ha : s = .a
    · exact .inl ⟨ha, ha ▸ hs⟩
    · exact .inr (by simpa using Reg.a_apart_of_ne ha)
  unfold Frame.compareZero
  split
  next high low hhalves =>
    obtain ⟨hsize, rfl, rfl⟩ := Reg.eq_of_halves hhalves
    refine hthrough _ (fun inner => ?_) (by rintro rfl; cases hsize)
    simp only [ensures_bind, ensures_emit]
    intro platform m hm
    rw [← hm]
    exact Quiet.comparePair platform m hsize
  next hhalves =>
    have hsize := (Reg.halves_eq_none_iff r).mp hhalves
    rw [ensures_ite]
    constructor
    · rintro rfl
      rw [ensures_emit]
      intro platform m hm
      obtain ⟨m', hquiet, hflag⟩ := Quiet.compareZero platform m
      exact ⟨m', hquiet.mono (Nat.zero_le 1) fun _ _ => trivial, by rw [hflag, hm]⟩
    · refine hthrough _ fun inner => ?_
      simp only [ensures_bind, ensures_emit]
      intro platform m hm
      obtain ⟨m', hquiet, hflag⟩ := Quiet.compareZero platform (m.write .a (m.read r))
      refine ⟨m', (Quiet.copy platform 0 m .a r).append (hquiet.mono (Nat.le_refl 0)
        fun _ _ => trivial), ?_⟩
      have hread : (m.write .a (m.read r)).read .a = m.read r :=
        Registers.read_copy .a r hsize m.registers
      rw [hflag, hread, hm]

/-! ## Expressions between frames -/

namespace Activation

variable {a : Activation} {scope : ScopeId}

/-- The machine is in the state of a world with nothing on the stack but the frames around a
scope. -/
def Beside (a : Activation) (scope : ScopeId) (world : World) (m : Machine) : Prop :=
  (a.site scope).Mirrors (a.height scope) world m

/-- There is room on the stack for the expressions in every scope of the function that runs. -/
theorem fits (h : a.outer ∈ a.frame.scopes.chain scope) :
    (a.site scope).Fits (a.height scope) where
  used_le := Nat.le_refl _
  le_room := by
    have hle : a.height scope + 2 ≤ a.room := Nat.add_le_add_right (Scopes.frames_le_deepest h) 2
    simp only [site]
    split
    · exact hle
    · simp [addressLimit]

/-- The code of a step follows a calculation, whose strings are numbered from the number on that
the step finds, and leaves something about the value in the machine. -/
def Realizes {α : Type} (a : Activation) (scope : ScopeId) (step : Lowering Unit)
    (calculation : Nat → Evaluation α) (leaves : α → Machine → Prop) : Prop :=
  ∀ state : LowerState, state.held.ConflictFree → state.depth = 0 →
    Ensures step state fun _ code _ => ∀ (world world' : World) (m : Machine) (value : α),
      a.Beside scope world m → calculation (state.labels.count .string) world = some (value, world') →
      ∃ m', (a.site scope).Tracks (a.height scope) code (fun _ => False) world m world' m' ∧
        leaves value m'

theorem Realizes.map {α β : Type} {step : Lowering Unit} {calculation : Nat → Evaluation α}
    {leaves : α → Machine → Prop} {leaves' : β → Machine → Prop}
    (h : a.Realizes scope step calculation leaves) (f : α → β)
    (hleaves : ∀ value m, leaves value m → leaves' (f value) m) :
    a.Realizes scope step (fun n => do return f (← calculation n)) leaves' := by
  intro state hfree hdepth
  refine (h state hfree hdepth).mono ?_
  intro _ code _ hcode world world' m value hbeside hvalue
  simp only [Evaluation.bind_eq_some, Evaluation.pure_eq_some] at hvalue
  obtain ⟨given, after, hgiven, hpair⟩ := hvalue
  obtain ⟨rfl, rfl⟩ := Prod.mk.inj hpair
  obtain ⟨m', htracks, hgiven'⟩ := hcode world after m given hbeside hgiven
  exact ⟨m', htracks, hleaves given m' hgiven'⟩

section Steps

variable (hnested : a.frame.Nested a.outer) (houter : a.outer ∈ a.frame.scopes.chain scope)
include hnested houter

theorem lowersAlong {e : Expr} (h : e.WellFormed a.frame.scopes scope) :
    (a.site scope).LowersAlong scope e :=
  Site.lowersAlong h fun symbol offset hvisible hstorage =>
    hnested.scopes.local_inside hnested.root houter symbol offset hvisible hstorage

omit hnested in
/-- The value of an expression is left in a register when nothing is pushed. -/
theorem tracks_of_lowers {e : Expr} {f : UInt16 → UInt16} {state lowered : LowerState} {r : Reg}
    {code : List Line} (h : e.WellFormed a.frame.scopes scope) (hcalls : e.isCallFree = true)
    (hlowers : (a.site scope).Lowers scope e f state r code lowered) (hdepth : state.depth = 0)
    {world world' : World} {m : Machine} {value : UInt16} (hbeside : a.Beside scope world m)
    (hvalue : e.valueIn a (state.labels.count .string) world = some (value, world')) :
    ∃ m', (a.site scope).Tracks (a.height scope) code (fun _ => False) world m world' m' ∧
      m'.read r = f value := by
  have hheight : (a.site scope).height scope state = a.height scope := by
    rw [Site.height, hdepth]
    rfl
  have hfollows := hlowers.follows
  rw [hheight] at hfollows
  rw [Expr.valueIn, h.note_scope] at hvalue
  obtain ⟨m', htracks, hread⟩ :=
    hfollows world world' m value (fits houter) (by simp [hcalls]) hbeside hvalue
  exact ⟨m', htracks.mono fun _ => False.elim, hread⟩

/-- An initial value comes to be in the slot of its variable. -/
theorem setInitial_realizes {declared : Declaration}
    (hvisible : a.frame.scopes.Visible scope declared.symbol)
    (hinitial : ∀ value, declared.initial = some value →
      value.WellFormed a.frame.scopes scope ∧ declared.symbol.type.Accepts value.type)
    (hcalls : ∀ value, declared.initial = some value → value.isCallFree = true) :
    a.Realizes scope (a.frame.setInitial declared) (declared.run a) fun _ _ => True := by
  intro state hfree hdepth
  cases hvalue : declared.initial with
  | none =>
      rw [Frame.setInitial, hvalue, ensures_pure]
      intro world world' m _ hbeside hrun
      simp only [Declaration.run, hvalue, Evaluation.pure_eq_some] at hrun
      cases hrun
      exact ⟨m, .nil _ hbeside, trivial⟩
  | some value =>
      obtain ⟨hwf, haccepts⟩ := hinitial value hvalue
      have hsize := Ty.size_of_isScalar haccepts.isScalar.1
      have halong := (lowersAlong hnested houter hwf).coerce hwf hsize hfree
      have hplaces := fun state : LowerState => @Site.address_places (a.site scope) scope _ hvisible
        (fun offset => hnested.scopes.local_inside hnested.root houter _ offset hvisible) state
      simp only [Frame.setInitial, hvalue, ensures_bind, ensures_free, hwf.note_scope]
      refine halong.mono ?_
      intro r code lowered hcoerced
      refine hcoerced.mono ?_
      rintro r' code' coerced ⟨hrsize, hlowers⟩
      refine (hplaces coerced).mono ?_
      rintro address _ _ ⟨rfl, rfl, hdirect, hplace⟩
      have hclear : ∀ s, ClearOf address s := fun s pair heq => absurd heq (hdirect pair)
      refine (store_executes (fun pair heq => absurd heq (hdirect pair)) (hclear r')).mono ?_
      intro _ storeCode _ hstore world world' m _ hbeside hrun
      simp only [Declaration.run, hvalue, Evaluation.bind_eq_some] at hrun
      obtain ⟨v, middle, hv, hrun⟩ := hrun
      obtain ⟨m₁, htracks, hread⟩ := tracks_of_lowers houter hwf (hcalls value hvalue) hlowers hdepth
        hbeside hv
      have hstored : (a.site scope).store declared.symbol.type.size
          ((a.site scope).place declared.symbol) (cut declared.symbol.type.size v) middle =
            some ((), world') := by
        rw [← hwf.note_scope]
        exact hrun
      have hlocate : address.locate (a.site scope).platform m₁ =
          (a.site scope).place declared.symbol := by
        refine hplace m₁ ?_
        rw [htracks.mirrors.sp, Site.height, hlowers.depth, hdepth]
        rfl
      obtain ⟨m₂, htracks'⟩ := Site.Tracks.of_storing (fits houter) htracks.mirrors hstored hrsize
        hread hlocate (hstore a.platform m₁)
      refine ⟨m₂, ?_, trivial⟩
      have hwhole := htracks.append (htracks'.mono fun s _ => hclear s)
      simpa using hwhole

theorem discard_realizes {value : Expr} (h : value.WellFormed a.frame.scopes scope)
    (hcalls : value.isCallFree = true) :
    a.Realizes scope (a.frame.discard value) (value.valueIn a) fun _ _ => True := by
  intro state hfree hdepth
  have hevaluate : a.frame.evaluate value = some <$> value.lower a.frame.scopes := by
    cases value with
    | call => simp [Expr.isCallFree, Expr.nodes, Expr.isCall] at hcalls
    | _ => rfl
  rw [Frame.discard_eq, hevaluate, ensures_bind, ensures_map]
  refine ((lowersAlong hnested houter h).lowers h hfree).mono ?_
  rintro r code lowered ⟨-, hlowers⟩
  rw [Frame.giveBack, ensures_free, List.append_nil]
  intro world world' m v hbeside hvalue
  obtain ⟨m', htracks, -⟩ := tracks_of_lowers houter h hcalls hlowers hdepth hbeside hvalue
  exact ⟨m', htracks, trivial⟩

/-- A test leaves in the flags whether a value is zero. -/
theorem test_realizes {condition : Expr} (h : condition.WellFormed a.frame.scopes scope)
    (hcalls : condition.isCallFree = true) :
    a.Realizes scope (a.frame.test condition) (condition.valueIn a)
      fun v m => m.flags.equal = (v == 0) := by
  intro state hfree hdepth
  simp only [Frame.test_eq, ensures_bind, ensures_free, List.append_nil]
  refine ((lowersAlong hnested houter h).lowers h hfree).mono ?_
  rintro r code lowered ⟨-, hlowers⟩ done hdone world world' m v hbeside hvalue
  obtain ⟨m₁, htracks, hread⟩ := tracks_of_lowers houter h hcalls hlowers hdepth hbeside hvalue
  obtain ⟨m₂, hquiet, hflag⟩ := Frame.compareZero_quiet.apply hdone a.platform m₁ hread
  have htracks' := Site.Tracks.of_quiet (by decide) (fits houter) htracks.mirrors hquiet
  exact ⟨m₂, htracks.append (htracks'.mono fun _ => False.elim), hflag⟩

/-- A returned value is left where the caller expects it, at the size of the result. -/
theorem leaveResult_realizes {value : Expr} (h : value.WellFormed a.frame.scopes scope)
    (hsize : a.frame.resultSize = 1 ∨ a.frame.resultSize = 2) (hcalls : value.isCallFree = true) :
    a.Realizes scope (a.frame.leaveResult value) (value.valueIn a)
      fun v m => m.read (.result a.frame.resultSize) = cut a.frame.resultSize v := by
  intro state hfree hdepth
  have hresult : (Reg.result a.frame.resultSize).size = a.frame.resultSize := by
    rcases hsize with hsize | hsize <;> rw [hsize] <;> rfl
  simp only [Frame.leaveResult, ensures_bind]
  refine ((lowersAlong hnested houter h).coerce h hsize hfree).mono ?_
  intro r code lowered hcoerced
  refine hcoerced.mono ?_
  rintro r' code' coerced ⟨hrsize, hlowers⟩
  rw [ensures_ite]
  constructor
  · intro _
    simp only [ensures_bind, ensures_emit, ensures_free]
    intro world world' m v hbeside hvalue
    obtain ⟨m', htracks, hread⟩ := tracks_of_lowers houter h hcalls hlowers hdepth hbeside hvalue
    have hcopy : (Instr.copy (.result a.frame.resultSize) r').effect a.platform m' =
        some (m'.write (.result a.frame.resultSize) (m'.read r')) := rfl
    have hcopied := Site.Tracks.of_effect htracks.mirrors hcopy rfl
    refine ⟨_, by simpa using htracks.append (hcopied.mono fun _ => False.elim), ?_⟩
    rw [← hread]
    exact Registers.read_copy _ r' (hrsize.trans hresult.symm) m'.registers
  · intro hsame
    rw [ensures_free]
    intro world world' m v hbeside hvalue
    obtain ⟨m', htracks, hread⟩ := tracks_of_lowers houter h hcalls hlowers hdepth hbeside hvalue
    rw [← not_not.mp hsame, List.append_nil]
    exact ⟨m', htracks, hread⟩

/-- A returned value is left in the register of results. -/
theorem leaveValue_realizes {result : Ty} (hresult : a.frame.resultSize = result.size)
    {value : Option Expr}
    (h : ∀ given, value = some given →
      given.WellFormed a.frame.scopes scope ∧ result.Accepts given.type)
    (hcalls : ∀ given, value = some given → given.isCallFree = true) :
    a.Realizes scope (a.frame.leaveValue value) (a.result · value) fun returned m =>
      ∀ v, returned = some v → m.read (.result a.frame.resultSize) = v := by
  cases value with
  | none =>
      intro state _ _
      rw [Frame.leaveValue, ensures_pure]
      intro world world' m returned hbeside hrun
      simp only [Activation.result, Evaluation.pure_eq_some] at hrun
      cases hrun
      exact ⟨m, .nil _ hbeside, by rintro _ ⟨⟩⟩
  | some given =>
      obtain ⟨hwf, haccepts⟩ := h given rfl
      have hsize := Ty.size_of_isScalar haccepts.isScalar.1
      rw [← hresult] at hsize
      refine (leaveResult_realizes hnested houter hwf hsize (hcalls given rfl)).map _ ?_
      rintro v m hread _ ⟨⟩
      exact hread

end Steps

/-! ## Frames -/

/-- The bytes of the frames come after those that are not on the stack. -/
theorem level_eq (hheight : a.height scope < addressLimit) (x : UInt16) :
    (a.site scope).level x =
      if a.height scope ≤ a.below x then a.below x else a.below x + addressLimit := by
  have hbelow : a.below x < addressLimit := UInt16.toNat_lt _
  have hdistance : (a.site scope).start - 1 - x = a.entry - 1 - x - .ofNat (a.height scope) := by
    simp only [Site.start, site]
    grind
  have hused : (a.site scope).used = a.height scope := rfl
  have hofNat : (UInt16.ofNat (a.height scope)).toNat = a.height scope :=
    UInt16.toNat_ofNat_of_lt' hheight
  unfold below at hbelow ⊢
  rw [Site.level, hused, hdistance, UInt16.toNat_sub, hofNat]
  simp only [addressLimit] at hbelow hheight ⊢
  split <;> omega

/-- Memory can be touched when the stack fits into it: the frames, and all that is not kept. -/
theorem site_open (h : a.outer ∈ a.frame.scopes.chain scope) {x : UInt16} :
    (a.site scope).Open x ↔
      a.room ≤ addressLimit ∧ (a.below x < a.height scope ∨ a.room ≤ a.below x) := by
  have hle : a.height scope + 2 ≤ a.room := Nat.add_le_add_right (Scopes.frames_le_deepest h) 2
  by_cases hfits : a.room ≤ addressLimit
  · have hroom : (a.site scope).room = a.room := if_pos hfits
    rw [Site.Open, hroom, level_eq (by omega)]
    split <;> omega
  · have hroom : (a.site scope).room = a.height scope + addressLimit := if_neg hfits
    have hlevel : (a.site scope).level x < a.height scope + addressLimit := Site.level_lt x
    rw [Site.Open, hroom]
    omega

/-- A machine whose stack has been lowered by the frame of a block that is entered. -/
theorem Beside.enter {inner : ScopeId} {world : World} {m m' : Machine} (h : a.Beside scope world m)
    (houter : a.outer ∈ a.frame.scopes.chain scope)
    (hinner : a.outer ∈ a.frame.scopes.chain inner)
    (hheight : a.height inner = a.frame.scopes.frameOf inner + a.height scope)
    (hmoves : m.Moves m' (m.sp - .ofNat (a.frame.scopes.frameOf inner))) :
    a.Beside inner (a.enter inner world) m' where
  sp := by
    rw [hmoves.sp, h.sp, hheight, UInt16.ofNat_add]
    simp only [site]
    grind
  memory x byte hopen hbyte := by
    simp only [Activation.enter] at hbyte
    split at hbyte
    next => cases hbyte
    next hframe =>
      rw [hmoves.memory]
      refine h.memory x byte ?_ hbyte
      rw [site_open hinner] at hopen
      rw [site_open houter]
      simp only [InFrame] at hframe
      omega
  outcomes := hmoves.outcomes.trans h.outcomes

/-- A machine whose stack has been raised by the frames of scopes that are left. -/
theorem Beside.leave {inner : ScopeId} {bytes : Nat} {world : World} {m m' : Machine}
    (h : a.Beside inner world m) (houter : a.outer ∈ a.frame.scopes.chain scope)
    (hinner : a.outer ∈ a.frame.scopes.chain inner)
    (hheight : a.height inner = bytes + a.height scope)
    (hmoves : m.Moves m' (m.sp + .ofNat bytes)) : a.Beside scope world m' where
  sp := by
    rw [hmoves.sp, h.sp, hheight, UInt16.ofNat_add]
    simp only [site]
    grind
  memory x byte hopen hbyte := by
    rw [hmoves.memory]
    refine h.memory x byte ?_ hbyte
    rw [site_open houter] at hopen
    rw [site_open hinner]
    omega
  outcomes := hmoves.outcomes.trans h.outcomes

/-- Entering a block takes no value from the bytes that are not kept for the stack. -/
theorem known_enter {inner : ScopeId} (hinner : a.outer ∈ a.frame.scopes.chain inner) {x : UInt16}
    (hx : a.room ≤ a.below x) (world : World) : (a.enter inner world).memory x = world.memory x := by
  have hle : a.height inner + 2 ≤ a.room := Nat.add_le_add_right (Scopes.frames_le_deepest hinner) 2
  refine if_neg fun hframe => ?_
  simp only [InFrame] at hframe
  omega

end Activation

end AccumulatorC
