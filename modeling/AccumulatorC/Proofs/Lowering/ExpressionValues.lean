import AccumulatorC.Proofs.Lowering.CallValues

/-!
# The values of lowered expressions

The code of a well-formed expression follows its evaluation: the value is left in the register
that was taken for it, memory is as evaluation leaves it, and all registers that were in use and
all bytes that were pushed are as before.
-/

namespace AccumulatorC

open Lowering

namespace Site

variable {site : Site} {scope : ScopeId} {depth : Nat}

/-! ## Places -/

/-- A name stands for the place of its symbol, at the present depth. -/
theorem address_places {symbol : Symbol} (hvisible : site.scopes.Visible scope symbol)
    (hlocal : ∀ offset, symbol.storage = .framed offset →
      site.outer ∈ site.scopes.chain symbol.scope) (state : LowerState) :
    Ensures (site.scopes.address symbol scope) state fun address code after =>
      code = [] ∧ after = state ∧ (∀ pair, address ≠ .indirect pair) ∧
        ∀ m : Machine, m.sp = site.entry - .ofNat (site.height scope state) →
          address.locate site.platform m = site.place symbol := by
  refine Scopes.address_ensures.mono ?_
  rintro address _ _ ⟨rfl, rfl, haddress⟩
  refine ⟨rfl, rfl, ?_, fun m hsp => locate_eq_place hvisible hlocal hsp haddress⟩
  rintro pair rfl
  rcases haddress with ⟨_, -, h⟩ | ⟨-, h⟩ <;> cases h

/-- A register that is loaded has the value that evaluation fetches. -/
theorem Tracks.of_load {code : List Line} {kept : Reg → Prop} {world world' : World} {m : Machine}
    {address : Address} {r : Reg} {size : Nat} {x value : UInt16} (hfits : site.Fits depth)
    (hmirrors : site.Mirrors depth world m)
    (hfetch : site.fetch size x world = some (value, world')) (hsize : r.size = 2 ↔ size = 2)
    (hx : address.locate site.platform m = x)
    (hcode : Delivers site.platform 0 code kept m r
      (valueAt m.memory r.size (address.locate site.platform m))) :
    ∃ m', site.Tracks depth code kept world m world' m' ∧ m'.read r = value := by
  obtain ⟨hallows, hknown, rfl⟩ := fetch_eq_some hfetch
  obtain ⟨m', htracks, hread⟩ := Tracks.of_delivers (Nat.zero_le 2) hfits hmirrors hcode
  refine ⟨m', htracks, ?_⟩
  have hsame : valueAt m.memory r.size x = valueAt m.memory size x := by
    simp only [valueAt, hsize]
  rw [hread, hx, hsame]
  exact hmirrors.valueAt_eq hallows hknown

/-- An address is put into the pair that was taken for it. -/
theorem Tracks.of_taking {held : RegSet} {r : Reg} {after : LowerState} {world : World}
    {m : Machine} {i : Instr} {value : UInt16} (hholds : Holds held r after) (hsize : r.size = 2)
    (hmirrors : site.Mirrors depth world m)
    (h : i.effect site.platform m = some (m.write r value)) (hrise : i.rise = 0) :
    ∃ m', site.Tracks depth [.instr i] (fun s => held.contains s = true) world m world m' ∧
      m'.read r = value := by
  refine ⟨_, (Tracks.of_effect hmirrors h hrise).mono fun s hs =>
    RegSet.apartFrom_of_isFree hholds.isFree hs, ?_⟩
  rw [Machine.read, Machine.write, Registers.read_write_self, hsize, cut_two]

/-! ## Expressions without operands -/

/-- A number is loaded into the register that is allocated for it. -/
theorem number_lowersAlong {note : Note} {value : UInt16}
    (h : (Expr.number note value).WellFormed site.scopes scope) :
    site.LowersAlong scope (.number note value) := by
  have htype : note.type = .char ∧ value ≤ 0xff ∨ note.type = .int := by
    cases h
    assumption
  have hsize : note.type.size = 1 ∨ note.type.size = 2 := by
    rcases htype with ⟨hchar, -⟩ | hint
    · exact .inl (by rw [hchar]; rfl)
    · exact .inr (by rw [hint]; rfl)
  have hcut : cut note.type.size value = value := by
    rcases htype with ⟨hchar, hle⟩ | hint
    · rw [hchar]
      apply UInt16.toNat_inj.mp
      rw [UInt16.le_iff_toNat_le] at hle
      show (cut 1 value).toNat = value.toNat
      rw [toNat_cut_one]
      exact Nat.mod_eq_of_lt (Nat.lt_succ_of_le hle)
    · rw [hint]
      rfl
  refine .of_visit (by rw [Expr.lower]) fun state _ => ?_
  refine (number_delivers hsize value).mono ?_
  intro r code _ hcode world world' m result hfits _ hmirrors hresult
  rw [Expr.evaluate, Evaluation.pure_eq_some] at hresult
  cases hresult
  rw [hcut] at hcode
  exact Tracks.of_delivers (Nat.zero_le 2) hfits hmirrors (hcode site.platform m)

/-- A string leaves the address of its data, which stands in the code and is jumped over. -/
theorem string_lowersAlong (note : Note) (bytes : List UInt8) :
    site.LowersAlong scope (.string note bytes) := by
  refine .of_visit (by rw [Expr.lower]) fun state hfree => ?_
  simp only [ensures_bind, ensures_emit, ensures_pure]
  refine (stringData_quiet true bytes state).mono ?_
  rintro label code middle ⟨rfl, hheld, hquiet⟩
  refine (allocate_holds (Nat.le_refl 2) (by rw [hheld]; exact hfree)).mono ?_
  rintro r _ after ⟨rfl, hholds, hsize⟩ world world' m value hfits _ hmirrors hvalue
  rw [Expr.evaluate, Evaluation.pure_eq_some] at hvalue
  cases hvalue
  have hdata := Tracks.of_quiet (Nat.zero_le 2) hfits hmirrors (hquiet site.platform m)
  obtain ⟨m', htracks, hread⟩ := Tracks.of_taking
    (i := .setLabel r (.string true (state.labels.count .string))) hholds (hsize.mpr rfl) hmirrors
    rfl rfl
  rw [hheld] at htracks
  exact ⟨m', (hdata.mono fun _ _ => trivial).append htracks, hread⟩

/-- A name is loaded from its place. -/
theorem name_lowersAlong {note : Note} {symbol : Symbol}
    (h : (Expr.name note symbol).WellFormed site.scopes scope)
    (hlocal : ∀ offset, symbol.storage = .framed offset →
      site.outer ∈ site.scopes.chain symbol.scope) :
    site.LowersAlong scope (.name note symbol) := by
  obtain ⟨hscope, -, hvisible⟩ := h.of_name
  refine .of_visit (by rw [Expr.lower]) fun state hfree => ?_
  simp only [ensures_bind, ensures_pure, hscope]
  refine (address_places hvisible hlocal state).mono ?_
  rintro address _ _ ⟨rfl, rfl, hdirect, hplace⟩
  refine (allocate_holds note.type.size_le_two hfree).mono ?_
  rintro r _ taken ⟨rfl, hholds, hsize⟩
  refine (load_delivers (fun pair heq => absurd heq (hdirect pair))
    (fun pair heq => absurd heq (hdirect pair))).mono ?_
  intro _ code _ hload world world' m value hfits _ hmirrors hvalue
  rw [Expr.evaluate] at hvalue
  simp only [List.nil_append, List.append_nil]
  obtain ⟨m', htracks, hread⟩ :=
    Tracks.of_load hfits hmirrors hvalue hsize (hplace m hmirrors.sp) (hload site.platform m)
  refine ⟨m', htracks.mono fun s hs => ?_, hread⟩
  exact ⟨RegSet.isFree_iff.mp hholds.isFree s hs, fun pair heq => absurd heq (hdirect pair)⟩

/-- The address of a name is that of its place. -/
theorem addressName_lowersAlong {note inner : Note} {symbol : Symbol}
    (h : (Expr.name inner symbol).WellFormed site.scopes scope)
    (hlocal : ∀ offset, symbol.storage = .framed offset →
      site.outer ∈ site.scopes.chain symbol.scope) :
    site.LowersAlong scope (.unary note .addressOf (.name inner symbol)) := by
  obtain ⟨hscope, -, hvisible⟩ := h.of_name
  refine .of_visit (by rw [Expr.lower]) fun state hfree => ?_
  simp only [ensures_bind, ensures_emit, ensures_pure, hscope]
  refine (address_places hvisible hlocal state).mono ?_
  rintro address _ _ ⟨rfl, rfl, -, hplace⟩
  refine (allocate_holds (Nat.le_refl 2) hfree).mono ?_
  rintro r _ taken ⟨rfl, hholds, hsize⟩ world world' m value hfits _ hmirrors hvalue
  rw [Expr.evaluate, Evaluation.pure_eq_some] at hvalue
  cases hvalue
  have heffect : (Instr.setAddress r address).effect site.platform m =
      some (m.write r (site.place symbol)) := by
    rw [← hplace m hmirrors.sp]
    rfl
  exact Tracks.of_taking hholds (hsize.mpr rfl) hmirrors heffect rfl

/-! ## One operand -/

/-- What stands behind a pointer is loaded from where the pointer leads. -/
theorem deref_lowersAlong {note : Note} {operand : Expr}
    (h : (Expr.unary note .deref operand).WellFormed site.scopes scope)
    (halong : site.LowersAlong scope operand) :
    site.LowersAlong scope (.unary note .deref operand) := by
  obtain ⟨-, htype, hoperand⟩ := h.of_deref
  refine .of_visit (by rw [Expr.lower]) fun state hfree => ?_
  simp only [ensures_bind, ensures_pure, ensures_free]
  refine (halong.lowers hoperand hfree).mono ?_
  rintro pair code pointed ⟨hpairSize, hlowers⟩
  replace hpairSize : pair.size = 2 := by
    rw [htype] at hpairSize
    exact hpairSize rfl
  refine (allocate_holds note.type.size_le_two hlowers.holds.held_conflictFree).mono ?_
  rintro r _ taken ⟨rfl, hholds, hsize⟩
  have hfree' := RegSet.isFree_iff.mp hholds.isFree
  have hclear : ClearOf (.indirect pair) r := by
    rintro _ ⟨⟩
    rw [Reg.overlaps_comm]
    exact hfree' pair hlowers.holds.contains
  have hpairs : ∀ other, Address.indirect pair = .indirect other → other.size = 2 := by
    rintro _ ⟨⟩
    exact hpairSize
  refine (load_delivers hpairs hclear).mono ?_
  intro _ loadCode _ hload world world' m value hfits hcalls hmirrors hvalue
  simp only [List.nil_append, List.append_nil] at hcalls ⊢
  rw [Expr.evaluate, Evaluation.bind_eq_some] at hvalue
  obtain ⟨x, middle, hx, hfetch⟩ := hvalue
  have hreach := reach_le_append code loadCode
  obtain ⟨m₁, htracks, hread⟩ := hlowers.follows world middle m x hfits
    (CanCall.of_whole hcalls (List.subset_cons_self _ _) (by omega)) hmirrors hx
  have hx' : (Address.indirect pair).locate site.platform m₁ = x := hread
  obtain ⟨m₂, htracks', hread'⟩ :=
    Tracks.of_load hfits htracks.mirrors hfetch hsize hx' (hload site.platform m₁)
  refine ⟨m₂, htracks.append (htracks'.mono fun s hs => ⟨?_, ?_⟩), hread'⟩
  · refine hfree' s ?_
    rw [hlowers.holds.held, RegSet.contains_insert, hs, Bool.or_true]
  · rintro _ ⟨⟩
    exact RegSet.isFree_iff.mp hlowers.holds.isFree s hs

/-- The address of what stands behind a pointer is the pointer. -/
theorem addressDeref_lowersAlong {note inner : Note} {pointer : Expr}
    (hpointer : pointer.WellFormed site.scopes scope) (halong : site.LowersAlong scope pointer) :
    site.LowersAlong scope (.unary note .addressOf (.unary inner .deref pointer)) := by
  refine .of_visit (by rw [Expr.lower]) fun state hfree => ?_
  refine (halong.lowers hpointer hfree).mono ?_
  rintro r code after ⟨-, hlowers⟩ world world' m value hfits hcalls hmirrors hvalue
  rw [Expr.evaluate] at hvalue
  have hpart : pointer.nodes ⊆
      (Expr.unary note .addressOf (.unary inner .deref pointer)).nodes := by
    intro node hnode
    simp only [Expr.nodes, List.mem_cons]
    exact .inr (.inr hnode)
  exact hlowers.follows world world' m value hfits (CanCall.of_whole hcalls hpart (Nat.le_refl _))
    hmirrors hvalue

/-- A code calculates with the value of an operand. -/
theorem Follows.calculate {n : Nat} {operand whole : Expr} {f : UInt16 → UInt16} {held : RegSet}
    {r r' : Reg} {code rest : List Line} (h : site.Follows depth n operand id held r code)
    (hpart : operand.nodes ⊆ whole.nodes)
    (hevaluate : whole.evaluate site n = do return f (← operand.evaluate site n))
    (hrest : ∀ m, Delivers site.platform 2 rest (fun s => held.contains s = true) m r'
      (f (m.read r))) :
    site.Follows depth n whole id held r' (code ++ rest) := by
  refine h.deliver hpart (fun world world' value hvalue => ?_) hrest
  rw [hevaluate, Evaluation.bind_eq_some] at hvalue
  obtain ⟨given, middle, hgiven, hvalue⟩ := hvalue
  rw [Evaluation.pure_eq_some] at hvalue
  cases hvalue
  exact ⟨given, hgiven, rfl⟩

/-- A value is stepped in the register that it is left in. -/
theorem stepped_follows {operand whole : Expr} {step : Reg → Instr} {f : UInt16 → UInt16}
    (hoperand : operand.WellFormed site.scopes scope) (hvoid : operand.type.isVoid = false)
    (halong : site.LowersAlong scope operand) (hpart : operand.nodes ⊆ whole.nodes)
    (hevaluate : ∀ n, whole.evaluate site n = do return f (← operand.evaluate site n))
    (hdeliver : ∀ (r : Reg) (lowered : LowerState), r.size = operand.type.size →
      Ensures (stepBy step r operand.type.stride) lowered fun _ code _ =>
        ∀ (platform : Platform) (m : Machine),
          Delivers platform 0 code (Reg.ApartFrom [r]) m r (f (m.read r)))
    {state : LowerState} (hfree : state.held.ConflictFree) :
    Ensures (do
      let r ← operand.lower site.scopes
      stepBy step r operand.type.stride
      return r) state fun r code _ =>
      site.Follows (site.height scope state) (state.labels.count .string) whole id state.held r
        code := by
  simp only [ensures_bind, ensures_pure, List.append_nil]
  refine (halong.lowers hoperand hfree).mono ?_
  rintro r code lowered ⟨hsize, hlowers⟩
  refine (hdeliver r lowered (hsize hvoid)).mono ?_
  intro _ stepCode _ hcode
  exact hlowers.follows.calculate hpart (hevaluate _) fun m =>
    (hcode site.platform m).mono (Nat.zero_le 2) fun s hs =>
      RegSet.apartFrom_of_isFree hlowers.holds.isFree hs

/-- Operators that keep the type of their operand calculate with its value. -/
theorem keeping_lowersAlong {note : Note} {op : UnaryOp} {operand : Expr}
    (hop : op.keepsType = true) (hoperand : operand.WellFormed site.scopes scope)
    (hvoid : operand.type.isVoid = false) (halong : site.LowersAlong scope operand) :
    site.LowersAlong scope (.unary note op operand) := by
  have hpart : operand.nodes ⊆ (Expr.unary note op operand).nodes := List.subset_cons_self _ _
  cases op with
  | addressOf => cases hop
  | deref => cases hop
  | plus =>
      refine .of_visit (by rw [Expr.lower]) fun state hfree => ?_
      refine (halong.lowers hoperand hfree).mono ?_
      rintro r code after ⟨-, hlowers⟩ world world' m value hfits hcalls hmirrors hvalue
      rw [Expr.evaluate] at hvalue
      exact hlowers.follows world world' m value hfits
        (CanCall.of_whole hcalls hpart (Nat.le_refl _)) hmirrors hvalue
  | negate =>
      refine .of_visit (by rw [Expr.lower]) fun state hfree => ?_
      rw [ensures_bind]
      refine (halong.lowers hoperand hfree).mono ?_
      rintro r code lowered ⟨hsize, hlowers⟩
      refine (negate_delivers hlowers.holds).mono ?_
      intro r' negateCode _ hcode
      rw [hsize hvoid] at hcode
      exact hlowers.follows.calculate (f := fun v => cut operand.type.size (0 - v)) hpart
        (by rw [Expr.evaluate]) (hcode site.platform)
  | increment =>
      refine .of_visit (by rw [Expr.lower]) fun state hfree => ?_
      refine stepped_follows hoperand hvoid halong hpart (fun n => by rw [Expr.evaluate])
        (fun r lowered hsize => ?_) hfree
      rw [← hsize]
      exact increments_deliver r _ lowered
  | decrement =>
      refine .of_visit (by rw [Expr.lower]) fun state hfree => ?_
      refine stepped_follows hoperand hvoid halong hpart (fun n => by rw [Expr.evaluate])
        (fun r lowered hsize => ?_) hfree
      rw [← hsize]
      exact decrements_deliver r _ lowered

/-! ## Two operands -/

/-- What is in use before an expression is lowered is in use besides its register. -/
theorem Lowers.contains {e : Expr} {f : UInt16 → UInt16} {state after : LowerState} {r s : Reg}
    {code : List Line} (h : site.Lowers scope e f state r code after)
    (hs : state.held.contains s = true) : after.held.contains s = true := by
  rw [h.holds.held, RegSet.contains_insert, hs, Bool.or_true]

/-- Moving to another place changes nothing. -/
theorem Lowers.visit {e : Expr} {f : UInt16 → UInt16} {state after : LowerState} {r : Reg}
    {code : List Line} (h : site.Lowers scope e f state r code after) (location : Location) :
    site.Lowers scope e f state r code { after with here := location } where
  holds := ⟨h.holds.held, h.holds.isFree, h.holds.conflictFree⟩
  depth := h.depth
  strings := h.strings
  follows := h.follows

/-- So many bytes are on the stack after an expression as before it. -/
theorem Lowers.height_eq {e : Expr} {f : UInt16 → UInt16} {state after : LowerState} {r : Reg}
    {code : List Line} (h : site.Lowers scope e f state r code after) :
    site.height scope after = site.height scope state := by
  simp only [height, h.depth]

/-- An operator leaves what it gives for the values of its operands. -/
theorem binary_lowersAlong {note : Note} {op : BinaryOp} {left right : Expr}
    (hcombines : left.type.Combines right.type note.type)
    (hleft : left.WellFormed site.scopes scope) (hright : right.WellFormed site.scopes scope)
    (hleftAlong : site.LowersAlong scope left) (hrightAlong : site.LowersAlong scope right) :
    site.LowersAlong scope (.binary note op left right) := by
  have hsize := Ty.size_of_isScalar hcombines.isScalar.2.2
  refine .of_visit (by rw [Expr.lower]) fun state hfree => ?_
  simp only [ensures_bind]
  refine (hleftAlong.coerce hleft hsize hfree).mono ?_
  intro l code first hcoerced
  refine hcoerced.mono ?_
  rintro l' code' second ⟨hlsize, hlowers⟩
  refine (hrightAlong.coerce hright hsize hlowers.holds.held_conflictFree).mono ?_
  intro r rightCode third hcoerced'
  refine hcoerced'.mono ?_
  rintro r' rightCode' fourth ⟨hrsize, hlowers'⟩
  have hoperands := BothHeld.of_holds hlowers.holds hlowers'.holds hlsize hrsize
  refine ((operate_computes op hsize hoperands).and
    (operate_replaces hoperands.rightHeld)).mono ?_
  rintro result opCode _ ⟨hcode, hsame, -, -⟩ world world' m value hfits hcalls hmirrors hvalue
  rw [hsame]
  have hparts : code ++ (code' ++ (rightCode ++ (rightCode' ++ opCode))) =
      (code ++ code') ++ ((rightCode ++ rightCode') ++ opCode) := by simp
  rw [hparts] at hcalls ⊢
  rw [Expr.evaluate, Evaluation.bind_eq_some] at hvalue
  obtain ⟨lv, middle, hlv, hvalue⟩ := hvalue
  rw [Evaluation.bind_eq_some] at hvalue
  obtain ⟨rv, last, hrv, hvalue⟩ := hvalue
  obtain ⟨folded, hfolded, hpair⟩ := Option.map_eq_some_iff.mp hvalue
  obtain ⟨rfl, rfl⟩ := Prod.mk.inj hpair
  have hreach := reach_le_append (code ++ code') ((rightCode ++ rightCode') ++ opCode)
  obtain ⟨m₁, htracks, hread⟩ := hlowers.follows world middle m lv hfits
    (CanCall.of_whole hcalls
      (fun node hnode => List.mem_cons_of_mem _ (List.mem_append_left _ hnode)) (by omega))
    hmirrors hlv
  -- The left value is in use while the right operand is lowered.
  have hafter := reach_le_after htracks.rise ((rightCode ++ rightCode') ++ opCode)
  have hreach' := reach_le_append (rightCode ++ rightCode') opCode
  have hright' := hlowers'.follows
  rw [hlowers.height_eq, hlowers.strings] at hright'
  obtain ⟨m₂, htracks', hread'⟩ := hright' middle last m₁ rv hfits
    (CanCall.of_whole hcalls
      (fun node hnode => List.mem_cons_of_mem _ (List.mem_append_right _ hnode)) (by omega))
    htracks.mirrors hrv
  have hleftRead : m₂.read l' = cut note.type.size lv :=
    (htracks'.registers l' hlowers.holds.contains).trans hread
  obtain ⟨m₃, htracks'', hread''⟩ := Tracks.of_delivers (Nat.le_refl 2) hfits htracks'.mirrors
    (hcode site.platform m₂ folded (by
      show Option.map _ (op.fold _ (m₂.read l') (m₂.read r')) = _
      rw [hleftRead, hread']
      exact hfolded))
  refine ⟨m₃, htracks.append ((htracks'.mono fun s hs => hlowers.contains hs).append
    (htracks''.mono fun s hs => hlowers.holds.besides hlowers'.holds hs)), hread''⟩

/-! ## Assignments -/

/-- A register is stored where evaluation stores its value. -/
theorem Tracks.of_storing {code : List Line} {address : Address} {r : Reg} {world world' : World}
    {m : Machine} {size : Nat} {x value : UInt16} (hfits : site.Fits depth)
    (hmirrors : site.Mirrors depth world m)
    (hstored : site.store size x value world = some ((), world')) (hsize : r.size = size)
    (hread : m.read r = value) (hx : address.locate site.platform m = x)
    (hcode : ∃ after, Executes site.platform code m after ∧ netRise code = 0 ∧
      after.sp = m.sp ∧ after.outcomes = m.outcomes ∧
      after.memory = storeAt m.memory r.size (address.locate site.platform m) (m.read r) ∧
      ∀ s, ClearOf address s → after.read s = m.read s) :
    ∃ m', site.Tracks depth code (ClearOf address) world m world' m' := by
  obtain ⟨m', hexecutes, hrise, hsp, houtcomes, hmemory, hregisters⟩ := hcode
  rw [hsize, hread, hx] at hmemory
  exact ⟨m', .of_store hfits hmirrors hstored hexecutes hrise hsp houtcomes hmemory hregisters⟩

/-- A value is stored in the place of a name. -/
theorem assignName_lowersAlong {note inner : Note} {symbol : Symbol} {value : Expr}
    (h : (Expr.assign note (.name inner symbol) value).WellFormed site.scopes scope)
    (hlocal : ∀ offset, symbol.storage = .framed offset →
      site.outer ∈ site.scopes.chain symbol.scope)
    (halong : site.LowersAlong scope value) :
    site.LowersAlong scope (.assign note (.name inner symbol) value) := by
  obtain ⟨haccepts, htarget, hvalue⟩ : inner.type.Accepts value.type ∧
      (Expr.name inner symbol).WellFormed site.scopes scope ∧
      value.WellFormed site.scopes scope := by
    cases h
    exact ⟨by assumption, by assumption, by assumption⟩
  obtain ⟨hscope, -, hvisible⟩ := htarget.of_name
  have hsize := Ty.size_of_isScalar haccepts.isScalar.1
  refine .of_visit (by rw [Expr.lower]) fun state hfree => ?_
  simp only [ensures_bind, ensures_visit, ensures_pure, hscope]
  refine (halong.coerce hvalue hsize hfree).mono ?_
  intro r code lowered hcoerced
  refine hcoerced.mono ?_
  rintro r' code' coerced ⟨hrsize, hlowers⟩
  replace hlowers := hlowers.visit (Expr.name inner symbol).location
  refine (address_places hvisible hlocal _).mono ?_
  rintro address _ _ ⟨rfl, rfl, hdirect, hplace⟩
  rw [hlowers.height_eq] at hplace
  have hclear : ∀ s, ClearOf address s := fun s pair heq => absurd heq (hdirect pair)
  refine (store_executes (fun pair heq => absurd heq (hdirect pair)) (hclear r')).mono ?_
  intro _ storeCode _ hstore world world' m result hfits hcalls hmirrors hresult
  have hparts : code ++ (code' ++ ([] ++ ([] ++ (storeCode ++ [])))) =
      (code ++ code') ++ storeCode := by simp
  rw [hparts] at hcalls ⊢
  rw [Expr.evaluate, Evaluation.bind_eq_some] at hresult
  obtain ⟨v, middle, hv, hresult⟩ := hresult
  simp only [Evaluation.bind_eq_some, Evaluation.pure_eq_some] at hresult
  obtain ⟨_, stored, hstored, hpair⟩ := hresult
  obtain ⟨rfl, rfl⟩ := Prod.mk.inj hpair
  have hreach := reach_le_append (code ++ code') storeCode
  obtain ⟨m₁, htracks, hread⟩ := hlowers.follows world middle m v hfits
    (CanCall.of_whole hcalls
      (fun node hnode => List.mem_cons_of_mem _ (List.mem_append_right _ hnode)) (by omega))
    hmirrors hv
  obtain ⟨m₂, htracks'⟩ := Tracks.of_storing hfits htracks.mirrors hstored hrsize hread
    (hplace m₁ htracks.mirrors.sp) (hstore site.platform m₁)
  exact ⟨m₂, htracks.append (htracks'.mono fun s _ => hclear s),
    (htracks'.registers r' (hclear r')).trans hread⟩

/-- A value is stored where a pointer leads, which is evaluated after the value. -/
theorem assignDeref_lowersAlong {note inner : Note} {pointer value : Expr}
    (h : (Expr.assign note (.unary inner .deref pointer) value).WellFormed site.scopes scope)
    (hvalueAlong : site.LowersAlong scope value) (hpointerAlong : site.LowersAlong scope pointer) :
    site.LowersAlong scope (.assign note (.unary inner .deref pointer) value) := by
  obtain ⟨haccepts, htarget, hvalue⟩ : inner.type.Accepts value.type ∧
      (Expr.unary inner .deref pointer).WellFormed site.scopes scope ∧
      value.WellFormed site.scopes scope := by
    cases h
    exact ⟨by assumption, by assumption, by assumption⟩
  obtain ⟨-, htype, hpointer⟩ := htarget.of_deref
  have hsize := Ty.size_of_isScalar haccepts.isScalar.1
  refine .of_visit (by rw [Expr.lower]) fun state hfree => ?_
  simp only [ensures_bind, ensures_visit, ensures_pure, ensures_free]
  refine (hvalueAlong.coerce hvalue hsize hfree).mono ?_
  intro r code lowered hcoerced
  refine hcoerced.mono ?_
  rintro r' code' coerced ⟨hrsize, hlowers⟩
  replace hlowers := hlowers.visit (Expr.unary inner .deref pointer).location
  refine (hpointerAlong.lowers hpointer hlowers.holds.held_conflictFree).mono ?_
  rintro pair pairCode pointed ⟨hpairSize, hlowers'⟩
  replace hpairSize : pair.size = 2 := by
    rw [htype] at hpairSize
    exact hpairSize rfl
  have hclear : ∀ s, coerced.held.contains s = true → ClearOf (.indirect pair) s := by
    rintro s hs _ ⟨⟩
    exact RegSet.isFree_iff.mp hlowers'.holds.isFree s hs
  have hpairs : ∀ other, Address.indirect pair = .indirect other → other.size = 2 := by
    rintro _ ⟨⟩
    exact hpairSize
  refine (store_executes hpairs (hclear r' hlowers.holds.contains)).mono ?_
  intro _ storeCode _ hstore world world' m result hfits hcalls hmirrors hresult
  have hparts : code ++ (code' ++ ([] ++ (pairCode ++ (storeCode ++ ([] ++ []))))) =
      (code ++ code') ++ (pairCode ++ storeCode) := by simp
  rw [hparts] at hcalls ⊢
  rw [Expr.evaluate, Evaluation.bind_eq_some] at hresult
  obtain ⟨v, middle, hv, hresult⟩ := hresult
  simp only [Evaluation.bind_eq_some, Evaluation.pure_eq_some] at hresult
  obtain ⟨x, last, hx, _, stored, hstored, hpair⟩ := hresult
  obtain ⟨rfl, rfl⟩ := Prod.mk.inj hpair
  have hreach := reach_le_append (code ++ code') (pairCode ++ storeCode)
  obtain ⟨m₁, htracks, hread⟩ := hlowers.follows world middle m v hfits
    (CanCall.of_whole hcalls
      (fun node hnode => List.mem_cons_of_mem _ (List.mem_append_right _ hnode)) (by omega))
    hmirrors hv
  -- The value is in use while the pointer is lowered.
  have hafter := reach_le_after htracks.rise (pairCode ++ storeCode)
  have hreach' := reach_le_append pairCode storeCode
  have hpart : pointer.nodes ⊆
      (Expr.assign note (.unary inner .deref pointer) value).nodes := fun node hnode =>
    List.mem_cons_of_mem _ (List.mem_append_left _ (List.mem_cons_of_mem _ hnode))
  have hfollows := hlowers'.follows
  rw [hlowers.height_eq, hlowers.strings] at hfollows
  obtain ⟨m₂, htracks', hread'⟩ := hfollows middle last m₁ x hfits
    (CanCall.of_whole hcalls hpart (by omega)) htracks.mirrors hx
  have hkept := (htracks'.registers r' hlowers.holds.contains).trans hread
  have hx' : (Address.indirect pair).locate site.platform m₂ = x := hread'
  obtain ⟨m₃, htracks''⟩ := Tracks.of_storing hfits htracks'.mirrors hstored hrsize hkept hx'
    (hstore site.platform m₂)
  refine ⟨m₃, htracks.append ((htracks'.mono fun s hs => hlowers.contains hs).append
    (htracks''.mono fun s hs => hclear s (hlowers.contains hs))), ?_⟩
  exact (htracks''.registers r' (hclear r' hlowers.holds.contains)).trans hkept

/-! ## Calls -/

/-- A call leaves what the function returns, with every register as its caller had it. -/
theorem call_lowersAlong {note : Note} {function : Symbol} {arguments : List Expr}
    (h : (Expr.call note function arguments).WellFormed site.scopes scope)
    (halong : ∀ argument ∈ arguments, site.LowersAlong scope argument) :
    site.LowersAlong scope (.call note function arguments) := by
  refine .of_visit (Expr.lower_call ..) fun state hfree => ?_
  rw [ensures_bind]
  refine (lowerCall_calls h halong hfree).mono ?_
  intro result code after hcall
  cases result with
  | none => exact ensures_fail
  | some r =>
      simp only [ensures_pure, List.append_nil]
      intro world world' m value hfits hcalls hmirrors hvalue
      have hnotFree : (Expr.call note function arguments).isCallFree = false := by
        simp [Expr.isCallFree, Expr.nodes, Expr.isCall]
      obtain ⟨m', hcalled⟩ := hcall world world' m value hfits (hcalls hnotFree) hmirrors hvalue
      exact ⟨m', hcalled.tracks, hcalled.value r rfl⟩

/-! ## Every expression -/

/-- The code of a well-formed expression follows its evaluation. -/
theorem lowersAlong {e : Expr} (h : e.WellFormed site.scopes scope)
    (hlocal : ∀ (symbol : Symbol) (offset : Nat), site.scopes.Visible scope symbol →
      symbol.storage = .framed offset → site.outer ∈ site.scopes.chain symbol.scope) :
    site.LowersAlong scope e := by
  induction h using Expr.WellFormed.alongLowering with
  | number h => exact number_lowersAlong h
  | string => exact string_lowersAlong _ _
  | name h => exact name_lowersAlong h fun offset => hlocal _ offset h.of_name.2.2
  | @assignName note inner symbol value h _ ih =>
      have htarget : (Expr.name inner symbol).WellFormed site.scopes scope := by
        cases h
        assumption
      exact assignName_lowersAlong h (fun offset => hlocal _ offset htarget.of_name.2.2) ih
  | assignDeref h _ _ ihvalue ihpointer => exact assignDeref_lowersAlong h ihvalue ihpointer
  | binary h hleft hright ihleft ihright =>
      cases h with
      | binary _ _ hcombines => exact binary_lowersAlong hcombines hleft hright ihleft ihright
  | @addressName note inner symbol h =>
      have hoperand : (Expr.name inner symbol).WellFormed site.scopes scope := by
        cases h with
        | addressOf _ _ _ _ hoperand => exact hoperand
        | keeping hop => cases hop
      exact addressName_lowersAlong hoperand fun offset => hlocal _ offset hoperand.of_name.2.2
  | addressDeref _ hpointer ih => exact addressDeref_lowersAlong hpointer ih
  | deref h _ ih => exact deref_lowersAlong h ih
  | keeping _ hoperand hop _ hvoid ih => exact keeping_lowersAlong hop hoperand hvoid ih
  | call h _ ih => exact call_lowersAlong h ih

end Site

end AccumulatorC
