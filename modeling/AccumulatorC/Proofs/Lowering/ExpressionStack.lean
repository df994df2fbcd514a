import Mathlib.Data.List.Forall2
import AccumulatorC.Proofs.Lowering.StackLevel
import AccumulatorC.Proofs.Program.Accesses

/-!
# The stack along the code of an expression

Whatever is pushed when an expression is lowered, its code leaves the stack as it was, and every
stack operand in it is the byte of a local that the expression addresses at that point: the count
of pushed bytes is the real one.
-/

namespace AccumulatorC

open Lowering

/-- An operand is the byte of an access. Counted from the stack pointer before the frames inside
`outer`, it lies in the slot of the symbol, above everything that is pushed besides frames. -/
structure Access.At (scopes : Scopes) (outer : ScopeId) (access : Access)
    (operand : Nat × Shape) : Prop where
  distance : ∃ distance : Nat,
    scopes.stackOffset access.symbol access.scope = .ok (some distance) ∧
    (operand.1 : Int) - (operand.2.sum : Nat) =
      distance - scopes.frames access.scope outer + access.byte
  slot : (operand.1 : Int) - (operand.2.sum : Nat) = scopes.slot outer access.symbol + access.byte
  above : ∃ temporaries, operand.2 = temporaries ++ scopes.frameShape access.scope outer ∧
    temporaries.sum ≤ operand.1

/-- A code takes one shape of the stack to another and addresses bytes of locals in order. -/
def Addresses (scopes : Scopes) (outer : ScopeId) (around : LabelShapes) (first : Shape)
    (code : List Line) (second : Shape) (accesses : List Access) : Prop :=
  ∃ operands, Level around first code second operands ∧
    List.Forall₂ (Access.At scopes outer) accesses operands

namespace Addresses

variable {scopes : Scopes} {outer : ScopeId} {around : LabelShapes}
  {first second third : Shape} {code rest : List Line} {accesses others : List Access}

theorem append (h : Addresses scopes outer around first code second accesses)
    (h' : Addresses scopes outer around second rest third others) :
    Addresses scopes outer around first (code ++ rest) third (accesses ++ others) := by
  obtain ⟨operands, hlevel, hoperands⟩ := h
  obtain ⟨operands', hlevel', hoperands'⟩ := h'
  exact ⟨_, hlevel.append hlevel', List.rel_append hoperands hoperands'⟩

/-- Code without stack operands. -/
theorem of_level (h : Level around first code second []) :
    Addresses scopes outer around first code second [] := ⟨[], h, .nil⟩

theorem of_even (h : Even code) : Addresses scopes outer around first code first [] :=
  of_level ((h first).of_nil around)

theorem nil : Addresses scopes outer around first [] first [] := of_level (.nil around first)

theorem then_even (h : Addresses scopes outer around first code second accesses)
    (heven : Even rest) : Addresses scopes outer around first (code ++ rest) second accesses := by
  have happend := h.append (of_even heven)
  rwa [List.append_nil] at happend

theorem even_then (heven : Even code)
    (h : Addresses scopes outer around first rest second accesses) :
    Addresses scopes outer around first (code ++ rest) second accesses :=
  (of_even heven).append h

theorem of_nil (h : Addresses scopes outer [] first code second accesses) :
    Addresses scopes outer around first code second accesses := by
  obtain ⟨operands, hlevel, hoperands⟩ := h
  exact ⟨operands, hlevel.of_nil around, hoperands⟩

theorem pushes {registers : List Reg} :
    Addresses scopes outer around first (registers.map fun r => .instr (.push r))
      ((registers.map Reg.size).reverse ++ first) [] := by
  induction registers generalizing first with
  | nil => exact nil
  | cons r registers ih =>
      have hpush : Addresses scopes outer around first [.instr (.push r)] (r.size :: first) [] :=
        of_level (.instr .push rfl)
      have hrest := hpush.append ih
      rw [List.map_cons, List.map_cons, List.reverse_cons, List.append_assoc]
      exact hrest

theorem pops {registers : List Reg} :
    Addresses scopes outer around (registers.map Reg.size ++ first)
      (registers.map fun r => .instr (.pop r)) first [] := by
  induction registers with
  | nil => exact nil
  | cons r registers ih =>
      have hpop : Addresses scopes outer around (r.size :: (registers.map Reg.size ++ first))
          [.instr (.pop r)] (registers.map Reg.size ++ first) [] := of_level (.instr .pop rfl)
      exact hpop.append ih

/-- What was put on the stack is taken off, by one instruction if there is anything. -/
theorem release {top : Shape} (hpos : ∀ size ∈ top, 0 < size) :
    Addresses scopes outer around (top ++ first)
      (if top.sum > 0 then [.instr (.release top.sum)] else []) first [] := by
  split
  · exact of_level (.instr (.release hpos) rfl)
  next hzero =>
    have hnil : top = [] := by
      cases top with
      | nil => rfl
      | cons size top =>
          have := hpos size List.mem_cons_self
          rw [List.sum_cons] at hzero
          omega
    rw [hnil]
    exact nil

end Addresses

/-! ## Operands in memory -/

/-- The stack operands of steps that address some bytes from an address on. -/
def Address.operands (address : Address) (bytes : Nat) (shape : Shape) : Operands :=
  match address with
  | .stack offset => (List.range bytes).map fun byte => (offset + byte, shape)
  | .label _ _ | .indirect _ => []

namespace Lowering

variable {state : LowerState} {address : Address} {shape : Shape}

/-- An instruction with a memory operand, which stands on the stack or does not. -/
theorem level_operand {i : Instr} (hstack : ∀ offset, address = .stack offset →
      i.stackOperand? = some offset)
    (hplain : (∀ offset, address ≠ .stack offset) → i.isPlain = true) :
    Level [] shape [.instr i] shape (address.operands 1 shape) := by
  cases address with
  | stack offset =>
      have hoperand := hstack offset rfl
      have h : Level [] shape [.instr i] shape ((Line.instr i).operands shape) :=
        .line rfl (.operand hoperand)
      simpa [Line.operands, Line.stackOperand?, hoperand, Address.operands] using h
  | label name offset =>
      have h := hplain (by simp)
      exact .instr (.plain h) (Even.stackOperand_eq_none h)
  | indirect pair =>
      have h := hplain (by simp)
      exact .instr (.plain h) (Even.stackOperand_eq_none h)

/-- Two instructions, one for each byte. -/
theorem level_bytes (instr : Address → Instr) (h : ∀ address : Address,
      Level [] shape [.instr (instr address)] shape (address.operands 1 shape))
    {state : LowerState} {first : Instr}
    (hfirst : Level [] shape [.instr first] shape (address.operands 1 shape)) :
    Ensures (do
      emit first
      stepPair address
      emit (instr (← lift address.next))) state fun _ code _ =>
        Level [] shape code shape (address.operands 2 shape) := by
  cases address with
  | stack offset =>
      simp only [ensures_bind, ensures_emit, stepPair, ensures_pure, ensures_lift]
      intro next hnext
      have hnext : next = .stack (offset + 1) := by
        simp only [Address.next, map_eq_ok, addBytes_eq_ok] at hnext
        obtain ⟨sum, ⟨-, rfl⟩, rfl⟩ := hnext
        rfl
      subst hnext
      exact hfirst.append (h (.stack (offset + 1)))
  | label name offset =>
      simp only [ensures_bind, ensures_emit, stepPair, ensures_pure, ensures_lift]
      intro next hnext
      have hnext : next = .label name (offset + 1) := by
        simp only [Address.next, map_eq_ok, addBytes_eq_ok] at hnext
        obtain ⟨sum, ⟨-, rfl⟩, rfl⟩ := hnext
        rfl
      subst hnext
      exact hfirst.append (h (.label name (offset + 1)))
  | indirect pair =>
      simp only [ensures_bind, ensures_emit, stepPair, ensures_lift]
      intro next hnext
      cases hnext
      have hstep : Level [] shape [.instr (.increment pair)] shape [] := .instr (.plain rfl) rfl
      exact hfirst.append (hstep.append (h (.indirect pair)))

theorem level_load (shape : Shape) (r : Reg) (address : Address) (state : LowerState) :
    Ensures (load r address) state fun _ code _ =>
      Level [] shape code shape (address.operands r.size shape) := by
  have hone : ∀ (r : Reg) (address : Address),
      Level [] shape [.instr (.load r address)] shape (address.operands 1 shape) := by
    intro r address
    refine level_operand (by rintro offset rfl; rfl) fun hnot => ?_
    cases address <;> first | rfl | exact absurd rfl (hnot _)
  unfold load
  split
  next hhalves =>
    rw [ensures_emit, (Reg.halves_eq_none_iff r).mp hhalves]
    exact hone r address
  next high low hhalves =>
    rw [(Reg.eq_of_halves hhalves).1]
    exact level_bytes (.load high) (hone high) (hone low address)

theorem level_store (shape : Shape) (address : Address) (r : Reg) (state : LowerState) :
    Ensures (store address r) state fun _ code _ =>
      Level [] shape code shape (address.operands r.size shape) := by
  have hone : ∀ (r : Reg) (address : Address),
      Level [] shape [.instr (.store address r)] shape (address.operands 1 shape) := by
    intro r address
    refine level_operand (by rintro offset rfl; rfl) fun hnot => ?_
    cases address <;> first | rfl | exact absurd rfl (hnot _)
  unfold store
  split
  next hhalves =>
    rw [ensures_emit, (Reg.halves_eq_none_iff r).mp hhalves]
    exact hone r address
  next high low hhalves =>
    rw [(Reg.eq_of_halves hhalves).1]
    exact level_bytes (.store · high) (hone high) (hone low address)

end Lowering

section Operands

variable {scopes : Scopes} {scope outer : ScopeId} {symbol : Symbol} {depth : Nat}
  {address : Address}

/-- The address that a symbol is given while bytes are pushed is that of its slot. -/
theorem Symbol.accesses_at (temporaries : Shape) (hvisible : scopes.Visible scope symbol)
    (hlocal : ∀ offset, symbol.storage = .framed offset → outer ∈ scopes.chain symbol.scope)
    (hdepth : temporaries.sum = depth)
    (haddress : (∃ offset, scopes.stackOffset symbol scope = .ok (some offset) ∧
        address = .stack (offset + depth)) ∨
      (scopes.stackOffset symbol scope = .ok none ∧ address = .label symbol.name 0))
    {bytes bytes' : Nat} (hbytes : ∀ offset, symbol.storage = .framed offset → bytes = bytes') :
    List.Forall₂ (Access.At scopes outer) (symbol.accesses scope bytes)
      (address.operands bytes' (temporaries ++ scopes.frameShape scope outer)) := by
  rcases haddress with ⟨distance, hoffset, rfl⟩ | ⟨hoffset, rfl⟩
  · obtain ⟨offset, hstorage, -, -⟩ := Scopes.stackOffset_eq_some hoffset
    have hslot := Scopes.stackOffset_slot hoffset (hlocal offset hstorage)
    simp only [Symbol.accesses, hstorage, Address.operands]
    rw [hbytes offset hstorage, List.forall₂_map_left_iff, List.forall₂_map_right_iff,
      List.forall₂_same]
    intro byte _
    refine ⟨⟨distance, hoffset, ?_⟩, ?_, temporaries, rfl, ?_⟩
    · simp only [List.sum_append, Scopes.sum_frameShape]
      omega
    · simp only [List.sum_append, Scopes.sum_frameShape]
      omega
    · simp only
      omega
  · have hstorage := Scopes.stackOffset_eq_none hvisible hoffset
    have hnone : symbol.accesses scope bytes = [] := by
      rcases hstorage with hstorage | hstorage <;> simp [Symbol.accesses, hstorage]
    rw [hnone]
    exact .nil

end Operands

/-! ## Expressions -/

/-- A step in a scope, whatever has been pushed before it, leaves the stack as it was and
addresses bytes of locals in order. -/
def Lowering.Balanced {α : Type} (scopes : Scopes) (scope outer : ScopeId) (step : Lowering α)
    (accesses : List Access) : Prop :=
  ∀ (state : LowerState) (temporaries : Shape), state.held.ConflictFree →
    temporaries.sum = state.depth →
    Ensures step state fun _ code _ =>
      Addresses scopes outer [] (temporaries ++ scopes.frameShape scope outer) code
        (temporaries ++ scopes.frameShape scope outer) accesses

section Expressions

variable {scopes : Scopes} {scope outer : ScopeId}

/-- The saved registers are popped last, after code that leaves the stack alone. -/
theorem Lowering.Restores.code_eq {function : Symbol} {saved : List Reg} {state after : LowerState}
    {result : Option Reg} {code : List Line} (h : Restores function saved state result code after) :
    ∃ moves, Even moves ∧ code = moves ++ saved.reverse.map fun r => .instr (.pop r) := by
  cases result with
  | none => exact ⟨[], .nil, (h.none rfl).2⟩
  | some r =>
      refine ⟨_, ?_, (h.some r rfl).2.2.2⟩
      split
      · exact .nil
      · exact .plain rfl rfl

/-- While arguments are pushed, locals are addressed with the bytes pushed so far. -/
theorem lowerArguments_addresses {parameters : List Ty} {arguments : List Expr}
    (haccepts : List.Forall₂ (fun parameter (argument : Expr) => parameter.Accepts argument.type)
      parameters arguments)
    (hwf : ∀ argument ∈ arguments, argument.WellFormed scopes scope)
    (hlower : ∀ argument ∈ arguments,
      Balanced scopes scope outer (argument.lower scopes) argument.accesses)
    {state : LowerState} {temporaries : Shape} (hfree : state.held.ConflictFree)
    (hdepth : temporaries.sum = state.depth) :
    Ensures (lowerArguments scopes parameters arguments) state fun pushed code after =>
      after.held = state.held ∧ ∃ top : Shape, (∀ size ∈ top, 0 < size) ∧ top.sum = pushed ∧
        Addresses scopes outer [] (temporaries ++ scopes.frameShape scope outer) code
          (top ++ (temporaries ++ scopes.frameShape scope outer))
          (Expr.allAccesses arguments) := by
  induction haccepts generalizing state temporaries with
  | nil =>
      rw [lowerArguments, ensures_pure]
      · exact ⟨rfl, [], by simp, rfl, .nil⟩
      · simp
  | @cons parameter argument parameters arguments haccept _ ih =>
      have hscalar := haccept.isScalar
      rw [lowerArguments, ensures_bind]
      refine ((hlower argument List.mem_cons_self state temporaries hfree hdepth).and
        ((hwf argument List.mem_cons_self).allocates state hfree)).mono ?_
      rintro r code lowered ⟨hcode, hholds, -, hlowered⟩
      rw [ensures_bind]
      refine ((Evens.coerce r _ lowered).and
        (coerce_holds hholds (Ty.size_of_isScalar hscalar.1))).mono ?_
      rintro r' code' coerced ⟨hcode', hholds', hsize, hcoerced⟩
      simp only [save, ensures_bind, ensures_push, ensures_free, ensures_lift]
      intro _
      rw [hholds'.erase]
      have hpushed : (r'.size :: temporaries).sum = coerced.depth + r'.size := by
        rw [List.sum_cons, hdepth, hcoerced, hlowered, Nat.add_comm]
      refine (ih (fun argument hmem => hwf argument (List.mem_cons_of_mem _ hmem))
        (fun argument hmem => hlower argument (List.mem_cons_of_mem _ hmem))
        (by exact hfree) hpushed).mono ?_
      rintro rest restCode after ⟨hheld, top, hpos, rfl, hrest⟩ total htotal
      rw [addBytes_eq_ok] at htotal
      refine ⟨hheld, top ++ [r'.size], ?_, ?_, ?_⟩
      · intro size hmem
        rcases List.mem_append.mp hmem with hmem | hmem
        · exact hpos size hmem
        · rw [List.mem_singleton] at hmem
          rcases r'.size_eq_one_or_two with h | h <;> omega
      · rw [htotal.2, List.sum_append, hsize, List.sum_singleton, Nat.add_comm]
      · have hpush : Addresses scopes outer [] (temporaries ++ scopes.frameShape scope outer)
            [.instr (.push r')] (r'.size :: temporaries ++ scopes.frameShape scope outer) [] :=
          .of_level (.instr .push rfl)
        have hwhole := (hcode.then_even hcode').append (hpush.append hrest)
        rw [Expr.allAccesses]
        simpa using hwhole

/-- A call takes everything off that it has put on the stack. -/
theorem lowerCall_balanced {note : Note} {function : Symbol} {arguments : List Expr}
    (h : (Expr.call note function arguments).WellFormed scopes scope)
    (hlower : ∀ argument ∈ arguments,
      Balanced scopes scope outer (argument.lower scopes) argument.accesses) :
    Balanced scopes scope outer (lowerCall scopes function arguments)
      (Expr.allAccesses arguments) := by
  intro state temporaries hfree hdepth
  obtain ⟨parameters, htype, haccepts, harguments⟩ : ∃ parameters,
      function.type = .function note.type parameters ∧
      List.Forall₂ (fun parameter (argument : Expr) => parameter.Accepts argument.type)
        parameters arguments ∧ ∀ argument ∈ arguments, argument.WellFormed scopes scope := by
    cases h with
    | call _ _ htype _ haccepts harguments => exact ⟨_, htype, haccepts, harguments⟩
  unfold lowerCall
  rw [ensures_bind, Symbol.parameters_eq htype]
  refine saveAll_ensures.mono ?_
  rintro saved _ emptied ⟨rfl, rfl, hempty, hsaved, -⟩
  rw [ensures_bind]
  have hsum : ((state.held.toList.map Reg.size).reverse ++ temporaries).sum = emptied.depth := by
    rw [List.sum_append, List.sum_reverse, hsaved, hdepth, Nat.add_comm]
  have hnone : emptied.held.ConflictFree := by
    rw [hempty]
    exact RegSet.conflictFree_empty
  refine (lowerArguments_addresses haccepts harguments hlower hnone hsum).mono ?_
  rintro pushed argumentCode pushedState ⟨hheld, top, hpos, rfl, hcode⟩
  refine (finishCall_ensures (hheld.trans hempty) hfree.apart).mono ?_
  rintro result _ after ⟨-, rest, rfl, hrestores⟩
  obtain ⟨moves, hmoves, rfl⟩ := hrestores.code_eq
  rw [List.append_assoc] at hcode
  have hcall : Even [.instr (.call function.name)] := .plain rfl rfl
  have hpops : Addresses scopes outer [] ((state.held.toList.map Reg.size).reverse ++
      (temporaries ++ scopes.frameShape scope outer))
      (state.held.toList.reverse.map fun r => .instr (.pop r))
      (temporaries ++ scopes.frameShape scope outer) [] := by
    rw [← List.map_reverse]
    exact .pops
  have hreleased := (Addresses.release hpos).append (Addresses.even_then hmoves hpops)
  have hwhole := Addresses.pushes.append (hcode.append (Addresses.even_then hcall hreleased))
  simpa using hwhole

/-- The code of a well-formed expression leaves the stack as it was, and its stack operands are
the bytes of locals that the expression addresses. -/
theorem Expr.WellFormed.balanced (hwf : scopes.WellFormed) {e : Expr}
    (h : e.WellFormed scopes scope)
    (hlocal : ∀ symbol offset, scopes.Visible scope symbol → symbol.storage = .framed offset →
      outer ∈ scopes.chain symbol.scope) :
    Balanced scopes scope outer (e.lower scopes) e.accesses := by
  -- The operands of a step that addresses a variable from a state where nothing else is pushed.
  have hsymbol : ∀ {symbol : Symbol} {address : Address} {code : List Line} {bytes : Nat}
      {depth : Nat} {temporaries : Shape}, scopes.Visible scope symbol → temporaries.sum = depth →
      ((∃ offset, scopes.stackOffset symbol scope = .ok (some offset) ∧
          address = .stack (offset + depth)) ∨
        (scopes.stackOffset symbol scope = .ok none ∧ address = .label symbol.name 0)) →
      ∀ {bytes' : Nat}, (symbol.type.isScalar = true → bytes = bytes') →
      Level [] (temporaries ++ scopes.frameShape scope outer) code
        (temporaries ++ scopes.frameShape scope outer)
        (address.operands bytes' (temporaries ++ scopes.frameShape scope outer)) →
      Addresses scopes outer [] (temporaries ++ scopes.frameShape scope outer) code
        (temporaries ++ scopes.frameShape scope outer) (symbol.accesses scope bytes) := by
    intro symbol address code bytes depth temporaries hvisible hdepth haddress bytes' hbytes hlevel
    refine ⟨_, hlevel, Symbol.accesses_at temporaries hvisible
      (fun offset hstorage => hlocal symbol offset hvisible hstorage) hdepth haddress ?_⟩
    intro offset hstorage
    obtain ⟨table, -, -, hplace⟩ := hvisible.places hwf
    rw [Scope.Places, hstorage] at hplace
    exact hbytes hplace.2.1
  intro state temporaries hfree hdepth
  induction h using Expr.WellFormed.alongLowering generalizing state temporaries with
  | number h =>
      rw [Expr.lower, Expr.accesses]
      simp only [ensures_bind, ensures_visit, ensures_emit, ensures_pure, ensures_allocate]
      exact fun _ _ => .of_even (.plain rfl rfl)
  | string h =>
      rw [Expr.lower, Expr.accesses]
      simp only [ensures_bind, ensures_visit, ensures_emit, ensures_pure, ensures_allocate]
      refine (evens_stringData _ _ _).mono fun _ code _ hcode _ _ => ?_
      simpa using Addresses.of_even (hcode.append (.plain rfl rfl))
  | @name note symbol h =>
      obtain ⟨hscope, htype, hvisible⟩ := h.of_name
      rw [Expr.lower, Expr.accesses]
      simp only [ensures_bind, ensures_visit, ensures_pure, ensures_allocate]
      refine Scopes.address_ensures.mono ?_
      rintro address _ _ ⟨rfl, rfl, haddress⟩ r hr
      refine (level_load (temporaries ++ scopes.frameShape scope outer) r address _).mono fun _ code _ hcode => ?_
      rw [hscope] at haddress ⊢
      have hbytes : symbol.type.isScalar = true → note.type.size = r.size := fun hscalar => by
        rw [htype] at hr ⊢
        exact (RegSet.size_of_firstFree (Ty.size_of_isScalar hscalar) hr).symm
      simpa using hsymbol hvisible hdepth haddress hbytes hcode
  | @assignName note inner symbol value h hvalue ih =>
      obtain ⟨htarget, haccepts⟩ : (Expr.name inner symbol).WellFormed scopes scope ∧
          inner.type.Accepts value.type := by
        cases h
        exact ⟨by assumption, by assumption⟩
      obtain ⟨hscope, htype, hvisible⟩ := htarget.of_name
      rw [Expr.lower, Expr.accesses]
      simp only [ensures_bind, ensures_visit, ensures_pure]
      refine ((ih _ temporaries (by exact hfree) (by exact hdepth)).and
        (hvalue.allocates _ (by exact hfree))).mono ?_
      rintro r code lowered ⟨hcode, hholds, -, hlowered⟩
      refine ((Evens.coerce r _ lowered).and
        (coerce_holds hholds (Ty.size_of_isScalar haccepts.isScalar.1))).mono ?_
      rintro r' code' coerced ⟨hcode', hholds', hsize, hcoerced⟩
      refine Scopes.address_ensures.mono ?_
      rintro address _ _ ⟨rfl, rfl, haddress⟩
      refine (level_store (temporaries ++ scopes.frameShape scope outer) address r' _).mono
        fun _ storeCode _ hstore => ?_
      rw [hscope] at haddress ⊢
      have hstored := hsymbol hvisible (hdepth.trans (hlowered.symm.trans hcoerced.symm)) haddress
        (fun _ => hsize.symm) hstore
      simpa using (hcode.then_even hcode').append hstored
  | @assignDeref note inner pointer value h hvalue hpointer ihvalue ihpointer =>
      have haccepts : inner.type.Accepts value.type := by
        cases h
        assumption
      rw [Expr.lower, Expr.accesses]
      simp only [ensures_bind, ensures_visit, ensures_pure]
      refine ((ihvalue _ temporaries (by exact hfree) (by exact hdepth)).and
        (hvalue.allocates _ (by exact hfree))).mono ?_
      rintro r code lowered ⟨hcode, hholds, -, hlowered⟩
      refine ((Evens.coerce r _ lowered).and
        (coerce_holds hholds (Ty.size_of_isScalar haccepts.isScalar.1))).mono ?_
      rintro r' code' coerced ⟨hcode', hholds', -, hcoerced⟩
      have hdepth' := hdepth.trans (hlowered.symm.trans hcoerced.symm)
      refine (ihpointer _ temporaries (by exact hholds'.held_conflictFree) (by exact hdepth')).mono
        fun pair pointerCode pointed hpair => ?_
      refine (level_store (temporaries ++ scopes.frameShape scope outer) (.indirect pair) r'
        pointed).mono fun _ storeCode stored hstore => ?_
      rw [ensures_free]
      simpa using (hcode.then_even hcode').append (hpair.append (.of_level hstore))
  | @binary note op left right h hleft hright ihleft ihright =>
      have hcombines : left.type.Combines right.type note.type := by
        cases h
        assumption
      have hsize := Ty.size_of_isScalar hcombines.isScalar.2.2
      rw [Expr.lower, Expr.accesses]
      simp only [ensures_bind, ensures_visit]
      refine ((ihleft _ temporaries (by exact hfree) (by exact hdepth)).and
        (hleft.allocates _ (by exact hfree))).mono ?_
      rintro l leftCode first ⟨hleftCode, hl, -, hfirst⟩
      refine ((Evens.coerce l _ first).and (coerce_holds hl hsize)).mono ?_
      rintro l' widenCode second ⟨hwiden, hl', -, hsecond⟩
      refine (ihright _ temporaries hl'.held_conflictFree
        (hdepth.trans (hfirst.symm.trans hsecond.symm))).mono fun r rightCode third hrightCode => ?_
      refine (Evens.coerce r _ third).mono fun r' coerceCode fourth hcoerce => ?_
      refine (evens_operate op _ l' r' fourth).mono fun _ code _ hcode => ?_
      have hwhole := (hleftCode.then_even hwiden).append
        (hrightCode.then_even (hcoerce.append hcode))
      simpa using hwhole
  | @addressName note inner symbol h =>
      obtain ⟨hscope, -, hvisible⟩ : inner.scope = scope ∧ inner.type = symbol.type ∧
          scopes.Visible scope symbol := by
        cases h with
        | addressOf _ _ _ _ hoperand => exact hoperand.of_name
        | keeping hop => cases hop
      rw [Expr.lower, Expr.accesses]
      simp only [ensures_bind, ensures_visit, ensures_emit, ensures_pure, ensures_allocate]
      refine Scopes.address_ensures.mono ?_
      rintro address _ _ ⟨rfl, rfl, haddress⟩ r hr
      rw [hscope] at haddress ⊢
      have hset : Level [] (temporaries ++ scopes.frameShape scope outer)
          [.instr (.setAddress r address)] (temporaries ++ scopes.frameShape scope outer)
          (address.operands 1 (temporaries ++ scopes.frameShape scope outer)) := by
        refine level_operand (by rintro offset rfl; rfl) fun hnot => ?_
        cases address <;> first | rfl | exact absurd rfl (hnot _)
      simpa using hsymbol hvisible hdepth haddress (fun _ => rfl) hset
  | addressDeref h hpointer ih =>
      rw [Expr.lower, Expr.accesses]
      simp only [ensures_bind, ensures_visit]
      exact (ih _ temporaries (by exact hfree) (by exact hdepth)).mono fun _ _ _ hcode => hcode
  | deref h hoperand ih =>
      rw [Expr.lower, Expr.accesses]
      simp only [ensures_bind, ensures_visit, ensures_pure, ensures_allocate]
      refine (ih _ temporaries (by exact hfree) (by exact hdepth)).mono
        fun pair code pointed hcode r hr => ?_
      refine (level_load (temporaries ++ scopes.frameShape scope outer) r (.indirect pair) _).mono
        fun _ loadCode loaded hload => ?_
      rw [ensures_free]
      simpa using hcode.append (.of_level hload)
      all_goals simp
  | @keeping note op operand h hoperand hop htype hvoid ih =>
      cases op with
      | addressOf => cases hop
      | deref => cases hop
      | plus =>
          rw [Expr.lower, Expr.accesses]
          · simp only [ensures_bind, ensures_visit]
            exact (ih _ temporaries (by exact hfree) (by exact hdepth)).mono fun _ _ _ hcode => hcode
          · simp
      | negate =>
          rw [Expr.lower, Expr.accesses]
          · simp only [ensures_bind, ensures_visit]
            refine (ih _ temporaries (by exact hfree) (by exact hdepth)).mono fun r _ lowered hcode => ?_
            exact (Evens.negate r lowered).mono fun _ _ _ hnegate => hcode.then_even hnegate
          · simp
      | increment =>
          rw [Expr.lower, Expr.accesses]
          · simp only [ensures_bind, ensures_visit, ensures_pure, List.append_nil]
            refine (ih _ temporaries (by exact hfree) (by exact hdepth)).mono fun r _ lowered hcode => ?_
            exact (Evens.stepBy (fun _ => rfl) r _ lowered).mono fun _ _ _ hstep =>
              hcode.then_even hstep
          · simp
      | decrement =>
          rw [Expr.lower, Expr.accesses]
          · simp only [ensures_bind, ensures_visit, ensures_pure, List.append_nil]
            refine (ih _ temporaries (by exact hfree) (by exact hdepth)).mono fun r _ lowered hcode => ?_
            exact (Evens.stepBy (fun _ => rfl) r _ lowered).mono fun _ _ _ hstep =>
              hcode.then_even hstep
          · simp
  | call h harguments ih =>
      rw [Expr.lower_call, Expr.accesses]
      simp only [ensures_bind, ensures_visit]
      refine (lowerCall_balanced h ih _ temporaries (by exact hfree) (by exact hdepth)).mono
        fun result code _ hcode => ?_
      cases result with
      | none => exact ensures_fail
      | some r =>
          rw [ensures_pure]
          simpa using hcode

end Expressions

end AccumulatorC
