import Mathlib.Data.List.Forall2
import AccumulatorC.Proofs.ExpressionCode

/-!
# Calls

A call keeps what belongs to the caller: the registers in use, the stack pointer and the bytes on
the stack. The caller pushes its arguments in their order, and the called function computes from
the scope of its parameters the slots in which it finds them.
-/

namespace AccumulatorC

open Lowering

/-! ## The slots of parameters -/

/-- The parameters of a function, in their order. -/
def Function.parameterSymbols (scopes : Scopes) (function : Function) : List Symbol :=
  (scopes.list[function.parameters]?).elim [] (·.inOrder)

/-- The function finds values in the slots that it computes for its parameters when it is
entered. -/
def Function.Finds (scopes : Scopes) (function : Function) (values : List UInt16) (m : Machine) :
    Prop :=
  List.Forall₂ (fun (parameter : Symbol) value => ∃ offset,
      scopes.stackOffset parameter function.parameters = .ok (some offset) ∧
      valueAt m.memory parameter.type.size (m.sp + .ofNat offset) = value)
    (function.parameterSymbols scopes) values

/-- A symbol of a frame without gaps lies behind those that were declared before it. -/
theorem Symbol.Contiguous.storage {later earlier : List Symbol} {symbol : Symbol}
    (h : Symbol.Contiguous (later ++ symbol :: earlier)) :
    symbol.storage = .framed (Symbol.bytes earlier) := by
  induction later with
  | nil => exact h.1
  | cons latest later ih => exact ih h.2

theorem Symbol.bytes_reverse (symbols : List Symbol) :
    Symbol.bytes symbols.reverse = Symbol.bytes symbols := by
  rw [bytes, List.map_reverse, List.sum_reverse]
  rfl

/-- The slot of a parameter is as far up from below the return address as its bytes and those of
the earlier parameters leave of all bytes. -/
theorem Scope.Parameters.stackOffset {scopes : Scopes} (hwf : scopes.WellFormed) {id : ScopeId}
    {table : Scope} {types : List Ty} (htable : scopes.list[id]? = some table)
    (h : table.Parameters types) {earlier later : List Symbol} {parameter : Symbol}
    (horder : table.inOrder = earlier ++ parameter :: later) :
    ∃ offset, scopes.stackOffset parameter id = .ok (some offset) ∧
      Symbol.bytes earlier + parameter.type.size + offset =
        Symbol.bytes table.symbols + returnAddressSize := by
  have hsymbols : table.symbols = later.reverse ++ parameter :: earlier.reverse := by
    rw [← List.reverse_reverse table.symbols, ← Scope.inOrder, horder]
    simp
  have hcontiguous := h.contiguous
  rw [hsymbols] at hcontiguous
  have hstorage := hcontiguous.storage
  rw [Symbol.bytes_reverse] at hstorage
  have hscope : parameter.scope = id :=
    (hwf.placed _ table parameter htable (by rw [hsymbols]; simp)).1
  have htotal : Symbol.bytes table.symbols =
      Symbol.bytes earlier + parameter.type.size + Symbol.bytes later := by
    rw [← Symbol.bytes_reverse, ← Scope.inOrder, horder]
    simp only [Symbol.bytes, List.map_append, List.map_cons, List.sum_append, List.sum_cons]
    omega
  have hframe := h.frame
  refine ⟨_, hscope ▸ Scopes.stackOffset_own (hscope.symm ▸ htable) hstorage h.fits (by omega), ?_⟩
  omega

/-- Values that lie below one another on the stack from the first parameter to the last are found
by the function, from below its return address. -/
theorem Function.finds_of_stacked {scopes : Scopes} (hwf : scopes.WellFormed) {function : Function}
    {table : Scope} {types : List Ty} (htable : scopes.list[function.parameters]? = some table)
    (hparameters : table.Parameters types) {site : Site} {depth : Nat} {values : List UInt16}
    {m : Machine} (hlength : values.length = types.length)
    (hsp : m.sp = site.entry - .ofNat (depth + (types.map Ty.size).sum + returnAddressSize))
    (hstacked : site.Stacked m.memory depth ((types.map Ty.size).zip values)) :
    function.Finds scopes values m := by
  have hsizes : table.inOrder.map (·.type.size) = types.map Ty.size := by
    rw [← hparameters.types, List.map_map]
    rfl
  have hsum : (types.map Ty.size).sum = Symbol.bytes table.symbols := by
    rw [← hsizes, ← Symbol.bytes_reverse]
    rfl
  rw [← hsizes] at hstacked
  -- The induction runs over the parameters that are left, with the bytes of the earlier ones.
  have hrest : ∀ (later earlier : List Symbol) (values : List UInt16),
      table.inOrder = earlier ++ later → values.length = later.length →
      site.Stacked m.memory (depth + Symbol.bytes earlier)
        ((later.map (·.type.size)).zip values) →
      List.Forall₂ (fun (parameter : Symbol) value => ∃ offset,
          scopes.stackOffset parameter function.parameters = .ok (some offset) ∧
          valueAt m.memory parameter.type.size (m.sp + .ofNat offset) = value) later values := by
    intro later
    induction later with
    | nil =>
        intro earlier values _ hlength _
        rw [List.length_eq_zero_iff.mp hlength]
        exact .nil
    | cons parameter later ih =>
        intro earlier values horder hlength hstacked
        obtain ⟨value, values, rfl⟩ := List.exists_cons_of_length_eq_add_one hlength
        obtain ⟨hvalue, hstacked⟩ := hstacked
        have hbytes : Symbol.bytes (earlier ++ [parameter]) =
            Symbol.bytes earlier + parameter.type.size := by
          simp [Symbol.bytes]
        obtain ⟨offset, hoffset, hup⟩ := hparameters.stackOffset hwf htable horder
        refine .cons ⟨offset, hoffset, ?_⟩ (ih (earlier ++ [parameter]) values
          (by simpa using horder) (by simpa using hlength)
          (by rw [hbytes, ← Nat.add_assoc]; exact hstacked))
        have hplace : m.sp + .ofNat offset =
            site.entry - .ofNat (depth + Symbol.bytes earlier + parameter.type.size) := by
          have hdepth : depth + (types.map Ty.size).sum + returnAddressSize =
              depth + Symbol.bytes earlier + parameter.type.size + offset := by omega
          rw [hsp, hdepth, UInt16.ofNat_add _ offset]
          grind
        rw [hplace]
        exact hvalue
  have hsymbols : function.parameterSymbols scopes = table.inOrder := by
    simp [parameterSymbols, htable]
  rw [Finds, hsymbols]
  refine hrest table.inOrder [] values rfl ?_ hstacked
  rw [hlength, ← hparameters.types, List.length_map]

/-! ## The call sequence -/

/-- What a call of a function with given arguments does on a machine, when the call is evaluated
to a value in a world: it leads to the function with its arguments in their slots, and comes back
with the registers in use, the stack pointer and the memory of the caller as they are to be. -/
structure Program.Calls (program : Program) (site : Site) (n : Nat) (symbol : Symbol)
    (arguments : List Expr) (held : RegSet) (result : Option Reg) (code : List Line) (m : Machine)
    (value : UInt16) (world : World) (m' : Machine) : Prop where
  executes : Executes site.platform code m m'
  sp : m'.sp = m.sp
  registers : ∀ r, held.contains r = true → m'.read r = m.read r
  /-- The result is what the function has brought back. -/
  returns : ∀ r, result = some r → m'.read r = value
  memory : ∀ x, site.Open x → world.memory x = some (m'.memory x)
  entered : ∃ first rest values middle arrived outcome others function,
    code = first ++ .instr (.call symbol.name) :: rest ∧
    evaluateArguments site n symbol.parameters arguments m.world = some (values, middle) ∧
    Executes site.platform first m arrived ∧
    arrived.outcomes = outcome :: others ∧
    value = outcome.registers.read (.result symbol.resultSize) ∧
    .function function ∈ program.items ∧ function.symbol = symbol ∧
    ∀ following, function.Finds program.scopes values
      (arrived.enter site.platform (rest ++ following))

/-- As many values are evaluated as there are arguments. -/
theorem length_evaluateArguments {site : Site} {n : Nat} {parameters : List Ty}
    {arguments : List Expr} {world world' : World} {values : List UInt16}
    (hlength : arguments.length = parameters.length)
    (h : evaluateArguments site n parameters arguments world = some (values, world')) :
    values.length = parameters.length := by
  induction parameters generalizing n arguments world values with
  | nil =>
      rw [List.length_eq_zero_iff.mp hlength, evaluateArguments_nil, Evaluation.pure_eq_some] at h
      cases h
      rfl
  | cons parameter parameters ih =>
      obtain ⟨argument, arguments, rfl⟩ := List.exists_cons_of_length_eq_add_one hlength
      rw [evaluateArguments_cons, Evaluation.bind_eq_some] at h
      obtain ⟨value, middle, -, h⟩ := h
      rw [Evaluation.bind_eq_some] at h
      obtain ⟨rest, last, hrest, h⟩ := h
      rw [Evaluation.pure_eq_some] at h
      cases h
      rw [List.length_cons, List.length_cons, ih (by simpa using hlength) hrest]

theorem Symbol.returned_eq_some {symbol : Symbol} {site : Site} {world world' : World}
    {value : UInt16} (h : symbol.returned site world = some (value, world')) :
    ∃ outcome others, world.outcomes = outcome :: others ∧
      value = outcome.registers.read (.result symbol.resultSize) := by
  unfold Symbol.returned at h
  split at h
  next outcome others houtcomes =>
    cases h
    exact ⟨outcome, others, houtcomes, rfl⟩
  · cases h

/-- A function that is called takes its arguments from below what was saved. -/
theorem Site.Calls.finds {site : Site} {depth n : Nat} {symbol : Symbol} {arguments : List Expr}
    {held : RegSet} {result : Option Reg} {code : List Line} {world world' : World}
    {m m' : Machine} {value : UInt16}
    (h : site.Calls depth n symbol arguments held result code world m value world' m')
    (hwf : site.scopes.WellFormed) (hused : site.used ≤ depth) {function : Function}
    (hfunction : function.WellFormed site.scopes) (hsymbol : function.symbol = symbol)
    (hlength : arguments.length = symbol.parameters.length)
    (hscalar : ∀ type ∈ symbol.parameters, type.isScalar = true) :
    ∃ first rest values middle arrived,
      code = first ++ .instr (.call symbol.name) :: rest ∧
      evaluateArguments site n symbol.parameters arguments world = some (values, middle) ∧
      Executes site.platform first m arrived ∧ arrived.outcomes = middle.outcomes ∧
      ∀ following, function.Finds site.scopes values
        (arrived.enter site.platform (rest ++ following)) := by
  obtain ⟨first, rest, values, middle, arrived, hcode, hvalues, hexecutes, hroom, hmirrors,
    hstacked⟩ := h.entered
  obtain ⟨_, types, table, htype, htable, hparameters, -⟩ := hfunction.signature
  rw [hsymbol] at htype
  have htypes : symbol.parameters = types := Symbol.parameters_eq htype
  have hcount := length_evaluateArguments hlength hvalues
  refine ⟨first, rest, values, middle, arrived, hcode, hvalues, hexecutes, hmirrors.outcomes,
    fun following => ?_⟩
  have hlimit := site.room_le
  obtain ⟨hsp, hmemory⟩ := Site.enter_eq hmirrors.sp (by omega) (by omega) (rest ++ following)
  have hsizes : ((symbol.parameters.map Ty.size).zip values).map Prod.fst =
      symbol.parameters.map Ty.size := List.map_fst_zip (by simp [hcount])
  refine Function.finds_of_stacked hwf htable hparameters (htypes ▸ hcount) (htypes ▸ hsp) ?_
  rw [← htypes]
  refine hstacked.congr (fun entry hmem => ?_) (by omega) (by rw [hsizes]; omega)
    fun x _ hx => hmemory x (.inl (by rwa [hsizes] at hx))
  have hentry := List.mem_map_of_mem (f := Prod.fst) hmem
  rw [hsizes] at hentry
  obtain ⟨type, htype, hsize⟩ := List.mem_map.mp hentry
  rw [← hsize]
  exact Ty.size_of_isScalar (hscalar type htype)

/-- Calls keep the caller intact, whichever registers are in use and however much has been pushed:
one register more is taken, for the result, and when the code has run, the stack pointer, the
registers in use and memory are as they are to be. Before that the function was entered with the
values of its arguments in the slots that it computes for its parameters. -/
theorem Program.calls_keep_caller {tokens : List (Located Token)} {parsed : Parsed}
    {caller : Function} {note : Note} {symbol : Symbol} {arguments : List Expr} {state : LowerState}
    (hparsed : Program.ofTokens tokens = .ok parsed)
    (hmem : .function caller ∈ parsed.program.items)
    (hnode : .call note symbol arguments ∈ caller.nodes) (hfree : state.held.ConflictFree) :
    Ensures (lowerCall parsed.program.scopes symbol arguments) state fun result code after =>
      AllocatesResult symbol state result after ∧
      ∀ (platform : Platform) (m : Machine) (kept : Nat) (hkept : kept ≤ addressLimit)
        (value : UInt16) (world : World),
        (∀ inner function given, .call inner function given ∈
          (Expr.call note symbol arguments).nodes →
          platform.arguments function.name = (function.parameters.map Ty.size).sum) →
        reach code + 2 ≤ kept → kept + (platform.base - m.sp).toNat ≤ addressLimit →
        (Expr.call note symbol arguments).evaluate
          (caller.site parsed.program.scopes (.call note symbol arguments) state.depth kept hkept
            platform m) (state.labels.count .string) m.world = some (value, world) →
        ∃ m', parsed.program.Calls
          (caller.site parsed.program.scopes (.call note symbol arguments) state.depth kept hkept
            platform m) (state.labels.count .string) symbol arguments state.held result code m
          value world m' := by
  have hwf := Program.ofTokens_wellFormed hparsed
  have hcaller := hwf.functions caller hmem
  obtain ⟨hcall, hinside⟩ := hcaller.node hwf.scopes hnode
  obtain ⟨parameters, htype, hvisible, haccepts, harguments⟩ : ∃ parameters,
      symbol.type = .function note.type parameters ∧
      parsed.program.scopes.Visible note.scope symbol ∧
      List.Forall₂ (fun parameter (argument : Expr) => parameter.Accepts argument.type)
        parameters arguments ∧
      ∀ argument ∈ arguments, argument.WellFormed parsed.program.scopes note.scope := by
    cases hcall with
    | call _ _ htype hvisible haccepts harguments =>
        exact ⟨_, htype, hvisible, haccepts, harguments⟩
  have htypes := Symbol.parameters_eq htype
  have hisFunction : symbol.type.isFunction = true := by
    rw [htype]
    rfl
  obtain ⟨function, hdefined, hsymbol⟩ :=
    hwf.defined symbol (hvisible.global_of_isFunction hwf.scopes hisFunction) hisFunction
  have hlocal := hwf.scopes.local_inside (hcaller.nested hwf.scopes).root hinside
  intro done hdone
  refine ⟨lowerCall_allocates hcall (fun argument hmem => (harguments argument hmem).allocates)
    hfree done hdone, ?_⟩
  intro platform m kept hkept value world htakes hreach habove hvalue
  let site := caller.site parsed.program.scopes (.call note symbol arguments) state.depth kept hkept
    platform m
  have hcan : site.CanCall (.call note symbol arguments) (site.used + reach done.code + 2) := by
    refine ⟨htakes, ?_, ?_⟩
    · show site.used + reach done.code + 2 ≤ site.used + kept
      omega
    · show site.used + kept + (platform.base - site.start).toNat ≤ site.used + addressLimit
      rw [Function.site_start]
      omega
  have halong : ∀ argument ∈ arguments, site.LowersAlong note.scope argument :=
    fun argument hmem => Site.lowersAlong (harguments argument hmem) hlocal
  have hfits : site.Fits site.used := ⟨Nat.le_refl _, by have := hcan.bytes_le; omega⟩
  obtain ⟨m', hcalls⟩ := Site.lowerCall_calls hcall halong hfree done hdone m.world world m value
    hfits hcan Function.site_mirrors hvalue
  have hscalar : ∀ type ∈ symbol.parameters, type.isScalar = true := by
    rw [htypes]
    exact ((List.forall₂_and_left _ _).mp (haccepts.imp fun _ _ h => ⟨h.isScalar.1, h⟩)).1
  obtain ⟨first, rest, values, middle, arrived, hcode, hvalues, hexecutes, houtcomes, hfinds⟩ :=
    hcalls.finds hwf.scopes (Nat.le_refl _) (hwf.functions function hdefined) hsymbol
      (by rw [htypes, haccepts.length_eq]) hscalar
  rw [Expr.evaluate_call, Evaluation.bind_eq_some] at hvalue
  obtain ⟨values', middle', hvalues', hreturned⟩ := hvalue
  obtain ⟨rfl, rfl⟩ : values' = values ∧ middle' = middle :=
    Prod.mk.inj (Option.some.inj (hvalues'.symm.trans hvalues))
  obtain ⟨outcome, others, hnext, hresult⟩ := Symbol.returned_eq_some hreturned
  refine ⟨m', hcalls.tracks.executes, ?_, hcalls.tracks.registers, hcalls.value, fun x hx => ?_,
    first, rest, values', middle', arrived, outcome, others, function, hcode, hvalues', hexecutes,
    houtcomes.trans hnext, hresult, hdefined, hsymbol, hfinds⟩
  · exact hcalls.tracks.mirrors.sp.trans Function.site_mirrors.sp.symm
  · exact hcalls.tracks.mirrors.memory_eq hcalls.tracks.known hx

/-- A function that brings back one number in all registers and bytes. -/
def bringingBack (byte : UInt8) : Returned where
  registers := ⟨byte, byte, byte, byte, byte⟩
  flags := ⟨false, false⟩
  memory _ := byte

/-- Whether an expression is a call of which something holds. -/
def Expr.isCallWith (holds : Note → Symbol → List Expr → Bool) : Expr → Bool
  | .call note symbol arguments => holds note symbol arguments
  | _ => false

theorem Expr.isCallWith_eq_true {holds : Note → Symbol → List Expr → Bool} {e : Expr} :
    e.isCallWith holds = true ↔
      ∃ note symbol arguments, e = .call note symbol arguments ∧ holds note symbol arguments = true := by
  cases e <;> simp [isCallWith]

/-- A call in a program, made in a busy state, keeps what its caller has. -/
theorem countdown_calls_keep_caller :
    ∃ caller note symbol arguments done world m', .function caller ∈ countdown.program.items ∧
      .call note symbol arguments ∈ caller.nodes ∧ busyState.held.ConflictFree ∧
      (lowerCall countdown.program.scopes symbol arguments).run busyState = .ok done ∧
      AllocatesResult symbol busyState done.value done.state ∧
      countdown.program.Calls (caller.site countdown.program.scopes (.call note symbol arguments) 3
        20 (by decide) plainPlatform (fives [bringingBack 4, bringingBack 9])) 0 symbol arguments
        busyState.held done.value done.code (fives [bringingBack 4, bringingBack 9]) 9 world m' := by
  let m := fives [bringingBack 4, bringingBack 9]
  have hfound : (countdown.program.items.any (·.isFunctionWith fun caller => caller.nodes.any
      (·.isCallWith fun note symbol arguments =>
        ((lowerCall countdown.program.scopes symbol arguments).run busyState).toOption.any
          (fun done => decide (reach done.code + 2 ≤ 20)) &&
        ((Expr.call note symbol arguments).evaluate (caller.site countdown.program.scopes
          (.call note symbol arguments) 3 20 (by decide) plainPlatform m) 0 m.world).any
          (fun result => result.1 == 9) &&
        (Expr.call note symbol arguments).nodes.all fun node =>
          !node.isCallWith fun _ function _ =>
            decide (plainPlatform.arguments function.name ≠
              (function.parameters.map Ty.size).sum)))) = true := by decide +kernel
  obtain ⟨item, hmem, hitem⟩ := List.any_eq_true.mp hfound
  obtain ⟨caller, rfl, hcaller⟩ := Item.isFunctionWith_eq_true.mp hitem
  obtain ⟨e, hnode, he⟩ := List.any_eq_true.mp hcaller
  obtain ⟨note, symbol, arguments, rfl, hcall⟩ := Expr.isCallWith_eq_true.mp he
  simp only [Bool.and_eq_true, Option.any_eq_true, beq_iff_eq, List.all_eq_true,
    Bool.not_eq_true'] at hcall
  obtain ⟨⟨⟨done, hdone, hreach⟩, ⟨value, world⟩, hvalue, rfl⟩, htakes⟩ := hcall
  have hran := eq_ok_of_toOption hdone
  obtain ⟨hallocates, hkeeps⟩ := Program.calls_keep_caller countdown_read hmem hnode
    busyState_conflictFree done hran
  obtain ⟨m', hcalls⟩ := hkeeps plainPlatform m 20 (by decide) 9 world
    (fun inner function given hinner => by simpa [Expr.isCallWith] using htakes _ hinner)
    (of_decide_eq_true hreach) (by decide) hvalue
  exact ⟨caller, note, symbol, arguments, done, world, m', hmem, hnode,
    busyState_conflictFree, hran, hallocates, hcalls⟩

end AccumulatorC
