import AccumulatorC.Proofs.Program.Parser.Statement

/-!
# Programs that are read are well-formed

The parameters of a function fill a scope of their own from the start of its frame, and the
return address takes the bytes after them. Functions are read one after the other; what was
read before keeps its scopes, and every function of the global scope is an item.
-/

namespace AccumulatorC

namespace Scopes

variable {scopes after : Scopes}

theorem WellFormed.visible_global (hwf : scopes.WellFormed) {symbol : Symbol} :
    scopes.Visible globalScope symbol ↔
      symbol.scope = globalScope ∧
        ∃ table, scopes.list[globalScope]? = some table ∧ symbol ∈ table.symbols := by
  unfold Visible
  rw [hwf.chain_global, List.mem_singleton]
  constructor
  · rintro ⟨hscope, table, htable, hmem⟩
    exact ⟨hscope, table, hscope ▸ htable, hmem⟩
  · rintro ⟨hscope, table, htable, hmem⟩
    exact ⟨hscope, table, hscope.symm ▸ htable, hmem⟩

theorem WellFormed.length_pos (hwf : scopes.WellFormed) : globalScope < scopes.list.length := by
  obtain ⟨symbols, hroot⟩ := hwf.root
  exact (List.getElem?_eq_some_iff.mp hroot).1

/-- What is visible in the global scope after its table has stayed the same. -/
theorem Grows.visible_global_of_ne {current : ScopeId} (hwf : scopes.WellFormed)
    (hwf' : after.WellFormed) (h : scopes.Grows after current) (hne : globalScope ≠ current)
    {symbol : Symbol} (hvisible : after.Visible globalScope symbol) :
    scopes.Visible globalScope symbol := by
  rw [hwf'.visible_global] at hvisible
  rw [hwf.visible_global, ← h.other globalScope hwf.length_pos hne]
  exact hvisible

/-- Declaring in the global scope makes one more symbol visible there. -/
theorem visible_global_of_declare (hwf : scopes.WellFormed) (hwf' : after.WellFormed)
    {name : String} {location : Location} {type : Ty} {external : Bool} {new symbol : Symbol}
    (h : scopes.declare globalScope name location type external = .ok (new, after))
    (hvisible : after.Visible globalScope symbol) :
    scopes.Visible globalScope symbol ∨ symbol = new := by
  obtain ⟨scope, storage, frame, hscope, -, -, -, rfl⟩ := declare_eq_ok h
  rw [hwf'.visible_global] at hvisible
  obtain ⟨hsymbol, table, htable, hmem⟩ := hvisible
  rw [list_set, if_pos rfl, hscope, Option.map_some, Option.some.injEq] at htable
  subst htable
  rcases List.mem_cons.mp hmem with rfl | hmem
  · exact Or.inr rfl
  · exact Or.inl (hwf.visible_global.mpr ⟨hsymbol, scope, hscope, hmem⟩)

/-- Nothing is visible before anything is declared. -/
theorem not_visible_initial {symbol : Symbol} : ¬ initial.Visible globalScope symbol := by
  intro hvisible
  obtain ⟨-, table, htable, hmem⟩ := initial_wellFormed.visible_global.mp hvisible
  simp only [initial, globalScope, List.getElem?_cons_zero, Option.some.injEq] at htable
  subst htable
  cases hmem

/-- The names that are declared in the global scope, the latest first. -/
def names (scopes : Scopes) : List String :=
  ((scopes.list[globalScope]?).elim [] (·.symbols)).map (·.name)

/-- The names stay the same while another scope is the innermost one. -/
theorem Grows.names_eq {current : ScopeId} (hwf : scopes.WellFormed)
    (h : scopes.Grows after current) (hne : globalScope ≠ current) : after.names = scopes.names := by
  rw [names, names, h.other globalScope hwf.length_pos hne]

/-- Declaring in the global scope adds a name that was not there. -/
theorem names_declare {name : String} {location : Location} {type : Ty} {external : Bool}
    {symbol : Symbol}
    (h : scopes.declare globalScope name location type external = .ok (symbol, after)) :
    after.names = symbol.name :: scopes.names ∧ symbol.name ∉ scopes.names := by
  obtain ⟨scope, storage, frame, hscope, hfind, -, rfl, rfl⟩ := declare_eq_ok h
  have hnames : scopes.names = scope.symbols.map (·.name) := by rw [names, hscope, Option.elim_some]
  constructor
  · rw [hnames, names, list_set, if_pos rfl, hscope]
    rfl
  · rw [hnames]
    intro hmem
    obtain ⟨other, hother, hname⟩ := List.mem_map.mp hmem
    have hnot := List.find?_eq_none.mp hfind other hother
    simp [hname] at hnot

end Scopes

namespace Parser

/-! ## Parameters -/

/-- A scope that holds parameters of the given types and nothing else yet. -/
structure Parameterized (scopes : Scopes) (id : ScopeId) (types : List Ty) : Prop where
  wellFormed : scopes.WellFormed
  inner : id ≠ globalScope
  table : ∃ table : Scope, scopes.list[id]? = some table ∧ table.parent = some globalScope ∧
    table.inOrder.map (·.type) = types ∧ Symbol.Contiguous table.symbols ∧
    table.frame = Symbol.bytes table.symbols

theorem Parameterized.declare {scopes after : Scopes} {id : ScopeId} {types : List Ty}
    (h : Parameterized scopes id types) {name : String} {location : Location} {type : Ty}
    {symbol : Symbol} (hscalar : type.isScalar = true)
    (hdeclare : scopes.declare id name location type false = .ok (symbol, after)) :
    Parameterized after id (types ++ [type]) := by
  refine ⟨?_, h.inner, ?_⟩
  · exact h.wellFormed.declare (fun hfalse => by cases hfalse) (fun _ _ => hscalar) hdeclare
  obtain ⟨table, htable, hparent, htypes, hcontiguous, hframe⟩ := h.table
  obtain ⟨scope, storage, frame, hscope, -, hallot, hsymbol, rfl⟩ := Scopes.declare_eq_ok hdeclare
  rw [htable, Option.some.injEq] at hscope
  subst hscope
  rcases Scopes.allot_eq_ok hallot with ⟨h, -⟩ | ⟨-, h, -⟩ | ⟨-, -, rfl, rfl⟩
  · cases h
  · simp [hparent] at h
  · refine ⟨⟨table.parent, symbol :: table.symbols, table.frame + type.size⟩, ?_, hparent, ?_, ?_, ?_⟩
    · rw [Scopes.list_set, if_pos rfl, htable]
      rfl
    · rw [← htypes]
      simp [Scope.inOrder, hsymbol]
    · exact ⟨by simp [hsymbol, hframe], hcontiguous⟩
    · simp [Symbol.bytes, hframe, hsymbol, Nat.add_comm]

/-- With the bytes of the return address the scope of the parameters is complete. -/
theorem Parameterized.reserve {scopes after : Scopes} {id : ScopeId} {types : List Ty}
    (h : Parameterized scopes id types)
    (hreserve : scopes.reserve id returnAddressSize = .ok after) :
    after.WellFormed ∧ ∃ table, after.list[id]? = some table ∧ table.Parameters types := by
  refine ⟨h.wellFormed.reserve h.inner hreserve, ?_⟩
  obtain ⟨table, htable, hparent, htypes, hcontiguous, hframe⟩ := h.table
  obtain ⟨scope, hscope, hfits, rfl⟩ := Scopes.reserve_eq_ok hreserve
  rw [htable, Option.some.injEq] at hscope
  subst hscope
  refine ⟨{ table with frame := table.frame + returnAddressSize }, ?_, hparent, htypes,
    hcontiguous, by simp [hframe], hfits⟩
  rw [Scopes.list_set, if_pos rfl, htable]
  rfl

namespace Leads

theorem parameter {given : Setting} (scope : ScopeId) :
    Leads given (Parser.parameter scope) fun type after =>
      type.isScalar = true ∧ ∃ (name : Located String) (symbol : Symbol) (scopes : Scopes),
        given.scopes.declare scope name.value name.location type false = .ok (symbol, scopes) ∧
        after = { given with scopes } := by
  refine Yields.type.then fun type hkind => Yields.identifier.then fun name _ => ?_
  refine (Yields.requireVariable type name).then fun _ hvoid => ?_
  refine (declare scope name type false).bind fun symbol after ⟨scopes, hdeclare, hafter⟩ => ?_
  exact pure ⟨Ty.isScalar_of_not hkind hvoid, name, symbol, scopes, hdeclare, hafter⟩

/-- The parameters that are read are added to those that the scope holds. -/
theorem parameters (scope : ScopeId) (count : Nat) {given : Setting} {types : List Ty}
    (h : Parameterized given.scopes scope types) :
    Leads given (Parser.separated (Parser.parameter scope) count) fun more after =>
      Parameterized after.scopes scope (types ++ more) ∧
      given.scopes.Grows after.scopes scope ∧ after = { given with scopes := after.scopes } := by
  induction count generalizing given types with
  | zero => exact fail
  | succ count ih =>
      refine (parameter scope).bind ?_
      rintro type _ ⟨hscalar, name, symbol, scopes, hdeclare, rfl⟩
      have hmore := h.declare hscalar hdeclare
      have hgrows := Scopes.grows_declare hdeclare
      refine (Yields.optional _).then fun _ _ => ite (fun _ => ?_) fun _ => pure ⟨hmore, hgrows, rfl⟩
      refine (ih hmore).bind ?_
      rintro rest after ⟨hrest, hgrows', hafter⟩
      refine pure ⟨by simpa using hrest, hgrows.trans hgrows', ?_⟩
      rw [hafter]

end Leads

/-! ## Functions and programs -/

/-- Settings between the items of a program. -/
structure Setting.Global (given : Setting) : Prop where
  wellFormed : given.scopes.WellFormed
  scope : given.scope = globalScope
  result : given.result = none
  distinct : given.scopes.names.Nodup

/-- Reading items: the table grows by their names, the functions among them are well-formed, what
global variables are initialized with can be found when the program is compiled, and whatever can be
called afterwards could be before or is one of the functions. What is visible everywhere afterwards
was so before or is declared by an item. -/
structure Setting.ReadsItems (given : Setting) (items : List Item) (after : Setting) : Prop where
  global : after.Global
  grows : given.scopes.Grows after.scopes globalScope
  functions : ∀ function, .function function ∈ items → function.WellFormed after.scopes
  globals : ∀ declared value, .global declared ∈ items → declared.initial = some value →
    value.WellFormed after.scopes globalScope ∧
      declared.symbol.type.Accepts value.type ∧ value.isInitializer = true
  defined : ∀ symbol, after.scopes.Visible globalScope symbol → symbol.type.isFunction = true →
    given.scopes.Visible globalScope symbol ∨
      ∃ function, .function function ∈ items ∧ function.symbol = symbol
  known : ∀ symbol, after.scopes.Visible globalScope symbol →
    given.scopes.Visible globalScope symbol ∨ ∃ item ∈ items, item.symbol = symbol
  names : after.scopes.names = (items.map Item.name).reverse ++ given.scopes.names

theorem Setting.ReadsItems.nil {given : Setting} (hglobal : given.Global) :
    given.ReadsItems [] given :=
  ⟨hglobal, .refl _ _, by simp, by simp, fun _ hvisible _ => Or.inl hvisible,
    fun _ hvisible => Or.inl hvisible, rfl⟩

/-- The rest of a function, after its parameters. -/
def functionRest (result : Ty) (name : Located String) (scope : ScopeId) (parameters : List Ty) :
    Parser Function := do
  expect (.mark .closeParen)
  reserve scope returnAddressSize
  let symbol ← declare globalScope name (.function result parameters) false
  modify fun state => { state with scope, result := some result }
  let (inner, body, location) ← block statement
  modify fun state => { state with scope := globalScope, result := none }
  return ⟨symbol, scope, inner, body, location⟩

theorem Leads.function {given : Setting} (hglobal : given.Global) :
    Leads given Parser.function fun function after =>
      given.ReadsItems [.function function] after := by
  refine Yields.type.then fun result hkind => Yields.identifier.then fun name _ => ?_
  refine (Yields.expect _).then fun _ _ => (Leads.enterScope globalScope).bind ?_
  rintro scope _ ⟨entered, henter, rfl⟩
  obtain ⟨hknown, hscope, hentered⟩ := Scopes.enter_eq_ok henter
  have hne : scope ≠ globalScope := by
    rw [hscope]
    exact Nat.ne_of_gt hknown
  have hempty : Parameterized entered scope [] := by
    refine ⟨hglobal.wellFormed.enter henter, hne, ⟨some globalScope, [], 0⟩, ?_, rfl, rfl, ?_, rfl⟩
    · simp [hentered, hscope]
    · trivial
  -- What follows the parameters, whether there are any or none.
  have hrest : ∀ (types : List Ty) (filled : Setting), Parameterized filled.scopes scope types →
      entered.Grows filled.scopes scope → filled = { given with scopes := filled.scopes } →
      Leads filled (functionRest result name scope types) fun function after =>
        given.ReadsItems [.function function] after := by
    intro types filled hfilled hgrows hsame
    refine (Yields.expect _).then fun _ _ => (Leads.reserve scope returnAddressSize).bind ?_
    rintro _ _ ⟨reserved, hreserve, rfl⟩
    refine (Leads.declare globalScope name (.function result types) false).bind ?_
    rintro symbol _ ⟨declared, hdeclare, rfl⟩
    refine (Leads.moveInto scope (some result)).bind ?_
    rintro _ _ rfl
    obtain ⟨hreserved, parameters, hparameters, hlayout⟩ := hfilled.reserve hreserve
    have hdeclared := hreserved.declare (fun h => by cases h) (fun _ h => absurd rfl h) hdeclare
    refine (Leads.block readsStatement_statement hdeclared).bind ?_
    rintro ⟨inner, body, location⟩ after ⟨hadvances, ⟨table, htable, hparent⟩, hbody⟩
    refine (Leads.moveInto globalScope none).bind ?_
    rintro _ _ rfl
    have hlater := (hadvances globalScope).grows
    have hdeclareGrows := Scopes.grows_declare hdeclare
    have hbefore := Scopes.grows_enter henter (hgrows.trans (Scopes.grows_reserve hreserve))
    have hnames : after.scopes.names = symbol.name :: given.scopes.names := by
      rw [(hadvances scope).grows.names_eq hdeclared (Ne.symm hne),
        (Scopes.names_declare hdeclare).1,
        (hbefore scope).names_eq hglobal.wellFormed (Ne.symm hne)]
    have hnew : symbol.name ∉ given.scopes.names := by
      rw [← (hbefore scope).names_eq hglobal.wellFormed (Ne.symm hne)]
      exact (Scopes.names_declare hdeclare).2
    have hfound : ∀ found, after.scopes.Visible globalScope found →
        given.scopes.Visible globalScope found ∨ found = symbol := by
      intro found hvisible
      have hfound := Scopes.Grows.visible_global_of_ne hdeclared (hadvances scope).wellFormed
        (hadvances scope).grows (Ne.symm hne) hvisible
      refine (Scopes.visible_global_of_declare hreserved hdeclared hdeclare hfound).imp_left ?_
      exact Scopes.Grows.visible_global_of_ne hglobal.wellFormed hreserved (hbefore scope)
        (Ne.symm hne)
    refine Leads.pure ⟨⟨(hadvances globalScope).wellFormed, rfl, rfl, ?_⟩,
      ((hbefore globalScope).trans hdeclareGrows).trans hlater, ?_, by simp, ?_, ?_, hnames⟩
    · show after.scopes.names.Nodup
      rw [hnames]
      exact List.nodup_cons.mpr ⟨hnew, hglobal.distinct⟩
    · intro function hmem
      cases List.mem_singleton.mp hmem
      have htype : symbol.type = .function result types := by
        obtain ⟨_, _, _, -, -, -, hsymbol, -⟩ := Scopes.declare_eq_ok hdeclare
        rw [hsymbol]
      have hlt := (List.getElem?_eq_some_iff.mp hparameters).1
      refine ⟨⟨result, types, parameters, htype, ?_, hlayout, ?_⟩, ?_, table, htable, hparent⟩
      · rw [hlater.other scope (Nat.lt_of_lt_of_le hlt hdeclareGrows.length_le) hne,
          hdeclareGrows.other scope hlt hne]
        exact hparameters
      · intro statement hstatement
        have hresult : after.result = some result := (hadvances globalScope).result
        have hreads := hbody statement hstatement
        rwa [hresult] at hreads
      · exact hlater.visible hdeclared hdeclared.length_pos (Scopes.visible_of_declare hdeclare)
    · intro found hvisible hfunction
      refine (hfound found hvisible).imp_right ?_
      rintro rfl
      exact ⟨_, List.mem_singleton.mpr rfl, rfl⟩
    · intro found hvisible
      refine (hfound found hvisible).imp_right ?_
      rintro rfl
      exact ⟨_, List.mem_singleton.mpr rfl, rfl⟩
  refine Yields.peek.then fun token _ => Leads.ite (fun _ => ?_) fun _ => ?_
  · exact hrest [] _ hempty (.refl _ _) rfl
  · refine Yields.bound.then fun count _ => (Leads.parameters scope count hempty).bind ?_
    rintro types filled ⟨hfilled, hgrows, hsame⟩
    exact hrest types filled (by simpa using hfilled) hgrows (by rw [hsame])

/-- A global variable is an item that is no function, and nothing that can be called. -/
theorem Declares.readsItems {given after : Setting} {declared : Declaration}
    (hglobal : given.Global) (h : Declares given declared after) :
    given.ReadsItems [.global declared] after := by
  have hadvances := h.advances hglobal.wellFormed
  obtain ⟨name, type, external, scopes, hkind, hscalar, hdeclare, rfl, hinitial⟩ := h
  rw [hglobal.scope] at hdeclare hadvances
  obtain ⟨_, _, _, -, -, -, hsymbol, -⟩ := Scopes.declare_eq_ok hdeclare
  have htype : declared.symbol.type = type := by rw [hsymbol]
  obtain ⟨hnames, hnew⟩ := Scopes.names_declare hdeclare
  have hfound : ∀ symbol, scopes.Visible globalScope symbol →
      given.scopes.Visible globalScope symbol ∨ symbol = declared.symbol := fun _ hvisible =>
    Scopes.visible_global_of_declare hglobal.wellFormed hadvances.wellFormed hdeclare hvisible
  refine ⟨⟨hadvances.wellFormed, hglobal.scope, hglobal.result, ?_⟩, hadvances.grows, by simp, ?_, ?_,
    ?_, hnames⟩
  · rw [hnames]
    exact List.nodup_cons.mpr ⟨hnew, hglobal.distinct⟩
  · intro read value hmem hvalue
    cases List.mem_singleton.mp hmem
    have hfound := hinitial value hvalue
    have hwf := hfound.wellFormed
    rw [hglobal.scope] at hwf
    rw [htype]
    exact ⟨hwf.grows hglobal.wellFormed hadvances.grows hglobal.wellFormed.length_pos, hfound.accepts,
      hfound.isInitializer hglobal.scope⟩
  · intro symbol hvisible hfunction
    refine (hfound symbol hvisible).imp_right ?_
    rintro rfl
    rw [htype, hkind] at hfunction
    cases hfunction
  · intro symbol hvisible
    refine (hfound symbol hvisible).imp_right ?_
    rintro rfl
    exact ⟨_, List.mem_singleton.mpr rfl, rfl⟩

theorem Setting.ReadsItems.append {given middle after : Setting} {items more : List Item}
    (h : given.ReadsItems items middle) (h' : middle.ReadsItems more after) :
    given.ReadsItems (items ++ more) after := by
  refine ⟨h'.global, h.grows.trans h'.grows, ?_, ?_, ?_, ?_, by simp [h'.names, h.names]⟩
  · intro function hmem
    rcases List.mem_append.mp hmem with hmem | hmem
    · exact (h.functions function hmem).grows h.global.wellFormed h'.grows
    · exact h'.functions function hmem
  · intro declared value hmem hvalue
    rcases List.mem_append.mp hmem with hmem | hmem
    · obtain ⟨hwf, hrest⟩ := h.globals declared value hmem hvalue
      exact ⟨hwf.grows h.global.wellFormed h'.grows h.global.wellFormed.length_pos, hrest⟩
    · exact h'.globals declared value hmem hvalue
  · intro symbol hvisible hfunction
    rcases h'.defined symbol hvisible hfunction with hmiddle | ⟨function, hmem, hsymbol⟩
    · rcases h.defined symbol hmiddle hfunction with hold | ⟨function, hmem, hsymbol⟩
      · exact Or.inl hold
      · exact Or.inr ⟨function, List.mem_append_left _ hmem, hsymbol⟩
    · exact Or.inr ⟨function, List.mem_append_right _ hmem, hsymbol⟩
  · intro symbol hvisible
    rcases h'.known symbol hvisible with hmiddle | ⟨item, hmem, hsymbol⟩
    · refine (h.known symbol hmiddle).imp_right ?_
      rintro ⟨item, hmem, hsymbol⟩
      exact ⟨item, List.mem_append_left _ hmem, hsymbol⟩
    · exact Or.inr ⟨item, List.mem_append_right _ hmem, hsymbol⟩

namespace Leads

theorem item {given : Setting} (hglobal : given.Global) :
    Leads given Parser.item fun item after => given.ReadsItems [item] after := by
  refine Yields.get.then fun state _ => ite (fun _ => ?_) fun _ => ?_
  · exact (function hglobal).bind fun function after h => pure h
  · refine (declaration hglobal.wellFormed).bind fun declared after h => ?_
    exact (Yields.expect _).then fun _ _ => pure (h.readsItems hglobal)

theorem items (count : Nat) {given : Setting} (hglobal : given.Global) :
    Leads given (Parser.items count) fun items after => given.ReadsItems items after := by
  induction count generalizing given with
  | zero => exact pure (.nil hglobal)
  | succ count ih =>
      refine Yields.peek.then fun token _ => ite (fun _ => pure (.nil hglobal)) fun _ => ?_
      refine (item hglobal).bind fun first middle hfirst => ?_
      exact (ih hfirst.global).bind fun rest after h => pure (hfirst.append h)

/-- One of the items is named as the main function, and can be called. -/
theorem program {given : Setting} (hglobal : given.Global) :
    Leads given Parser.program fun items after => given.ReadsItems items after ∧
      ∃ main, after.scopes.lookup globalScope mainName = .ok main ∧ main.type.isFunction = true := by
  refine Yields.bound.then fun count _ => (items count hglobal).bind fun list after h => ?_
  refine Yields.get.then fun state hstate => ?_
  have hscopes : state.scopes = after.scopes := by rw [← hstate]; rfl
  rw [hscopes]
  split
  next main hmain => exact ite (fun hfunction => pure ⟨h, main, hmain, hfunction⟩) fun _ => fail
  next => exact fail

end Leads

end Parser

namespace Program

/-- Reading tokens is reading items from the setting of an empty program. -/
theorem ofTokens_reads {tokens : List (Located Token)} {parsed : Parsed}
    (h : Program.ofTokens tokens = .ok parsed) :
    ∃ after, Parser.Setting.ReadsItems ⟨.initial, globalScope, none⟩ parsed.program.items after ∧
      (∃ main, after.scopes.lookup globalScope mainName = .ok main ∧ main.type.isFunction = true) ∧
      parsed.program.scopes = after.scopes := by
  simp only [Program.ofTokens] at h
  split at h
  next list state hrun =>
    cases h
    have hglobal : Parser.Setting.Global ⟨.initial, globalScope, none⟩ :=
      ⟨Scopes.initial_wellFormed, rfl, rfl, List.nodup_nil⟩
    obtain ⟨hread, hmain⟩ := Parser.Leads.program hglobal _ rfl list state hrun
    exact ⟨_, hread, hmain, rfl⟩
  next => cases h

/-- A program that is read from tokens is well-formed. -/
theorem ofTokens_wellFormed {tokens : List (Located Token)} {parsed : Parsed}
    (h : Program.ofTokens tokens = .ok parsed) : parsed.program.WellFormed := by
  obtain ⟨after, hread, -, hscopes⟩ := ofTokens_reads h
  refine ⟨hscopes ▸ hread.global.wellFormed, hscopes ▸ hread.functions, hscopes ▸ hread.globals, ?_, ?_⟩
  · intro symbol hvisible hfunction
    rw [hscopes] at hvisible
    exact (hread.defined symbol hvisible hfunction).resolve_left Scopes.not_visible_initial
  · have hnames := hread.names ▸ hread.global.distinct
    exact List.nodup_reverse.mp (List.Nodup.of_append_left hnames)

/-- What is visible everywhere in a program that is read is declared by an item. -/
theorem ofTokens_known {tokens : List (Located Token)} {parsed : Parsed}
    (h : Program.ofTokens tokens = .ok parsed) {symbol : Symbol}
    (hvisible : parsed.program.scopes.Visible globalScope symbol) :
    ∃ item ∈ parsed.program.items, item.symbol = symbol := by
  obtain ⟨after, hread, -, hscopes⟩ := ofTokens_reads h
  rw [hscopes] at hvisible
  exact (hread.known symbol hvisible).resolve_left Scopes.not_visible_initial

/-- A program that is read has a main function. -/
theorem ofTokens_main {tokens : List (Located Token)} {parsed : Parsed}
    (h : Program.ofTokens tokens = .ok parsed) :
    ∃ main, .function main ∈ parsed.program.items ∧ main.symbol.name = mainName := by
  obtain ⟨after, hread, ⟨main, hlookup, hfunction⟩, -⟩ := ofTokens_reads h
  have hvisible := Scopes.lookup_visible hread.global.wellFormed hlookup
  obtain ⟨function, hmem, rfl⟩ :=
    (hread.defined main hvisible hfunction).resolve_left Scopes.not_visible_initial
  exact ⟨function, hmem, Scopes.lookup_name hlookup⟩

end Program

/-! ## A program that counts down -/

/-- Whether an item is a function of which something holds. -/
def Item.isFunctionWith (holds : Function → Bool) : Item → Bool
  | .global _ => false
  | .function defined => holds defined

theorem Item.isFunctionWith_eq_true {holds : Function → Bool} {item : Item} :
    item.isFunctionWith holds = true ↔
      ∃ defined, item = .function defined ∧ holds defined = true := by
  cases item with
  | global => simp [isFunctionWith]
  | function => simp [isFunctionWith]

/-- The tokens of a function with a loop and a local variable,
`char step(char n) { while (n) { char k = n - 1; n = k; } return n + 2; }`, and of a function that
calls it twice, `char main() { return step(1 + step(2)); }`. -/
def countdownTokens : List (Located Token) :=
  ([.keyword .charType, .identifier "step", .mark .openParen, .keyword .charType, .identifier "n",
    .mark .closeParen, .mark .openBrace, .keyword .whileLoop, .mark .openParen, .identifier "n",
    .mark .closeParen, .mark .openBrace, .keyword .charType, .identifier "k", .mark .assign,
    .identifier "n", .mark .minus, .integer 1, .mark .semicolon, .identifier "n", .mark .assign,
    .identifier "k", .mark .semicolon, .mark .closeBrace, .keyword .returning, .identifier "n",
    .mark .plus, .integer 2, .mark .semicolon, .mark .closeBrace, .keyword .charType,
    .identifier "main", .mark .openParen, .mark .closeParen, .mark .openBrace, .keyword .returning,
    .identifier "step", .mark .openParen, .integer 1, .mark .plus, .identifier "step",
    .mark .openParen, .integer 2, .mark .closeParen, .mark .closeParen, .mark .semicolon,
    .mark .closeBrace] : List Token).map (⟨·, .startOf "<input>"⟩)

/-- What is read from them. -/
def countdown : Parsed := (Program.ofTokens countdownTokens).toOption.getD ⟨⟨[], .initial⟩, []⟩

/-- The tokens of the program are read. -/
theorem countdown_read : Program.ofTokens countdownTokens = .ok countdown :=
  eq_ok_of_isOk (by decide +kernel) _

theorem countdown_items : ∃ step main, countdown.program.items = [.function step, .function main] := by
  have hlength : countdown.program.items.length = 2 := by decide +kernel
  have hfunctions : (countdown.program.items.all (·.isFunctionWith fun _ => true)) = true := by
    decide +kernel
  obtain ⟨first, second, hitems⟩ := List.length_eq_two.mp hlength
  simp only [hitems, List.all_cons, List.all_nil, Bool.and_eq_true,
    Item.isFunctionWith_eq_true] at hfunctions
  obtain ⟨⟨step, hstep, -⟩, ⟨main, hmain, -⟩, -⟩ := hfunctions
  exact ⟨step, main, by rw [hitems, hstep, hmain]⟩

end AccumulatorC
