import AccumulatorC.Proofs.Program.Surroundings

/-!
# Elaboration binds names by their surroundings

The scopes of a table on the chain of the innermost one are the surroundings of a place when they have
declared the same symbols, and then a lookup in the table gives what a name means there. A phrase that
elaborates keeps this up, so it binds its names by what is declared around them.
-/

namespace AccumulatorC

/-! ## Tables and surroundings -/

namespace Scopes

variable {scopes after final : Scopes} {layer : Layer} {outer : List Layer}

/-- The scopes of a table at a place: each lies in the next one, the last one is the scope that
encloses all others, and they have declared these symbols. -/
inductive Surround (scopes : Scopes) : List Layer → Prop
  | outermost {symbols : List Symbol} {frame : Nat}
      (h : scopes.list[globalScope]? = some ⟨none, symbols, frame⟩) :
      Surround scopes [⟨globalScope, symbols⟩]
  | inside {layer next : Layer} {outer : List Layer} {frame : Nat}
      (h : scopes.list[layer.scope]? = some ⟨some next.scope, layer.symbols, frame⟩)
      (hlt : next.scope < layer.scope) (houter : Surround scopes (next :: outer)) :
      Surround scopes (layer :: next :: outer)

namespace Surround

theorem known (h : scopes.Surround (layer :: outer)) :
    ∃ table, scopes.list[layer.scope]? = some table ∧ table.symbols = layer.symbols := by
  cases h with
  | outermost h => exact ⟨_, h, rfl⟩
  | inside h => exact ⟨_, h, rfl⟩

/-- The scopes further out have smaller numbers. -/
theorem lt_of_mem (h : scopes.Surround (layer :: outer)) :
    ∀ other ∈ outer, other.scope < layer.scope := by
  generalize hlayers : layer :: outer = layers at h
  induction h generalizing layer outer with
  | outermost =>
      cases hlayers
      exact List.forall_mem_nil _
  | inside _ hlt _ ih =>
      cases hlayers
      refine List.forall_mem_cons.mpr ⟨hlt, fun other hother => ?_⟩
      exact Nat.lt_trans (ih rfl other hother) hlt

/-- Only the scopes at the place matter. -/
theorem congr (h : scopes.Surround outer)
    (hsame : ∀ layer ∈ outer, after.list[layer.scope]? = scopes.list[layer.scope]?) :
    after.Surround outer := by
  induction h with
  | outermost h => exact .outermost ((hsame _ List.mem_cons_self).trans h)
  | inside h hlt _ ih =>
      obtain ⟨hinner, houter⟩ := List.forall_mem_cons.mp hsame
      exact .inside (hinner.trans h) hlt (ih houter)

theorem lt_length (h : scopes.Surround (layer :: outer)) :
    ∀ other ∈ layer :: outer, other.scope < scopes.list.length := by
  obtain ⟨table, htable, -⟩ := h.known
  have hlt := (List.getElem?_eq_some_iff.mp htable).1
  exact List.forall_mem_cons.mpr ⟨hlt, fun other hother =>
    Nat.lt_trans (h.lt_of_mem other hother) hlt⟩

/-- What happens inside a new scope leaves the surroundings as they are. -/
theorem enters {id parent : ScopeId} (h : scopes.Surround (layer :: outer))
    (henter : scopes.enter parent = .ok (id, after)) (hgrows : after.Grows final id) :
    final.Surround (layer :: outer) :=
  have hnew := grows_enter henter hgrows scopes.list.length
  h.congr fun other hother =>
    hnew.other other.scope (h.lt_length other hother) (Nat.ne_of_lt (h.lt_length other hother))

theorem enter {id : ScopeId} (h : scopes.Surround (layer :: outer))
    (henter : scopes.enter layer.scope = .ok (id, after)) :
    after.Surround (⟨id, []⟩ :: layer :: outer) := by
  have hsame := h.enters henter (.refl after id)
  obtain ⟨hlt, rfl, rfl⟩ := enter_eq_ok henter
  refine @inside _ ⟨_, []⟩ layer outer 0 ?_ hlt hsame
  rw [List.getElem?_append_right (Nat.le_refl _), Nat.sub_self]
  rfl

/-- The innermost scope gets symbols and bytes. -/
theorem set {table : Scope} (h : scopes.Surround (layer :: outer))
    (htable : scopes.list[layer.scope]? = some table) (symbols : List Symbol) (frame : Nat) :
    (scopes.set layer.scope ⟨table.parent, symbols, frame⟩).Surround
      (⟨layer.scope, symbols⟩ :: outer) := by
  have hown : (scopes.set layer.scope ⟨table.parent, symbols, frame⟩).list[layer.scope]? =
      some ⟨table.parent, symbols, frame⟩ := by
    rw [list_set, if_pos rfl, htable]
    rfl
  have hothers : ∀ other ∈ outer,
      (scopes.set layer.scope ⟨table.parent, symbols, frame⟩).list[other.scope]? =
        scopes.list[other.scope]? := fun other hother => by
    rw [list_set, if_neg (Nat.ne_of_gt (h.lt_of_mem other hother))]
  cases h with
  | outermost h =>
      rw [htable, Option.some.injEq] at h
      subst h
      exact .outermost hown
  | inside h hlt houter =>
      rw [htable, Option.some.injEq] at h
      subst h
      exact .inside hown hlt (houter.congr hothers)

theorem reserve {bytes : Nat} (h : scopes.Surround (layer :: outer))
    (hreserve : scopes.reserve layer.scope bytes = .ok after) : after.Surround (layer :: outer) := by
  obtain ⟨table, htable, hsymbols⟩ := h.known
  obtain ⟨reserved, hreserved, -, rfl⟩ := reserve_eq_ok hreserve
  obtain rfl : table = reserved := Option.some.inj (htable.symm.trans hreserved)
  have hset := h.set htable table.symbols (table.frame + bytes)
  rw [hsymbols] at hset ⊢
  exact hset

theorem around {next : Layer} (h : scopes.Surround (layer :: next :: outer)) :
    scopes.Surround (next :: outer) := by
  cases h with
  | inside _ _ houter => exact houter

/-- The scope around the innermost one gets symbols. -/
theorem declares {next : Layer} {symbols : List Symbol}
    (h : scopes.Surround (layer :: next :: outer)) (hgrows : scopes.Grows after next.scope)
    (hafter : after.Surround (⟨next.scope, symbols⟩ :: outer)) :
    after.Surround (layer :: ⟨next.scope, symbols⟩ :: outer) := by
  have hknown := h.lt_length layer List.mem_cons_self
  cases h with
  | inside h hlt _ =>
      exact .inside ((hgrows.other layer.scope hknown (Nat.ne_of_gt hlt)).trans h) hlt hafter

theorem chain_eq (h : scopes.Surround (layer :: outer)) :
    scopes.chain layer.scope = (layer :: outer).map (·.scope) := by
  generalize hlayers : layer :: outer = layers at h
  induction h generalizing layer outer with
  | outermost h =>
      cases hlayers
      exact chain_of_root h rfl
  | inside h hlt houter ih =>
      cases hlayers
      rw [chain_of_parent h rfl hlt, ih rfl]
      rfl

theorem findSome?_eq {layers : List Layer} (h : scopes.Surround layers) (name : String) :
    (layers.findSome? fun layer =>
      (scopes.list[layer.scope]?).bind fun table => table.symbols.find? (·.name = name)) =
      layers.findSome? fun layer => layer.symbols.find? (·.name = name) := by
  induction h with
  | outermost h =>
      rw [List.findSome?_cons, List.findSome?_cons, h]
      rfl
  | inside h _ _ ih =>
      rw [List.findSome?_cons, ih, h]
      rfl

/-- A lookup gives what the name means. -/
theorem lookup?_eq {around : Surroundings} (h : scopes.Surround around.layers) (name : String) :
    scopes.lookup? around.scope name = around.meaning name := by
  rw [lookup?, Surroundings.scope, chain_eq h, List.findSome?_map]
  exact h.findSome?_eq name

end Surround

/-- A table keeps the scopes of another one inside each other. -/
def Extends (scopes final : Scopes) : Prop :=
  ∀ (id : ScopeId) (table : Scope), scopes.list[id]? = some table →
    ∃ other : Scope, final.list[id]? = some other ∧ other.parent = table.parent

theorem Extends.refl (scopes : Scopes) : scopes.Extends scopes := fun _ table h => ⟨table, h, rfl⟩

theorem Extends.before (h : after.Extends final) {current : ScopeId}
    (hgrows : scopes.Grows after current) : scopes.Extends final := by
  intro id table htable
  obtain ⟨symbols, frame, hafter, -⟩ := hgrows.get htable
  obtain ⟨other, hother, hparent⟩ := h id _ hafter
  exact ⟨other, hother, hparent⟩

theorem Extends.parent_of_enter {id parent : ScopeId} (h : after.Extends final)
    (henter : scopes.enter parent = .ok (id, after)) : final.parent id = .ok (some parent) := by
  obtain ⟨-, rfl, rfl⟩ := enter_eq_ok henter
  obtain ⟨other, hother, hparent⟩ := h scopes.list.length ⟨some parent, [], 0⟩ (by simp)
  rw [Scopes.parent, get_eq_ok.mpr hother]
  exact congrArg Except.ok hparent

end Scopes

/-! ## Declarations -/

/-- A declaration extends the innermost layer by what it declares. -/
theorem Scopes.binds_of_declare {scopes after : Scopes} {around : Surroundings} {name : String}
    {type : Ty} {external : Bool} {symbol : Symbol} {initial : Option Term} {e : Option Expr}
    (h : scopes.Surround around.layers)
    (hdeclare : scopes.declare around.scope name nowhere type external = .ok (symbol, after))
    (hinitial : Option.Rel (Term.Binds around) initial e) :
    Variable.Binds around ⟨external, type, name, initial⟩ ⟨symbol, e⟩ ∧
      after.Surround (around.declare symbol).layers := by
  obtain ⟨table, storage, frame, htable, hfresh, -, rfl, rfl⟩ := declare_eq_ok hdeclare
  obtain ⟨known, hknown, hsymbols⟩ := h.known
  obtain rfl : table = known := Option.some.inj (htable.symm.trans hknown)
  refine ⟨⟨rfl, rfl, rfl, fun earlier hearlier => ?_, hinitial⟩, ?_⟩
  · simpa using List.find?_eq_none.mp hfresh earlier (hsymbols.symm ▸ hearlier)
  · rw [hsymbols]
    exact h.set htable _ frame

/-- A setting has these surroundings. -/
structure Parser.Setting.At (given : Parser.Setting) (around : Surroundings) : Prop where
  scopes : given.scopes.Surround around.layers
  scope : given.scope = around.scope

theorem Parser.Setting.At.meaning_eq {given : Parser.Setting} {around : Surroundings}
    (h : given.At around) : given.meaning = around.meaning := by
  obtain ⟨table, htable, -⟩ := h.scopes.known
  have hknown : given.scopes.get around.scope = .ok table := Scopes.get_eq_ok.mpr htable
  funext name
  rw [Setting.meaning, h.scope, Scopes.lookup, hknown, h.scopes.lookup?_eq name]
  cases around.meaning name <;> rfl

theorem Parser.Setting.At.of_enter {scopes entered : Scopes} {result : Option Ty} {layer : Layer}
    {outer : List Layer} (h : scopes.Surround (layer :: outer)) {id : ScopeId}
    (henter : scopes.enter layer.scope = .ok (id, entered)) :
    Parser.Setting.At ⟨entered, id, result⟩ (Surroundings.enter ⟨layer, outer⟩ id) :=
  ⟨Scopes.Surround.enter h henter, rfl⟩

/-- The names in a term mean the innermost declarations around it. -/
theorem Term.Elaborates.binds {given : Parser.Setting} {around : Surroundings} (h : given.At around)
    {t : Term} {e : Expr} {warnings : List Conversion}
    (he : t.Elaborates given.meaning given.scope e warnings) : t.Binds around e := by
  rw [h.meaning_eq, h.scope] at he
  exact ⟨warnings, he⟩

/-- A variable is declared after its initial value, which does not see it. -/
theorem Variable.Elaborates.binds {given after : Parser.Setting} {declared : Variable}
    {d : Declaration} {warnings : List Conversion} (h : declared.Elaborates given d after warnings)
    {around : Surroundings} (hgiven : given.At around) :
    declared.Binds around d ∧ after.At (around.declare d.symbol) := by
  cases h with
  | plain _ hdeclare =>
      obtain ⟨hbinds, hafter⟩ :=
        Scopes.binds_of_declare hgiven.scopes (hgiven.scope ▸ hdeclare) .none
      exact ⟨hbinds, hafter, hgiven.scope⟩
  | initial hvalue _ _ hdeclare =>
      obtain ⟨hbinds, hafter⟩ := Scopes.binds_of_declare hgiven.scopes (hgiven.scope ▸ hdeclare)
        (.some (hvalue.binds hgiven))
      exact ⟨hbinds, hafter, hgiven.scope⟩

/-! ## Phrases -/

mutual

/-- Every name in a phrase is bound to the innermost declaration before it, and blocks see what
stands around them. -/
theorem Phrase.Elaborates.binds {final : Scopes} : ∀ {given after : Parser.Setting} {phrase : Phrase}
    {statement : Statement} {warnings : List Conversion},
    phrase.Elaborates given statement after warnings → after.scopes.Extends final →
      ∀ {around : Surroundings}, given.At around →
        ∃ around', phrase.Binds final around statement around' ∧ after.At around'
  | _, _, _, _, _, .declaration h, _, _, hgiven => by
      obtain ⟨hbinds, hafter⟩ := h.binds hgiven
      exact ⟨_, .declaration hbinds, hafter⟩
  | _, _, _, _, _, .expression h _, _, _, hgiven => ⟨_, .expression (h.binds hgiven), hgiven⟩
  | _, _, _, _, _, .returnNothing _, _, _, hgiven => by
      rw [hgiven.scope]
      exact ⟨_, .returning .none, hgiven⟩
  | _, _, _, _, _, .returnValue h _, _, _, hgiven => by
      have hbinds := h.binds hgiven
      rw [hgiven.scope]
      exact ⟨_, .returning (.some hbinds), hgiven⟩
  | _, _, _, _, _, .branch hcondition _ hyes, hfinal, _, hgiven => by
      obtain ⟨_, hbinds, hafter⟩ := hyes.binds hfinal hgiven
      exact ⟨_, .branch (hcondition.binds hgiven) hbinds, hafter⟩
  | _, _, _, _, _, .choice hcondition _ hyes hno, hfinal, _, hgiven => by
      obtain ⟨_, hbinds, hmiddle⟩ := hyes.binds (hfinal.before hno.grows) hgiven
      obtain ⟨_, hbinds', hafter⟩ := hno.binds hfinal hmiddle
      exact ⟨_, .choice (hcondition.binds hgiven) hbinds hbinds', hafter⟩
  | _, _, _, _, _, .loop hcondition _ hbody, hfinal, _, hgiven => by
      obtain ⟨_, hbinds, hafter⟩ := hbody.binds hfinal hgiven
      exact ⟨_, .loop (hcondition.binds hgiven) hbinds, hafter⟩
  | _, _, _, _, _, .block henter hbody, hfinal, around, hgiven => by
      -- What the body declares is forgotten behind it: the surroundings are those before it.
      rw [hgiven.scope] at henter
      obtain ⟨_, hbinds, -⟩ := hbody.binds hfinal (.of_enter hgiven.scopes henter)
      have hparent := (hfinal.before hbody.grows).parent_of_enter henter
      exact ⟨_, .block hparent hbinds, hgiven.scopes.enters henter hbody.grows, hgiven.scope⟩

/-- Phrases behind each other see the declarations of those before them. -/
theorem Phrase.AllElaborate.binds {final : Scopes} : ∀ {given after : Parser.Setting}
    {phrases : List Phrase} {statements : List Statement} {warnings : List Conversion},
    AllElaborate given phrases statements after warnings → after.scopes.Extends final →
      ∀ {around : Surroundings}, given.At around →
        ∃ around', AllBind final around phrases statements around' ∧ after.At around'
  | _, _, _, _, _, .nil, _, _, hgiven => ⟨_, .nil, hgiven⟩
  | _, _, _, _, _, .cons h hrest, hfinal, _, hgiven => by
      obtain ⟨_, hbinds, hmiddle⟩ := h.binds (hfinal.before hrest.grows) hgiven
      obtain ⟨_, hbinds', hafter⟩ := hrest.binds hfinal hmiddle
      exact ⟨_, .cons hbinds hbinds', hafter⟩

end

/-! ## Functions -/

/-- Parameters are declared from left to right. -/
theorem Parameter.AllElaborate.binds {scope : ScopeId} {scopes after : Scopes}
    {parameters : List Parameter} (h : AllElaborate scope scopes parameters after)
    {symbols : List Symbol} {outer : List Layer}
    (hscopes : scopes.Surround (Surroundings.mk ⟨scope, symbols⟩ outer).layers) :
    ∃ known, AllBind ⟨⟨scope, symbols⟩, outer⟩ parameters ⟨⟨scope, known⟩, outer⟩ ∧
      after.Surround (Surroundings.mk ⟨scope, known⟩ outer).layers := by
  induction h generalizing symbols with
  | nil => exact ⟨symbols, .nil, hscopes⟩
  | cons _ hdeclare _ ih =>
      obtain ⟨hbinds, hmiddle⟩ := Scopes.binds_of_declare hscopes hdeclare .none
      obtain ⟨known, hrest, hafter⟩ := ih hmiddle
      exact ⟨known, .cons hbinds hrest, hafter⟩

/-- A function is declared before its body, which sees it and its parameters. -/
theorem Routine.Elaborates.binds {scopes after final : Scopes} {defined : Routine} {f : Function}
    {warnings : List Conversion} (h : defined.Elaborates scopes f after warnings)
    (hfinal : after.Extends final) {around : Surroundings} (hscopes : scopes.Surround around.layers)
    (hscope : around.scope = globalScope) :
    defined.Binds final around f ∧ after.Surround (around.declare f.symbol).layers := by
  obtain ⟨henter, hparameters, hreserve, hdeclare, hopen, hbody⟩ := h
  -- Each table on the way lies before the final one, whose parents are claimed.
  have hopened := hfinal.before hbody.grows
  have hdeclared := hopened.before (Scopes.grows_enter hopen (.refl _ _) globalScope)
  have hreserved := hdeclared.before (Scopes.grows_declare hdeclare)
  have hentered := (hreserved.before (Scopes.grows_reserve hreserve)).before hparameters.grows
  rw [← hscope] at henter hdeclare
  have hframe : Scopes.Surround _ (around.enter _).layers := Scopes.Surround.enter hscopes henter
  obtain ⟨known, hknown, hparameterized⟩ := hparameters.binds hframe
  -- The bytes of the return address belong to no symbol.
  have hbytes := Scopes.Surround.reserve hparameterized hreserve
  have hglobals : Scopes.Surround _ around.layers := hbytes.around
  obtain ⟨hsymbol, hglobal⟩ := Scopes.binds_of_declare hglobals hdeclare .none
  have hwithin := hbytes.declares (Scopes.grows_declare hdeclare) hglobal
  obtain ⟨_, hbinds, -⟩ := hbody.binds hfinal (.of_enter hwithin hopen)
  have hparent := hentered.parent_of_enter henter
  have hinner := hopened.parent_of_enter hopen
  exact ⟨.mk hparent hknown hsymbol hinner hbinds, hglobal.enters hopen hbody.grows⟩

/-! ## Sources -/

theorem Entry.Elaborates.binds {scopes after final : Scopes} {entry : Entry} {item : Item}
    {warnings : List Conversion} (h : entry.Elaborates scopes item after warnings)
    (hfinal : after.Extends final) {around : Surroundings} (hscopes : scopes.Surround around.layers)
    (hscope : around.scope = globalScope) :
    entry.Binds final around item ∧ after.Surround (around.declare item.symbol).layers := by
  cases h with
  | global h =>
      obtain ⟨hbinds, hafter⟩ := h.binds ⟨hscopes, hscope.symm⟩
      exact ⟨.global hbinds, hafter.scopes⟩
  | function h =>
      obtain ⟨hbinds, hafter⟩ := h.binds hfinal hscopes hscope
      exact ⟨.function hbinds, hafter⟩

/-- The entries of a source see those before them. -/
theorem Entry.AllElaborate.binds {scopes after final : Scopes} {entries : List Entry}
    {items : List Item} {warnings : List Conversion}
    (h : AllElaborate scopes entries items after warnings) (hfinal : after.Extends final)
    {around : Surroundings} (hscopes : scopes.Surround around.layers)
    (hscope : around.scope = globalScope) : AllBind final around entries items := by
  induction h generalizing around with
  | nil => exact .nil
  | cons h hrest ih =>
      obtain ⟨hbinds, hmiddle⟩ := h.binds (hfinal.before hrest.grows) hscopes hscope
      exact .cons hbinds (ih hfinal hmiddle hscope)

end AccumulatorC
