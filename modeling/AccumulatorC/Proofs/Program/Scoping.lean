import Mathlib.Data.List.Nodup
import AccumulatorC.Proofs.Breakdown
import AccumulatorC.Scope

/-!
# Well-formed scope tables

A scope table is well-formed when every scope but the global one lies in a scope with a
smaller number and when the symbols of a frame take disjoint bytes inside it. Entering a
scope, declaring a name and reserving bytes keep a table well-formed, and what was
declared before stays where it is.
-/

namespace AccumulatorC

/-- Where a symbol of a scope may live: at a label in the global scope alone, in the frame of
every other scope with all its bytes, or elsewhere. -/
def Scope.Places (id : ScopeId) (scope : Scope) (symbol : Symbol) : Prop :=
  match symbol.storage with
  | .labelled => id = globalScope
  | .framed offset =>
      id ≠ globalScope ∧ symbol.type.isScalar = true ∧
        offset + symbol.type.size ≤ scope.frame
  | .external => symbol.type.isFunction = false

/-- A later symbol of a frame lies behind an earlier one. -/
def Symbol.Behind (later earlier : Symbol) : Prop :=
  ∀ offset offset', later.storage = .framed offset → earlier.storage = .framed offset' →
    offset' + earlier.type.size ≤ offset

namespace Scopes

/-- A table whose scopes are nested and whose frames hold their symbols side by side. -/
structure WellFormed (scopes : Scopes) : Prop where
  /-- The global scope has no frame and lies in no other one. -/
  root : ∃ symbols, scopes.list[globalScope]? = some ⟨none, symbols, 0⟩
  /-- Every other scope lies in an earlier one. -/
  nested : ∀ (id : ScopeId) (scope : Scope), scopes.list[id]? = some scope → id ≠ globalScope →
    ∃ parent, scope.parent = some parent ∧ parent < id
  /-- A symbol knows its scope and lives where its scope places it. -/
  placed : ∀ (id : ScopeId) (scope : Scope) (symbol : Symbol),
    scopes.list[id]? = some scope → symbol ∈ scope.symbols →
    symbol.scope = id ∧ scope.Places id symbol
  /-- The symbols of a frame do not overlap. -/
  apart : ∀ (id : ScopeId) (scope : Scope), scopes.list[id]? = some scope →
    scope.symbols.Pairwise Symbol.Behind

/-- A symbol can be meant in a scope: one around it has declared the symbol. -/
def Visible (scopes : Scopes) (id : ScopeId) (symbol : Symbol) : Prop :=
  symbol.scope ∈ scopes.chain id ∧
    ∃ scope, scopes.list[symbol.scope]? = some scope ∧ symbol ∈ scope.symbols

/-- One table comes from another while a scope is the innermost one: that scope may have got
symbols and bytes, scopes may have been added, and all else is as it was. -/
structure Grows (before after : Scopes) (current : ScopeId) : Prop where
  length_le : before.list.length ≤ after.list.length
  other : ∀ id, id < before.list.length → id ≠ current →
    after.list[id]? = before.list[id]?
  innermost : ∀ scope, before.list[current]? = some scope →
    ∃ symbols frame, after.list[current]? = some ⟨scope.parent, symbols ++ scope.symbols, frame⟩ ∧
      scope.frame ≤ frame

/-- The scopes are well-formed from the beginning. -/
theorem initial_wellFormed : initial.WellFormed where
  root := ⟨[], rfl⟩
  nested id scope h hne := by
    cases id with
    | zero => exact absurd rfl hne
    | succ id => simp [initial] at h
  placed id scope symbol h hmem := by
    cases id with
    | zero =>
        simp only [initial, List.getElem?_cons_zero, Option.some.injEq] at h
        subst h
        simp at hmem
    | succ id => simp [initial] at h
  apart id scope h := by
    cases id with
    | zero =>
        simp only [initial, List.getElem?_cons_zero, Option.some.injEq] at h
        subst h
        exact List.Pairwise.nil
    | succ id => simp [initial] at h

/-! ## The chain of enclosing scopes -/

section Chain

variable {scopes : Scopes} {id parent : ScopeId} {scope : Scope}

theorem mem_chain_self (scopes : Scopes) (id : ScopeId) : id ∈ scopes.chain id := by
  rw [chain]
  exact List.mem_cons_self

theorem chain_of_parent (h : scopes.list[id]? = some scope) (hparent : scope.parent = some parent)
    (hlt : parent < id) : scopes.chain id = id :: scopes.chain parent := by
  rw [chain]
  simp [h, hparent, hlt]

theorem chain_of_root (h : scopes.list[id]? = some scope) (hparent : scope.parent = none) :
    scopes.chain id = [id] := by
  rw [chain]
  simp [h, hparent]

/-- Scopes further out were entered earlier. -/
theorem le_of_mem_chain {outer : ScopeId} (h : outer ∈ scopes.chain id) : outer ≤ id := by
  induction id using Nat.strongRecOn with
  | ind id ih =>
      rw [chain] at h
      rcases List.mem_cons.mp h with rfl | h
      · exact Nat.le_refl _
      · cases hp : (scopes.list[id]?).bind (·.parent) with
        | none => simp [hp] at h
        | some parent =>
            simp only [hp] at h
            split at h
            next hlt => exact Nat.le_trans (ih parent hlt h) (Nat.le_of_lt hlt)
            next => simp at h

theorem WellFormed.lt_of_parent (hwf : scopes.WellFormed) (h : scopes.list[id]? = some scope)
    (hparent : scope.parent = some parent) : parent < id := by
  by_cases hid : id = globalScope
  · subst hid
    obtain ⟨symbols, hroot⟩ := hwf.root
    rw [hroot, Option.some.injEq] at h
    subst h
    simp at hparent
  · obtain ⟨other, hother, hlt⟩ := hwf.nested id scope h hid
    rw [hparent, Option.some.injEq] at hother
    exact hother ▸ hlt

theorem WellFormed.chain_global (hwf : scopes.WellFormed) :
    scopes.chain globalScope = [globalScope] := by
  obtain ⟨symbols, hroot⟩ := hwf.root
  exact chain_of_root hroot rfl

/-- The chain of a known scope is that scope followed by the chain of the scope around it. -/
theorem WellFormed.chain_cons (hwf : scopes.WellFormed) (h : scopes.list[id]? = some scope)
    (hid : id ≠ globalScope) :
    ∃ parent, scope.parent = some parent ∧ parent < id ∧
      scopes.chain id = id :: scopes.chain parent := by
  obtain ⟨parent, hparent, hlt⟩ := hwf.nested id scope h hid
  exact ⟨parent, hparent, hlt, chain_of_parent h hparent hlt⟩

end Chain

/-! ## Growing tables -/

namespace Grows

variable {before middle after : Scopes} {current id : ScopeId} {scope : Scope}

theorem refl (scopes : Scopes) (current : ScopeId) : scopes.Grows scopes current where
  length_le := Nat.le_refl _
  other _ _ _ := rfl
  innermost scope h := ⟨[], scope.frame, h, Nat.le_refl _⟩

theorem trans (h : before.Grows middle current) (h' : middle.Grows after current) :
    before.Grows after current where
  length_le := Nat.le_trans h.length_le h'.length_le
  other id hid hne := by
    rw [h'.other id (Nat.lt_of_lt_of_le hid h.length_le) hne, h.other id hid hne]
  innermost scope hscope := by
    obtain ⟨symbols, frame, hmiddle, hle⟩ := h.innermost scope hscope
    obtain ⟨symbols', frame', hafter, hle'⟩ := h'.innermost _ hmiddle
    exact ⟨symbols' ++ symbols, frame', by simpa using hafter, Nat.le_trans hle hle'⟩

/-- A known scope keeps the scope around it and its symbols. -/
theorem get (h : before.Grows after current) (hscope : before.list[id]? = some scope) :
    ∃ symbols frame, after.list[id]? = some ⟨scope.parent, symbols ++ scope.symbols, frame⟩ ∧
      scope.frame ≤ frame := by
  by_cases hid : id = current
  · subst hid
    exact h.innermost scope hscope
  · have hlt := (List.getElem?_eq_some_iff.mp hscope).1
    exact ⟨[], scope.frame, by rw [h.other id hlt hid, hscope]; rfl, Nat.le_refl _⟩

/-- Growing leaves the scopes around a scope. -/
theorem chain_eq (hwf : before.WellFormed) (h : before.Grows after current)
    (hid : id < before.list.length) : after.chain id = before.chain id := by
  induction id using Nat.strongRecOn with
  | ind id ih =>
      have hscope : before.list[id]? = some before.list[id] := List.getElem?_eq_getElem hid
      obtain ⟨symbols, frame, hafter, -⟩ := h.get hscope
      cases hparent : (before.list[id]).parent with
      | none =>
          rw [chain_of_root hscope hparent, chain_of_root hafter (by simpa using hparent)]
      | some parent =>
          have hlt := hwf.lt_of_parent hscope hparent
          rw [chain_of_parent hscope hparent hlt,
            chain_of_parent hafter (by simpa using hparent) hlt,
            ih parent hlt (Nat.lt_trans hlt hid)]

theorem visible (hwf : before.WellFormed) (h : before.Grows after current)
    (hid : id < before.list.length) {symbol : Symbol} (hvisible : before.Visible id symbol) :
    after.Visible id symbol := by
  obtain ⟨hchain, scope, hscope, hmem⟩ := hvisible
  obtain ⟨symbols, frame, hafter, -⟩ := h.get hscope
  exact ⟨by rw [h.chain_eq hwf hid]; exact hchain, _, hafter, List.mem_append_right _ hmem⟩

end Grows

/-! ## Operations -/

section Operations

variable {scopes after : Scopes} {id parent : ScopeId} {scope : Scope}

theorem get_eq_ok : scopes.get id = .ok scope ↔ scopes.list[id]? = some scope := by
  unfold get
  split
  next found hfound => simp [hfound]
  next hnone => simp [hnone]

/-- What entering a scope does: it appends an empty one inside a known one. -/
theorem enter_eq_ok (h : scopes.enter parent = .ok (id, after)) :
    parent < scopes.list.length ∧ id = scopes.list.length ∧
      after = ⟨scopes.list ++ [⟨some parent, [], 0⟩]⟩ := by
  simp only [enter, bind_eq_ok, pure_eq_ok, Prod.mk.injEq, get_eq_ok] at h
  obtain ⟨scope, hscope, rfl, rfl⟩ := h
  exact ⟨(List.getElem?_eq_some_iff.mp hscope).1, rfl, rfl⟩

/-- What reserving bytes does: the frame grows by them. -/
theorem reserve_eq_ok {bytes : Nat} (h : scopes.reserve id bytes = .ok after) :
    ∃ scope, scopes.list[id]? = some scope ∧ scope.frame + bytes < addressLimit ∧
      after = scopes.set id { scope with frame := scope.frame + bytes } := by
  simp only [reserve, bind_eq_ok, pure_eq_ok, get_eq_ok, addBytes_eq_ok] at h
  obtain ⟨scope, hscope, frame, ⟨hfits, rfl⟩, rfl⟩ := h
  exact ⟨scope, hscope, hfits, rfl⟩

/-- The normal form of an attempt to declare a name: only its last step touches the table. -/
theorem tryDeclare_run (scopes : Scopes) (id : ScopeId) (name : String) (location : Location)
    (type : Ty) (external : Bool) :
    (tryDeclare id name location type external).run scopes = (do
      let scope ← scopes.get id
      match scope.symbols.find? (·.name = name) with
      | some previous => return (.error (.redeclaration name previous.location), scopes)
      | none =>
          let (storage, frame) ← allot scope type external
          let symbol : Symbol := ⟨name, location, type, storage, id⟩
          return (.ok symbol, scopes.set id ⟨scope.parent, symbol :: scope.symbols, frame⟩)) := by
  simp only [tryDeclare, StateT.run_bind, StateT.run_get, pure_bind, StateT.run_monadLift]
  cases scopes.get id with
  | error cause => rfl
  | ok scope =>
      cases hfind : scope.symbols.find? (·.name = name) with
      | some previous => simp [hfind]
      | none => cases hallot : allot scope type external <;> simp [hfind, hallot]

theorem declare_eq (scopes : Scopes) (id : ScopeId) (name : String) (location : Location)
    (type : Ty) (external : Bool) :
    scopes.declare id name location type external = (do
      let scope ← Breakdown.lift (scopes.get id)
      match scope.symbols.find? (·.name = name) with
      | some previous => throw (.diagnosis (.redeclaration name previous.location))
      | none =>
          let (storage, frame) ← Breakdown.lift (allot scope type external)
          let symbol : Symbol := ⟨name, location, type, storage, id⟩
          return (symbol, scopes.set id ⟨scope.parent, symbol :: scope.symbols, frame⟩)) := by
  rw [declare, tryDeclare_run]
  cases scopes.get id with
  | error cause => rfl
  | ok scope =>
      cases hfind : scope.symbols.find? (·.name = name) with
      | some previous => simp only [Breakdown.lift, bind, Except.bind, hfind]; rfl
      | none =>
          simp only [Breakdown.lift, bind, Except.bind, hfind]
          cases allot scope type external <;> rfl

/-- A name that cannot be declared leaves the table as it was. -/
theorem eq_of_tryDeclare_refused {name : String} {location : Location} {type : Ty}
    {external : Bool} {cause : ScopeError}
    (h : (tryDeclare id name location type external).run scopes = .ok (.error cause, after)) :
    after = scopes := by
  rw [tryDeclare_run, bind_eq_ok] at h
  obtain ⟨scope, -, h⟩ := h
  split at h
  next previous _ =>
    cases h
    rfl
  next =>
    obtain ⟨allotted, -, h⟩ := bind_eq_ok.mp h
    cases h

theorem tryDeclare_eq_declare (scopes : Scopes) (id : ScopeId) (name : String)
    (location : Location) (type : Ty) (external : Bool) :
    (tryDeclare id name location type external).run scopes =
      match scopes.declare id name location type external with
      | .ok (symbol, after) => .ok (.ok symbol, after)
      | .error (.diagnosis cause) => .ok (.error cause, scopes)
      | .error (.breakdown cause) => .error cause := by
  rw [declare]
  cases h : (tryDeclare id name location type external).run scopes with
  | error cause => rfl
  | ok result =>
      obtain ⟨cause | symbol, after⟩ := result
      · rw [eq_of_tryDeclare_refused h]
        rfl
      · rfl

/-- What declaring a name does: its symbol becomes the latest of the scope, with the storage
that the scope allots. -/
theorem declare_eq_ok {name : String} {location : Location} {type : Ty} {external : Bool}
    {symbol : Symbol}
    (h : scopes.declare id name location type external = .ok (symbol, after)) :
    ∃ scope storage frame, scopes.list[id]? = some scope ∧
      scope.symbols.find? (·.name = name) = none ∧
      allot scope type external = .ok (storage, frame) ∧
      symbol = ⟨name, location, type, storage, id⟩ ∧
      after = scopes.set id ⟨scope.parent, symbol :: scope.symbols, frame⟩ := by
  simp only [declare_eq, bind_eq_ok, Breakdown.lift_eq_ok, get_eq_ok] at h
  obtain ⟨scope, hscope, h⟩ := h
  split at h
  next => simp at h
  next hfind =>
    simp only [bind_eq_ok, Breakdown.lift_eq_ok, pure_eq_ok, Prod.mk.injEq] at h
    obtain ⟨⟨storage, frame⟩, hallot, rfl, rfl⟩ := h
    exact ⟨scope, storage, frame, hscope, hfind, hallot, rfl, rfl⟩

theorem find?_eq_none_iff {name : String} :
    scope.symbols.find? (·.name = name) = none ↔ name ∉ scope.inOrder.map (·.name) := by
  simp [Scope.inOrder]

/-- A name that a scope has declared is refused, with the place of its declaration. -/
theorem declare_of_mem (hscope : scopes.list[id]? = some scope) {name : String}
    (hname : name ∈ scope.inOrder.map (·.name)) (location : Location) (type : Ty)
    (external : Bool) : ∃ previous ∈ scope.inOrder, previous.name = name ∧
      scopes.declare id name location type external =
        .error (.diagnosis (.redeclaration name previous.location)) := by
  cases hfind : scope.symbols.find? (·.name = name) with
  | none => exact absurd hname (find?_eq_none_iff.mp hfind)
  | some previous =>
      refine ⟨previous, List.mem_reverse.mpr (List.mem_of_find?_eq_some hfind),
        by simpa using List.find?_some hfind, ?_⟩
      rw [declare_eq, get_eq_ok.mpr hscope]
      simp only [Breakdown.lift, bind, Except.bind, hfind]
      rfl

/-- Only a name that the scope has declared is refused with a diagnosis. -/
theorem declare_eq_diagnosis {name : String} {location : Location} {type : Ty} {external : Bool}
    {cause : ScopeError}
    (h : scopes.declare id name location type external = .error (.diagnosis cause)) :
    ∃ scope, scopes.list[id]? = some scope ∧ ∃ previous ∈ scope.inOrder,
      previous.name = name ∧ cause = .redeclaration name previous.location := by
  cases hget : scopes.get id with
  | error breakdown =>
      rw [declare_eq, hget] at h
      cases h
  | ok scope =>
      have hscope := get_eq_ok.mp hget
      refine ⟨scope, hscope, ?_⟩
      by_cases hname : name ∈ scope.inOrder.map (·.name)
      · obtain ⟨previous, hmem, hown, hdeclare⟩ :=
          declare_of_mem hscope hname location type external
        rw [hdeclare] at h
        cases h
        exact ⟨previous, hmem, hown, rfl⟩
      · rw [declare_eq, hget] at h
        simp only [Breakdown.lift, bind, Except.bind, find?_eq_none_iff.mpr hname] at h
        cases hallot : allot scope type external with
        | ok pair =>
            rw [hallot] at h
            cases h
        | error cause =>
            rw [hallot] at h
            cases h

/-- Only a name that no scope around declares is refused. -/
theorem lookup_eq_diagnosis {name : String} {cause : ScopeError}
    (h : scopes.lookup id name = .error (.diagnosis cause)) : cause = .undeclared name := by
  unfold lookup at h
  cases hget : scopes.get id with
  | error breakdown =>
      rw [hget] at h
      cases h
  | ok scope =>
      rw [hget] at h
      simp only [Breakdown.lift, bind, Except.bind] at h
      split at h <;> cases h
      rfl

/-- The storage that a scope allots and the frame after it. -/
theorem allot_eq_ok {type : Ty} {external : Bool} {storage : Storage} {frame : Nat}
    (h : allot scope type external = .ok (storage, frame)) :
    (external = true ∧ storage = .external ∧ frame = scope.frame) ∨
    (external = false ∧ scope.parent = none ∧ storage = .labelled ∧ frame = scope.frame) ∨
    (external = false ∧ scope.parent ≠ none ∧ storage = .framed scope.frame ∧
      frame = scope.frame + type.size) := by
  unfold allot at h
  split at h
  next hext =>
    simp only [Except.ok.injEq, Prod.mk.injEq] at h
    exact Or.inl ⟨hext, h.1.symm, h.2.symm⟩
  next hext =>
    have hext : external = false := by simpa using hext
    split at h
    next hparent =>
      simp only [Except.ok.injEq, Prod.mk.injEq] at h
      exact Or.inr (Or.inl ⟨hext, hparent, h.1.symm, h.2.symm⟩)
    next parent hparent =>
      simp only [map_eq_ok, addBytes_eq_ok, Prod.mk.injEq] at h
      obtain ⟨-, ⟨-, rfl⟩, rfl, rfl⟩ := h
      exact Or.inr (Or.inr ⟨hext, by simp [hparent], rfl, rfl⟩)

theorem enter_of_known (h : scopes.list[id]? = some scope) : scopes.enter id =
      .ok (scopes.list.length, ⟨scopes.list ++ [⟨some id, [], 0⟩]⟩) := by
  rw [enter, get_eq_ok.mpr h]
  rfl

/-- A local whose name is new to a scope can be declared there while there is room. -/
theorem declare_local {table : Scope} {name : String} {type : Ty}
    (htable : scopes.list[id]? = some table) (hparent : table.parent = some parent)
    (hfresh : ∀ symbol ∈ table.symbols, symbol.name ≠ name)
    (hfits : table.frame + type.size < addressLimit) :
    ∃ symbol, symbol.name = name ∧ scopes.declare id name nowhere type false =
      .ok (symbol, scopes.set id ⟨some parent, symbol :: table.symbols, table.frame + type.size⟩) := by
  have hfind : table.symbols.find? (·.name = name) = none := by simpa using hfresh
  have hallot : allot table type false = .ok (.framed table.frame, table.frame + type.size) := by
    simp [allot, hparent, addBytes_eq_ok.mpr ⟨hfits, rfl⟩, Except.map]
  refine ⟨⟨name, nowhere, type, .framed table.frame, id⟩, rfl, ?_⟩
  rw [declare_eq, get_eq_ok.mpr htable]
  simp only [Breakdown.lift, bind, Except.bind, hfind, hallot, hparent]
  rfl

theorem list_set (scopes : Scopes) (id other : ScopeId) (scope : Scope) :
    (scopes.set id scope).list[other]? =
      if id = other then scopes.list[other]?.map fun _ => scope else scopes.list[other]? := by
  simp only [set, List.getElem?_set]
  split
  next heq =>
    subst heq
    split
    next hlt => simp [List.getElem?_eq_getElem hlt]
    next hlt => simp [List.getElem?_eq_none (Nat.le_of_not_lt hlt)]
  next => rfl

/-- Putting a scope with more symbols and bytes in the place of a known one. -/
theorem grows_set (hscope : scopes.list[id]? = some scope) (symbols : List Symbol) {frame : Nat}
    (hframe : scope.frame ≤ frame) :
    scopes.Grows (scopes.set id ⟨scope.parent, symbols ++ scope.symbols, frame⟩) id where
  length_le := by simp [set]
  other other _ hne := by rw [list_set, if_neg (Ne.symm hne)]
  innermost found hfound := by
    rw [hscope, Option.some.injEq] at hfound
    subst hfound
    exact ⟨symbols, frame, by rw [list_set, if_pos rfl, hscope]; rfl, hframe⟩

theorem grows_declare {name : String} {location : Location} {type : Ty} {external : Bool}
    {symbol : Symbol}
    (h : scopes.declare id name location type external = .ok (symbol, after)) :
    scopes.Grows after id := by
  obtain ⟨scope, storage, frame, hscope, -, hallot, -, rfl⟩ := declare_eq_ok h
  refine grows_set hscope [symbol] ?_
  rcases allot_eq_ok hallot with ⟨-, -, rfl⟩ | ⟨-, -, -, rfl⟩ | ⟨-, -, -, rfl⟩ <;> omega

/-- A symbol is visible where it has been declared. -/
theorem visible_of_declare {name : String} {location : Location} {type : Ty} {external : Bool}
    {symbol : Symbol}
    (h : scopes.declare id name location type external = .ok (symbol, after)) :
    after.Visible id symbol := by
  obtain ⟨scope, storage, frame, hscope, -, -, hsymbol, rfl⟩ := declare_eq_ok h
  have hown : symbol.scope = id := by rw [hsymbol]
  refine ⟨hown ▸ mem_chain_self _ _, ⟨scope.parent, symbol :: scope.symbols, frame⟩, ?_,
    List.mem_cons_self⟩
  rw [hown, list_set, if_pos rfl, hscope]
  rfl

theorem grows_reserve {bytes : Nat} (h : scopes.reserve id bytes = .ok after) :
    scopes.Grows after id := by
  obtain ⟨scope, hscope, -, rfl⟩ := reserve_eq_ok h
  exact grows_set hscope [] (by omega)

/-- A new scope, and all that happens inside it, leaves the scopes from before as they are. -/
theorem grows_enter (h : scopes.enter parent = .ok (id, after)) {later : Scopes}
    (hlater : after.Grows later id) (current : ScopeId) : scopes.Grows later current := by
  obtain ⟨-, rfl, rfl⟩ := enter_eq_ok h
  have hsame : ∀ other, other < scopes.list.length →
      later.list[other]? = scopes.list[other]? := by
    intro other hlt
    rw [hlater.other other (by simp; omega) (by omega), List.getElem?_append_left hlt]
  refine ⟨?_, fun other hlt _ => hsame other hlt, ?_⟩
  · have := hlater.length_le
    simp only [List.length_append, List.length_cons, List.length_nil] at this
    omega
  · intro scope hscope
    have hlt := (List.getElem?_eq_some_iff.mp hscope).1
    exact ⟨[], scope.frame, by rw [hsame current hlt, hscope]; rfl, Nat.le_refl _⟩

/-- Entering a scope keeps the scopes well-formed. -/
theorem WellFormed.enter (hwf : scopes.WellFormed) (h : scopes.enter parent = .ok (id, after)) :
    after.WellFormed := by
  obtain ⟨hparent, rfl, rfl⟩ := enter_eq_ok h
  have hcases : ∀ other scope, (scopes.list ++ [⟨some parent, [], 0⟩])[other]? = some scope →
      scopes.list[other]? = some scope ∨
        (other = scopes.list.length ∧ scope = ⟨some parent, [], 0⟩) := by
    intro other scope hother
    by_cases hlt : other < scopes.list.length
    · rw [List.getElem?_append_left hlt] at hother
      exact Or.inl hother
    · rw [List.getElem?_append_right (Nat.le_of_not_lt hlt), List.getElem?_singleton] at hother
      split at hother
      next hzero =>
        simp only [Option.some.injEq] at hother
        exact Or.inr ⟨by omega, hother.symm⟩
      next => simp at hother
  constructor
  · obtain ⟨symbols, hroot⟩ := hwf.root
    refine ⟨symbols, ?_⟩
    rw [List.getElem?_append_left (List.getElem?_eq_some_iff.mp hroot).1]
    exact hroot
  · intro other scope hother hne
    rcases hcases other scope hother with hold | ⟨rfl, rfl⟩
    · exact hwf.nested other scope hold hne
    · exact ⟨parent, rfl, hparent⟩
  · intro other scope symbol hother hmem
    rcases hcases other scope hother with hold | ⟨rfl, rfl⟩
    · exact hwf.placed other scope symbol hold hmem
    · simp at hmem
  · intro other scope hother
    rcases hcases other scope hother with hold | ⟨rfl, rfl⟩
    · exact hwf.apart other scope hold
    · exact List.Pairwise.nil

/-- A table stays well-formed when a scope of it gets bytes, and symbols that it places behind
those that it has. -/
theorem WellFormed.set (hwf : scopes.WellFormed) (hscope : scopes.list[id]? = some scope)
    {symbols : List Symbol} {frame : Nat} (hframe : scope.frame ≤ frame)
    (hroot : id = globalScope → frame = 0)
    (hplaced : ∀ symbol ∈ symbols, symbol.scope = id ∧
      (Scope.mk scope.parent (symbols ++ scope.symbols) frame).Places id symbol)
    (hapart : (symbols ++ scope.symbols).Pairwise Symbol.Behind) :
    (scopes.set id ⟨scope.parent, symbols ++ scope.symbols, frame⟩).WellFormed := by
  have hcases : ∀ other found,
      (scopes.set id ⟨scope.parent, symbols ++ scope.symbols, frame⟩).list[other]? = some found →
      (other ≠ id ∧ scopes.list[other]? = some found) ∨
        (other = id ∧ found = ⟨scope.parent, symbols ++ scope.symbols, frame⟩) := by
    intro other found hother
    rw [list_set] at hother
    split at hother
    next heq =>
      subst heq
      simp only [hscope, Option.map_some, Option.some.injEq] at hother
      exact Or.inr ⟨rfl, hother.symm⟩
    next hne => exact Or.inl ⟨Ne.symm hne, hother⟩
  constructor
  · obtain ⟨known, hknown⟩ := hwf.root
    by_cases hid : id = globalScope
    · subst hid
      rw [hscope, Option.some.injEq] at hknown
      subst hknown
      exact ⟨symbols ++ known, by rw [list_set, if_pos rfl, hscope]; simp [hroot rfl]⟩
    · exact ⟨known, by rw [list_set, if_neg hid]; exact hknown⟩
  · intro other found hother hne
    rcases hcases other found hother with ⟨-, hold⟩ | ⟨rfl, rfl⟩
    · exact hwf.nested other found hold hne
    · exact hwf.nested other scope hscope hne
  · intro other found symbol hother hmem
    rcases hcases other found hother with ⟨-, hold⟩ | ⟨rfl, rfl⟩
    · exact hwf.placed other found symbol hold hmem
    · rcases List.mem_append.mp hmem with hnew | hold
      · exact hplaced symbol hnew
      · obtain ⟨hsymbol, hplace⟩ := hwf.placed other scope symbol hscope hold
        refine ⟨hsymbol, ?_⟩
        revert hplace
        unfold Scope.Places
        split
        · exact id
        · rintro ⟨hne, hscalar, hfit⟩
          exact ⟨hne, hscalar, Nat.le_trans hfit hframe⟩
        · exact id
  · intro other found hother
    rcases hcases other found hother with ⟨-, hold⟩ | ⟨rfl, rfl⟩
    · exact hwf.apart other found hold
    · exact hapart

theorem WellFormed.reserve (hwf : scopes.WellFormed) {bytes : Nat} (hid : id ≠ globalScope)
    (h : scopes.reserve id bytes = .ok after) : after.WellFormed := by
  obtain ⟨scope, hscope, -, rfl⟩ := reserve_eq_ok h
  have hnone : scope.symbols = [] ++ scope.symbols := rfl
  rw [hnone]
  exact hwf.set hscope (by omega) (fun heq => absurd heq hid) (by simp)
    (hwf.apart id scope hscope)

/-- Declaring keeps a table well-formed when the type suits the scope: values that are stored,
in the global scope functions as well, and anything but functions when defined elsewhere. -/
theorem WellFormed.declare (hwf : scopes.WellFormed) {name : String} {location : Location}
    {type : Ty} {external : Bool} {symbol : Symbol}
    (hexternal : external = true → type.isFunction = false)
    (hlocal : external = false → id ≠ globalScope → type.isScalar = true)
    (h : scopes.declare id name location type external = .ok (symbol, after)) :
    after.WellFormed := by
  obtain ⟨scope, storage, frame, hscope, -, hallot, rfl, rfl⟩ := declare_eq_ok h
  have hparent : id = globalScope ↔ scope.parent = none := by
    constructor
    · rintro rfl
      obtain ⟨symbols, hroot⟩ := hwf.root
      rw [hscope, Option.some.injEq] at hroot
      simp [hroot]
    · intro hnone
      by_contra hid
      obtain ⟨parent, hsome, -⟩ := hwf.nested id scope hscope hid
      simp [hnone] at hsome
  have hzero : id = globalScope → scope.frame = 0 := by
    rintro rfl
    obtain ⟨symbols, hroot⟩ := hwf.root
    rw [hscope, Option.some.injEq] at hroot
    simp [hroot]
  have hbehind : ∀ symbol ∈ scope.symbols, ∀ offset, symbol.storage = .framed offset →
      offset + symbol.type.size ≤ scope.frame := by
    intro symbol hmem offset hstorage
    have hplace := (hwf.placed id scope symbol hscope hmem).2
    rw [Scope.Places, hstorage] at hplace
    exact hplace.2.2
  have happend : ∀ symbol : Symbol, symbol :: scope.symbols = [symbol] ++ scope.symbols :=
    fun _ => rfl
  rw [happend]
  rcases allot_eq_ok hallot with
    ⟨hext, rfl, rfl⟩ | ⟨hext, hnone, rfl, rfl⟩ | ⟨hext, hsome, rfl, rfl⟩
  · refine hwf.set hscope (Nat.le_refl _) hzero ?_ ?_
    · simp [Scope.Places, hexternal hext]
    · refine List.pairwise_cons.mpr ⟨?_, hwf.apart id scope hscope⟩
      intro earlier _ offset offset' hlater
      simp at hlater
  · refine hwf.set hscope (Nat.le_refl _) hzero ?_ ?_
    · simp [Scope.Places, hparent.mpr hnone]
    · refine List.pairwise_cons.mpr ⟨?_, hwf.apart id scope hscope⟩
      intro earlier _ offset offset' hlater
      simp at hlater
  · have hid : id ≠ globalScope := fun heq => hsome (hparent.mp heq)
    refine hwf.set hscope (by omega) (fun heq => absurd heq hid) ?_ ?_
    · simp [Scope.Places, hid, hlocal hext hid]
    · refine List.pairwise_cons.mpr ⟨?_, hwf.apart id scope hscope⟩
      intro earlier hmem offset offset' hlater hearlier
      simp only [Storage.framed.injEq] at hlater
      rw [← hlater]
      exact hbehind earlier hmem offset' hearlier

end Operations

end Scopes

end AccumulatorC
