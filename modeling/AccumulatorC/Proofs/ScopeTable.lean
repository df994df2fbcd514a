import Mathlib.Data.List.Induction
import AccumulatorC.Proofs.Program.Scoping

/-!
# What a scope table holds after operations

A table that is only entered, declared in and reserved from holds exactly what was asked for: the
scopes that were entered, each with the first declaration of every name in it, in order, and with a
frame of the sizes of its locals and of the bytes that were reserved. This is shown for one operation
and from there for all of them, one after the other.
-/

namespace AccumulatorC

/-! ## Operations -/

/-- A name to be declared. -/
structure Declared where
  name : String
  location : Location
  type : Ty
  external : Bool

/-- The bytes that a declared name takes in the frame of a scope: externs and globals take none. -/
def Declared.bytesIn (id : ScopeId) (declared : Declared) : Nat :=
  if declared.external = true ∨ id = globalScope then 0 else declared.type.size

/-- An attempt to declare it in a scope. -/
def Declared.tryIn (id : ScopeId) (declared : Declared) :
    StateT Scopes (Except Breakdown) (Except ScopeError Symbol) :=
  Scopes.tryDeclare id declared.name declared.location declared.type declared.external

/-- An operation on a scope table. -/
inductive ScopeOperation
  | enter (parent : ScopeId)
  | declare (id : ScopeId) (declared : Declared)
  | reserve (id : ScopeId) (bytes : Nat)

namespace ScopeOperation

/-- The scope that an operation uses. -/
def target : ScopeOperation → ScopeId
  | enter parent => parent
  | declare id _ => id
  | reserve id _ => id

/-- The table after an operation; that of an attempt to declare a name is the one it leaves,
whatever comes of it. -/
def apply (scopes : Scopes) : ScopeOperation → Except Breakdown Scopes
  | enter parent => (scopes.enter parent).map (·.2)
  | declare id declared =>
      (declared.tryIn id).run scopes |>.map (·.2)
  | reserve id bytes => scopes.reserve id bytes

/-- The scopes in which others were entered, in order. -/
def entered (operations : List ScopeOperation) : List ScopeId :=
  operations.filterMap fun
    | enter parent => some parent
    | _ => none

/-- The names that were declared in a scope, in order, each as it was declared first. -/
def declaredIn (id : ScopeId) (operations : List ScopeOperation) : List Declared :=
  operations.foldl (fun earlier operation =>
    match operation with
    | declare scope declared =>
        if scope = id ∧ declared.name ∉ earlier.map (·.name) then earlier ++ [declared]
        else earlier
    | _ => earlier) []

/-- The bytes that were reserved in the frame of a scope. -/
def reservedIn (id : ScopeId) (operations : List ScopeOperation) : Nat :=
  (operations.map fun
    | reserve scope bytes => if scope = id then bytes else 0
    | _ => 0).sum

/-- The bytes that the frame of a scope has to hold. -/
def bytesIn (id : ScopeId) (operations : List ScopeOperation) : Nat :=
  ((declaredIn id operations).map (Declared.bytesIn id)).sum + reservedIn id operations

/-- Operations that use scopes which have been entered before, and need no frame beyond the address
space. -/
structure Legal (operations : List ScopeOperation) : Prop where
  known : ∀ (i : Nat) (hi : i < operations.length),
    operations[i].target ≤ (entered (operations.take i)).length
  fits : ∀ id, bytesIn id operations < addressLimit

end ScopeOperation

/-- The table after operations on a fresh one. -/
def Scopes.run (operations : List ScopeOperation) : Except Breakdown Scopes :=
  operations.foldlM ScopeOperation.apply initial

/-! ## What a table holds -/

/-- The declaration that a symbol comes from. -/
def Symbol.declared (symbol : Symbol) : Declared :=
  ⟨symbol.name, symbol.location, symbol.type, symbol.storage = .external⟩

/-- The bytes that a symbol takes in the frame of its scope. -/
def Symbol.width (symbol : Symbol) : Nat :=
  match symbol.storage with
  | .framed _ => symbol.type.size
  | _ => 0

/-- A symbol lives at a label in the global scope, and with all of its bytes inside the frame in any
other scope, unless it is defined elsewhere. -/
def Symbol.StoredIn (symbol : Symbol) (id : ScopeId) (frame : Nat) : Prop :=
  match symbol.storage with
  | .labelled => id = globalScope
  | .framed offset => id ≠ globalScope ∧ offset + symbol.type.size ≤ frame
  | .external => True

open ScopeOperation

/-- A scope holds what operations have asked of it. -/
structure Scope.Follows (scope : Scope) (id : ScopeId) (operations : List ScopeOperation) :
    Prop where
  declared : scope.inOrder.map Symbol.declared = declaredIn id operations
  own : ∀ symbol ∈ scope.inOrder, symbol.scope = id
  names : (scope.inOrder.map (·.name)).Nodup
  stored : ∀ symbol ∈ scope.inOrder, symbol.StoredIn id scope.frame
  /-- The bytes of a symbol come after those of the symbols before it. -/
  ordered : scope.inOrder.Pairwise fun earlier later => later.Behind earlier
  frame : scope.frame = (scope.inOrder.map Symbol.width).sum + reservedIn id operations
  bounded : scope.frame < addressLimit

/-- A table holds the scopes that operations have entered. -/
structure Scopes.Follows (scopes : Scopes) (operations : List ScopeOperation) : Prop where
  parents : scopes.list.map (·.parent) = none :: (entered operations).map some
  /-- Every scope but the global one lies in one with a smaller number. -/
  nested : ∀ (id : ScopeId) (scope : Scope), scopes.list[id]? = some scope → id ≠ globalScope →
    ∃ parent, scope.parent = some parent ∧ parent < id
  scope : ∀ (id : ScopeId) (scope : Scope), scopes.list[id]? = some scope →
    scope.Follows id operations
  /-- Nothing has been asked of scopes that have not been entered. -/
  fresh : ∀ id, scopes.list.length ≤ id →
    declaredIn id operations = [] ∧ reservedIn id operations = 0

namespace ScopeOperation

variable {id : ScopeId} {operations : List ScopeOperation} {operation : ScopeOperation}

/-! ## What one operation asks for -/

theorem entered_concat : entered (operations ++ [operation]) =
    entered operations ++ match operation with | enter parent => [parent] | _ => [] := by
  cases operation <;> simp [entered]

theorem declaredIn_concat_declare (declared : Declared) :
    declaredIn id (operations ++ [declare id declared]) =
      if declared.name ∈ (declaredIn id operations).map (·.name) then declaredIn id operations
      else declaredIn id operations ++ [declared] := by
  by_cases hmem : declared.name ∈ (declaredIn id operations).map (·.name)
  · rw [if_pos hmem, declaredIn, List.foldl_append]
    exact if_neg fun h => h.2 hmem
  · rw [if_neg hmem, declaredIn, List.foldl_append]
    exact if_pos ⟨rfl, hmem⟩

theorem reservedIn_concat_reserve (bytes : Nat) :
    reservedIn id (operations ++ [reserve id bytes]) = reservedIn id operations + bytes := by
  simp [reservedIn]

/-- An operation asks nothing of the frame of a scope: it is one on another scope, or it enters
one. -/
def Spares (id : ScopeId) : ScopeOperation → Prop
  | enter _ => True
  | declare scope _ => scope ≠ id
  | reserve scope _ => scope ≠ id

theorem Spares.declaredIn_eq (h : operation.Spares id) :
    declaredIn id (operations ++ [operation]) = declaredIn id operations := by
  rw [declaredIn, List.foldl_append]
  cases operation with
  | declare scope declared => exact if_neg fun hboth => h hboth.1
  | enter | reserve => rfl

theorem Spares.reservedIn_eq (h : operation.Spares id) :
    reservedIn id (operations ++ [operation]) = reservedIn id operations := by
  cases operation with
  | reserve scope bytes =>
      have hne : scope ≠ id := h
      simp [reservedIn, hne]
  | enter | declare => simp [reservedIn]

theorem declare_reservedIn (declared : Declared) :
    reservedIn id (operations ++ [declare id declared]) = reservedIn id operations := by
  simp [reservedIn]

theorem reserve_declaredIn (bytes : Nat) :
    declaredIn id (operations ++ [reserve id bytes]) = declaredIn id operations := by
  rw [declaredIn, List.foldl_append]
  rfl

theorem spares_or_target (id : ScopeId) (operation : ScopeOperation) :
    operation.Spares id ∨ (∃ declared, operation = declare id declared) ∨
      ∃ bytes, operation = reserve id bytes := by
  cases operation with
  | enter parent => exact .inl trivial
  | declare scope declared =>
      by_cases hscope : scope = id
      · exact .inr (.inl ⟨declared, hscope ▸ rfl⟩)
      · exact .inl hscope
  | reserve scope bytes =>
      by_cases hscope : scope = id
      · exact .inr (.inr ⟨bytes, hscope ▸ rfl⟩)
      · exact .inl hscope

/-- Frames only grow. -/
theorem bytesIn_le_concat : bytesIn id operations ≤ bytesIn id (operations ++ [operation]) := by
  rcases spares_or_target id operation with h | ⟨declared, rfl⟩ | ⟨bytes, rfl⟩
  · rw [bytesIn, bytesIn, h.declaredIn_eq, h.reservedIn_eq]
  · rw [bytesIn, bytesIn, declare_reservedIn, declaredIn_concat_declare]
    split
    next => exact Nat.le_refl _
    next =>
      rw [List.map_append, List.sum_append]
      omega
  · rw [bytesIn, bytesIn, reserve_declaredIn, reservedIn_concat_reserve]
    omega

theorem Legal.of_concat (h : Legal (operations ++ [operation])) : Legal operations where
  known i hi := by
    have hknown := h.known i (by rw [List.length_append]; omega)
    rwa [List.getElem_append_left hi, List.take_append_of_le_length (Nat.le_of_lt hi)] at hknown
  fits id := Nat.lt_of_le_of_lt bytesIn_le_concat (h.fits id)

end ScopeOperation

/-! ## What one operation leaves -/

/-- A symbol takes the bytes that its declaration asked for. -/
theorem Symbol.StoredIn.width_eq {symbol : Symbol} {id : ScopeId} {frame : Nat}
    (h : symbol.StoredIn id frame) : symbol.width = symbol.declared.bytesIn id := by
  unfold StoredIn at h
  unfold width Declared.bytesIn Symbol.declared
  cases hstorage : symbol.storage with
  | labelled =>
      rw [hstorage] at h
      exact (if_pos (.inr h)).symm
  | framed offset =>
      rw [hstorage] at h
      exact (if_neg (by simp [h.1])).symm
  | external => exact (if_pos (.inl (by simp))).symm

theorem Symbol.StoredIn.mono {symbol : Symbol} {id : ScopeId} {frame more : Nat}
    (h : symbol.StoredIn id frame) (hle : frame ≤ more) : symbol.StoredIn id more := by
  unfold StoredIn at h ⊢
  split
  next hstorage =>
    rw [hstorage] at h
    exact h
  next offset hstorage =>
    rw [hstorage] at h
    exact ⟨h.1, Nat.le_trans h.2 hle⟩
  next => trivial

namespace Scope.Follows

variable {scope : Scope} {id : ScopeId} {operations : List ScopeOperation}

theorem frame_eq (h : scope.Follows id operations) : scope.frame = bytesIn id operations := by
  have hbytes : scope.inOrder.map Symbol.width =
      (declaredIn id operations).map (Declared.bytesIn id) := by
    rw [← h.declared, List.map_map]
    exact List.map_congr_left fun symbol hmem => (h.stored symbol hmem).width_eq
  rw [h.frame, hbytes, bytesIn]

theorem of_spares {operation : ScopeOperation} (h : scope.Follows id operations)
    (hspares : operation.Spares id) : scope.Follows id (operations ++ [operation]) where
  declared := h.declared.trans hspares.declaredIn_eq.symm
  own := h.own
  names := h.names
  stored := h.stored
  ordered := h.ordered
  frame := by rw [hspares.reservedIn_eq, h.frame]
  bounded := h.bounded

/-- A name that is declared already stays as it is. -/
theorem redeclare (h : scope.Follows id operations) {declared : Declared}
    (hname : declared.name ∈ scope.inOrder.map (·.name)) :
    scope.Follows id (operations ++ [.declare id declared]) where
  declared := by
    have hmem : declared.name ∈ (declaredIn id operations).map (·.name) := by
      rw [← h.declared, List.map_map]
      exact hname
    rw [declaredIn_concat_declare, if_pos hmem, h.declared]
  own := h.own
  names := h.names
  stored := h.stored
  ordered := h.ordered
  frame := by rw [declare_reservedIn, h.frame]
  bounded := h.bounded

/-- Reserving bytes follows the operations by one. -/
theorem reserve (h : scope.Follows id operations) {bytes : Nat}
    (hfits : scope.frame + bytes < addressLimit) :
    Follows { scope with frame := scope.frame + bytes } id (operations ++ [.reserve id bytes]) where
  declared := h.declared.trans (reserve_declaredIn bytes).symm
  own := h.own
  names := h.names
  stored symbol hmem := (h.stored symbol hmem).mono (Nat.le_add_right _ _)
  ordered := h.ordered
  frame := by
    have hframe : scope.frame + bytes =
        (scope.inOrder.map Symbol.width).sum + reservedIn id operations + bytes := by
      rw [← h.frame]
    rw [reservedIn_concat_reserve, ← Nat.add_assoc]
    exact hframe
  bounded := hfits

/-- A new name is declared behind all others. -/
theorem declare (h : scope.Follows id operations) {symbol : Symbol}
    (hown : symbol.scope = id) (hname : symbol.name ∉ scope.inOrder.map (·.name))
    (hstored : symbol.StoredIn id (scope.frame + symbol.width))
    (hbehind : ∀ offset, symbol.storage = .framed offset → offset = scope.frame)
    (hfits : scope.frame + symbol.width < addressLimit) :
    Follows ⟨scope.parent, symbol :: scope.symbols, scope.frame + symbol.width⟩ id
      (operations ++ [.declare id symbol.declared]) := by
  have horder : Scope.inOrder ⟨scope.parent, symbol :: scope.symbols, scope.frame + symbol.width⟩ =
      scope.inOrder ++ [symbol] := List.reverse_cons
  constructor
  case declared =>
    have hnew : symbol.declared.name ∉ (declaredIn id operations).map (·.name) := by
      rw [← h.declared, List.map_map]
      exact hname
    rw [declaredIn_concat_declare, if_neg hnew, horder, List.map_append, h.declared]
    rfl
  case own =>
    rw [horder]
    exact List.forall_mem_append.mpr ⟨h.own, List.forall_mem_singleton.mpr hown⟩
  case names =>
    rw [horder, List.map_append]
    exact h.names.append (List.nodup_singleton _) (List.disjoint_singleton.mpr hname)
  case stored =>
    rw [horder]
    refine List.forall_mem_append.mpr ⟨?_, List.forall_mem_singleton.mpr hstored⟩
    exact fun earlier hmem => (h.stored earlier hmem).mono (Nat.le_add_right _ _)
  case ordered =>
    rw [horder]
    refine List.pairwise_append.mpr ⟨h.ordered, List.pairwise_singleton _ _, ?_⟩
    intro earlier hmem later hlater offset offset' hoffset hoffset'
    rw [List.mem_singleton.mp hlater] at hoffset
    have hinside := h.stored earlier hmem
    rw [Symbol.StoredIn, hoffset'] at hinside
    exact hbehind offset hoffset ▸ hinside.2
  case frame =>
    have hframe := h.frame
    rw [horder, List.map_append, List.sum_append, declare_reservedIn]
    simp only [List.map_singleton, List.sum_singleton]
    omega
  case bounded => exact hfits

end Scope.Follows

/-- A scope is empty if nothing has been asked of it. -/
theorem Scope.follows_empty (parent : Option ScopeId) {id : ScopeId}
    {operations : List ScopeOperation} (hdeclared : declaredIn id operations = [])
    (hreserved : reservedIn id operations = 0) : Scope.Follows ⟨parent, [], 0⟩ id operations where
  declared := hdeclared.symm
  own _ hmem := absurd hmem List.not_mem_nil
  names := .nil
  stored _ hmem := absurd hmem List.not_mem_nil
  ordered := .nil
  frame := by
    rw [hreserved]
    rfl
  bounded := show 0 < addressLimit by decide

namespace Scopes

variable {scopes : Scopes} {operations : List ScopeOperation} {operation : ScopeOperation}
  {id : ScopeId} {scope : Scope}

theorem initial_follows : initial.Follows [] where
  parents := rfl
  nested id scope h hid := by
    cases id with
    | zero => exact absurd rfl hid
    | succ id => simp [initial] at h
  scope id scope h := by
    cases id with
    | zero =>
        obtain rfl := Option.some.inj h
        exact Scope.follows_empty none rfl rfl
    | succ id => simp [initial] at h
  fresh _ _ := ⟨rfl, rfl⟩

theorem set_self (hscope : scopes.list[id]? = some scope) : scopes.set id scope = scopes := by
  obtain ⟨hlt, rfl⟩ := List.getElem?_eq_some_iff.mp hscope
  rw [set, List.set_getElem_self]

/-- An attempt to declare a name leaves the table with its symbol, or the one that was there. -/
theorem apply_declare (scopes : Scopes) (id : ScopeId) (declared : Declared) :
    (ScopeOperation.declare id declared).apply scopes =
      match scopes.declare id declared.name declared.location declared.type declared.external with
      | .ok (_, after) => .ok after
      | .error (.diagnosis _) => .ok scopes
      | .error (.breakdown cause) => .error cause := by
  rw [apply, Declared.tryIn, tryDeclare_eq_declare]
  cases scopes.declare id declared.name declared.location declared.type declared.external with
  | ok => rfl
  | error stop => cases stop <;> rfl

/-- The symbol of a name that fits into a scope. -/
theorem allot_of_fits {declared : Declared} (hparent : scope.parent = none ↔ id = globalScope)
    (hroom : scope.frame + declared.bytesIn id < addressLimit) :
    ∃ symbol : Symbol, symbol.declared = declared ∧ symbol.scope = id ∧
      allot scope declared.type declared.external =
        .ok (symbol.storage, scope.frame + symbol.width) ∧
      symbol.StoredIn id (scope.frame + symbol.width) ∧
      ∀ offset, symbol.storage = .framed offset → offset = scope.frame := by
  obtain ⟨name, location, type, external⟩ := declared
  cases external with
  | true =>
      refine ⟨⟨name, location, type, .external, id⟩, rfl, rfl, rfl, trivial, fun offset h => ?_⟩
      cases h
  | false =>
      cases houter : scope.parent with
      | none =>
          refine ⟨⟨name, location, type, .labelled, id⟩, rfl, rfl, ?_, hparent.mp houter,
            fun offset h => ?_⟩
          · rw [allot, houter]
            rfl
          · cases h
      | some parent =>
          have hid : id ≠ globalScope := by
            intro hid
            cases houter.symm.trans (hparent.mpr hid)
          have hfits : scope.frame + type.size < addressLimit := by
            simpa [Declared.bytesIn, hid] using hroom
          refine ⟨⟨name, location, type, .framed scope.frame, id⟩, rfl, rfl, ?_,
            ⟨hid, Nat.le_refl _⟩, fun offset hoffset => (Storage.framed.inj hoffset).symm⟩
          simp [allot, houter, addBytes_eq_ok.mpr ⟨hfits, rfl⟩, Except.map, Symbol.width]

theorem declare_of_allot {symbol : Symbol} {frame : Nat} {external : Bool}
    (hscope : scopes.list[id]? = some scope)
    (hname : symbol.name ∉ scope.inOrder.map (·.name)) (hown : symbol.scope = id)
    (hallot : allot scope symbol.type external = .ok (symbol.storage, frame)) :
    scopes.declare id symbol.name symbol.location symbol.type external =
      .ok (symbol, scopes.set id ⟨scope.parent, symbol :: scope.symbols, frame⟩) := by
  subst hown
  rw [declare_eq, get_eq_ok.mpr hscope]
  simp only [Breakdown.lift, bind, Except.bind, find?_eq_none_iff.mpr hname, hallot]
  rfl

namespace Follows

theorem length_eq (h : scopes.Follows operations) :
    scopes.list.length = (entered operations).length + 1 := by
  have hlength := congrArg List.length h.parents
  simpa using hlength

theorem parent_eq_none_iff (h : scopes.Follows operations)
    (hscope : scopes.list[id]? = some scope) : scope.parent = none ↔ id = globalScope := by
  have hparent : (scopes.list.map (·.parent))[id]? = some scope.parent := by
    rw [List.getElem?_map, hscope]
    rfl
  rw [h.parents] at hparent
  cases id with
  | zero => exact iff_of_true (Option.some.inj hparent).symm rfl
  | succ id =>
      apply iff_of_false _ (Nat.succ_ne_zero id)
      intro hnone
      rw [List.getElem?_cons_succ, List.getElem?_map, hnone] at hparent
      obtain ⟨parent, -, hsome⟩ := Option.map_eq_some_iff.mp hparent
      cases hsome

/-- Putting a scope with what an operation has asked for in the place of a known one. -/
theorem set (h : scopes.Follows operations) (hscope : scopes.list[id]? = some scope)
    {after : Scope} (hafter : after.Follows id (operations ++ [operation]))
    (hparent : after.parent = scope.parent)
    (hentered : entered (operations ++ [operation]) = entered operations)
    (hothers : ∀ other, other ≠ id → operation.Spares other) :
    (scopes.set id after).Follows (operations ++ [operation]) := by
  have hplaces : ∀ other found, (scopes.set id after).list[other]? = some found →
      (other = id ∧ found = after) ∨ (other ≠ id ∧ scopes.list[other]? = some found) := by
    intro other found hfound
    rw [list_set] at hfound
    by_cases hid : id = other
    · subst hid
      rw [if_pos rfl, hscope] at hfound
      exact .inl ⟨rfl, (Option.some.inj hfound).symm⟩
    · rw [if_neg hid] at hfound
      exact .inr ⟨Ne.symm hid, hfound⟩
  constructor
  case parents =>
    rw [hentered, ← h.parents]
    apply List.ext_getElem?
    intro other
    rw [List.getElem?_map, List.getElem?_map, list_set]
    split
    next heq =>
      rw [← heq, hscope]
      exact congrArg some hparent
    next => rfl
  case nested =>
    intro other found hfound hid
    rcases hplaces other found hfound with ⟨rfl, rfl⟩ | ⟨-, hold⟩
    · rw [hparent]
      exact h.nested other scope hscope hid
    · exact h.nested other found hold hid
  case scope =>
    intro other found hfound
    rcases hplaces other found hfound with ⟨rfl, rfl⟩ | ⟨hne, hold⟩
    · exact hafter
    · exact (h.scope other found hold).of_spares (hothers other hne)
  case fresh =>
    intro other hother
    have hlength : scopes.list.length ≤ other := by simpa [Scopes.set] using hother
    have hlt := (List.getElem?_eq_some_iff.mp hscope).1
    have hspares := hothers other (Nat.ne_of_gt (Nat.lt_of_lt_of_le hlt hlength))
    rw [hspares.declaredIn_eq, hspares.reservedIn_eq]
    exact h.fresh other hlength

/-- So does entering a scope. -/
theorem enter (h : scopes.Follows operations) {parent : ScopeId}
    (hparent : parent < scopes.list.length) :
    Follows ⟨scopes.list ++ [⟨some parent, [], 0⟩]⟩ (operations ++ [.enter parent]) := by
  have hspares : ∀ id, (ScopeOperation.enter parent).Spares id := fun _ => trivial
  have hplaces : ∀ id found, (scopes.list ++ [⟨some parent, [], 0⟩])[id]? = some found →
      scopes.list[id]? = some found ∨
        (id = scopes.list.length ∧ found = ⟨some parent, [], 0⟩) := by
    intro id found hfound
    rw [List.getElem?_append] at hfound
    split at hfound
    next => exact .inl hfound
    next hge =>
      obtain ⟨hzero, hnew⟩ := List.getElem?_eq_some_iff.mp hfound
      have hid : id = scopes.list.length := by
        rw [List.length_singleton] at hzero
        omega
      exact .inr ⟨hid, by simpa using hnew.symm⟩
  constructor
  case parents => rw [List.map_append, h.parents, entered_concat, List.map_append]; rfl
  case nested =>
    intro id found hfound hid
    rcases hplaces id found hfound with hold | ⟨rfl, rfl⟩
    · exact h.nested id found hold hid
    · exact ⟨parent, rfl, hparent⟩
  case scope =>
    intro id found hfound
    rcases hplaces id found hfound with hold | ⟨rfl, rfl⟩
    · exact (h.scope id found hold).of_spares (hspares id)
    · obtain ⟨hnone, hzero⟩ := h.fresh _ (Nat.le_refl scopes.list.length)
      exact Scope.follows_empty (some parent) ((hspares _).declaredIn_eq.trans hnone)
        ((hspares _).reservedIn_eq.trans hzero)
  case fresh =>
    intro id hid
    rw [(hspares id).declaredIn_eq, (hspares id).reservedIn_eq]
    apply h.fresh id
    rw [List.length_append] at hid
    omega

theorem reserve (h : scopes.Follows operations) (hscope : scopes.list[id]? = some scope)
    {bytes : Nat} (hfits : bytesIn id (operations ++ [.reserve id bytes]) < addressLimit) :
    ∃ after, (ScopeOperation.reserve id bytes).apply scopes = .ok after ∧
      after.Follows (operations ++ [.reserve id bytes]) := by
  have hfollows := h.scope id scope hscope
  have hroom : scope.frame + bytes < addressLimit := by
    rw [bytesIn, reserve_declaredIn, reservedIn_concat_reserve, ← Nat.add_assoc] at hfits
    rw [hfollows.frame_eq]
    exact hfits
  refine ⟨_, ?_, h.set hscope (hfollows.reserve hroom) rfl ?_ fun other hne => hne.symm⟩
  · rw [apply, Scopes.reserve, get_eq_ok.mpr hscope]
    simp only [bind, Except.bind, addBytes_eq_ok.mpr ⟨hroom, rfl⟩]
    rfl
  · rw [entered_concat, List.append_nil]

/-- A name that is declared already is refused, with the place of its declaration, and the table
stays as it is. -/
theorem redeclare (h : scopes.Follows operations) (hscope : scopes.list[id]? = some scope)
    {declared : Declared} (hname : declared.name ∈ scope.inOrder.map (·.name)) :
    ∃ after, (ScopeOperation.declare id declared).apply scopes = .ok after ∧
      after.Follows (operations ++ [.declare id declared]) := by
  obtain ⟨previous, -, -, hdeclare⟩ :=
    declare_of_mem hscope hname declared.location declared.type declared.external
  refine ⟨scopes.set id scope, ?_, ?_⟩
  · rw [apply_declare, hdeclare, set_self hscope]
  · apply h.set hscope ((h.scope id scope hscope).redeclare hname) rfl
    · rw [entered_concat, List.append_nil]
    · exact fun other hne => hne.symm

/-- A new name is declared in a known scope while there is room. -/
theorem declareNew (h : scopes.Follows operations) (hscope : scopes.list[id]? = some scope)
    {declared : Declared} (hname : declared.name ∉ scope.inOrder.map (·.name))
    (hfits : bytesIn id (operations ++ [.declare id declared]) < addressLimit) :
    ∃ after, (ScopeOperation.declare id declared).apply scopes = .ok after ∧
      after.Follows (operations ++ [.declare id declared]) := by
  have hfollows := h.scope id scope hscope
  have hnew : declared.name ∉ (declaredIn id operations).map (·.name) := by
    rw [← hfollows.declared, List.map_map]
    exact hname
  have hroom : scope.frame + declared.bytesIn id < addressLimit := by
    rw [bytesIn, declaredIn_concat_declare, if_neg hnew, declare_reservedIn, List.map_append,
      List.sum_append, List.map_singleton, List.sum_singleton] at hfits
    rw [hfollows.frame_eq, bytesIn]
    omega
  obtain ⟨symbol, rfl, hown, hallot, hstored, hframed⟩ :=
    allot_of_fits (h.parent_eq_none_iff hscope) hroom
  have hafter := hfollows.declare hown hname hstored hframed (by rwa [hstored.width_eq])
  refine ⟨_, ?_, h.set hscope hafter rfl ?_ fun other hne => hne.symm⟩
  · have hdeclare := declare_of_allot hscope hname hown hallot
    rw [apply_declare]
    simp only [Symbol.declared] at hdeclare ⊢
    rw [hdeclare]
  · rw [entered_concat, List.append_nil]

/-- One operation on a known scope, while there is room, leaves what has been asked for. -/
theorem step (h : scopes.Follows operations) (hknown : operation.target < scopes.list.length)
    (hfits : ∀ id, bytesIn id (operations ++ [operation]) < addressLimit) :
    ∃ after, operation.apply scopes = .ok after ∧ after.Follows (operations ++ [operation]) := by
  obtain ⟨scope, hscope⟩ : ∃ scope, scopes.list[operation.target]? = some scope :=
    ⟨_, List.getElem?_eq_getElem hknown⟩
  cases operation with
  | enter parent =>
      have henter : scopes.enter parent = _ := enter_of_known hscope
      refine ⟨_, ?_, h.enter hknown⟩
      rw [apply, henter]
      rfl
  | reserve id bytes => exact h.reserve hscope (hfits id)
  | declare id declared =>
      by_cases hname : declared.name ∈ scope.inOrder.map (·.name)
      · exact h.redeclare hscope hname
      · exact h.declareNew hscope hname (hfits id)

/-! ## Walks through the scopes around one -/

/-- The walk from a scope outwards goes to the scope around it, wherever there is one. -/
theorem chain_eq (h : scopes.Follows operations) (hscope : scopes.list[id]? = some scope) :
    scopes.chain id = id :: match scope.parent with
      | some parent => scopes.chain parent
      | none => [] := by
  cases hparent : scope.parent with
  | none => exact chain_of_root hscope hparent
  | some parent =>
      have hid : id ≠ globalScope :=
        fun hid => nomatch hparent.symm.trans ((h.parent_eq_none_iff hscope).mpr hid)
      obtain ⟨outer, houter, hlt⟩ := h.nested id scope hscope hid
      obtain rfl := Option.some.inj (hparent.symm.trans houter)
      exact chain_of_parent hscope hparent hlt

/-- The scopes around one lead out to the global scope. -/
theorem chain_ends (h : scopes.Follows operations) (hid : id < scopes.list.length) :
    (scopes.chain id).getLast? = some globalScope ∧ (scopes.chain id).Pairwise (· > ·) := by
  induction id using Nat.strongRecOn with
  | ind id ih =>
      have hscope := List.getElem?_eq_getElem hid
      by_cases hglobal : id = globalScope
      · have hparent := (h.parent_eq_none_iff hscope).mpr hglobal
        rw [chain_of_root hscope hparent, hglobal]
        exact ⟨rfl, List.pairwise_singleton _ _⟩
      · obtain ⟨parent, hparent, hlt⟩ := h.nested id _ hscope hglobal
        obtain ⟨hlast, hsmaller⟩ := ih parent hlt (Nat.lt_trans hlt hid)
        rw [chain_of_parent hscope hparent hlt]
        constructor
        · rw [List.getLast?_cons, hlast]
          rfl
        · refine List.pairwise_cons.mpr ⟨fun outer hmem => ?_, hsmaller⟩
          exact Nat.lt_of_le_of_lt (le_of_mem_chain hmem) hlt

end Follows

/-! ## All operations -/

theorem run_concat : run (operations ++ [operation]) = run operations >>= operation.apply := by
  rw [run, List.foldlM_append]
  simp only [List.foldlM_cons, List.foldlM_nil, bind_pure]
  rfl

/-- Legal operations can be carried out, and leave what they ask for. -/
theorem follows_of_legal (h : Legal operations) :
    ∃ scopes, run operations = .ok scopes ∧ scopes.Follows operations := by
  induction operations using List.reverseRecOn with
  | nil => exact ⟨initial, rfl, initial_follows⟩
  | append_singleton operations operation ih =>
      obtain ⟨scopes, hrun, hfollows⟩ := ih h.of_concat
      have hknown : operation.target < scopes.list.length := by
        have hlast := h.known operations.length (by simp)
        rw [List.take_left, List.getElem_concat_length rfl] at hlast
        rw [hfollows.length_eq]
        exact Nat.lt_succ_of_le hlast
      obtain ⟨after, happly, hafter⟩ := hfollows.step hknown h.fits
      refine ⟨after, ?_, hafter⟩
      rw [run_concat, hrun]
      exact happly

/-- The table stays well-formed over every run of operations: it holds what was asked for, the walks
through the scopes around one end, and a name that a scope has declared is refused and leaves the
whole table as it was. -/
theorem run_legal (operations : List ScopeOperation) (h : Legal operations) :
    ∃ scopes, run operations = .ok scopes ∧ scopes.Follows operations ∧
      (∀ (id : ScopeId) (scope : Scope), scopes.list[id]? = some scope →
        (scopes.chain id = id :: match scope.parent with
          | some parent => scopes.chain parent
          | none => []) ∧
        (scopes.chain id).getLast? = some globalScope ∧ (scopes.chain id).Pairwise (· > ·)) ∧
      ∀ (id : ScopeId) (declared : Declared) (cause : ScopeError),
        scopes.declare id declared.name declared.location declared.type declared.external =
          .error (.diagnosis cause) →
        (∃ scope, scopes.list[id]? = some scope ∧ ∃ previous ∈ scope.inOrder,
          previous.name = declared.name ∧
            cause = .redeclaration declared.name previous.location) ∧
        (declared.tryIn id).run scopes = .ok (.error cause, scopes) ∧
        run (operations ++ [.declare id declared]) = .ok scopes := by
  obtain ⟨scopes, hrun, hfollows⟩ := follows_of_legal h
  refine ⟨scopes, hrun, hfollows, ?_, ?_⟩
  · intro id scope hscope
    exact ⟨hfollows.chain_eq hscope,
      hfollows.chain_ends (List.getElem?_eq_some_iff.mp hscope).1⟩
  · intro id declared cause hrefused
    obtain ⟨scope, hscope, previous, hmem, hname, hcause⟩ := declare_eq_diagnosis hrefused
    have hleft : (declared.tryIn id).run scopes = .ok (.error cause, scopes) := by
      rw [Declared.tryIn, tryDeclare_eq_declare, hrefused]
    refine ⟨⟨scope, hscope, previous, hmem, hname, hcause⟩, hleft, ?_⟩
    rw [run_concat, hrun]
    simp only [bind, Except.bind, apply, hleft]
    rfl

/-- A function with two parameters, an extern and a block, where bytes are reserved between
declarations and two names are declared again. -/
def nestedOperations : List ScopeOperation :=
  let here := Location.startOf "<input>"
  [.declare globalScope ⟨"f", here, .int, false⟩, .enter globalScope,
    .declare 1 ⟨"x", here, .char, false⟩, .reserve 1 2, .declare 1 ⟨"y", here, .int, false⟩,
    .declare 1 ⟨"x", here, .int, false⟩, .enter 1, .declare 2 ⟨"x", here, .pointer .char, false⟩,
    .declare 2 ⟨"e", here, .int, true⟩, .reserve 1 3, .declare globalScope ⟨"f", here, .char, false⟩]

theorem nestedOperations_legal : Legal nestedOperations where
  known := by decide
  fits id := by
    match id with
    | 0 => decide
    | 1 => decide
    | 2 => decide
    | id + 3 =>
        -- Nothing is asked of any other scope.
        have hnone : bytesIn (id + 3) nestedOperations = 0 := by
          simp [bytesIn, declaredIn, reservedIn, nestedOperations, globalScope]
        rw [hnone]
        decide

theorem run_nestedOperations : Legal nestedOperations ∧ ∃ scopes,
    run nestedOperations = .ok scopes ∧ scopes.list.map (·.frame) = [0, 8, 2] ∧
      scopes.Follows nestedOperations := by
  obtain ⟨scopes, hrun, hfollows, -⟩ := run_legal nestedOperations nestedOperations_legal
  have hframes : (run nestedOperations).map (·.list.map (·.frame)) = .ok [0, 8, 2] := rfl
  rw [hrun] at hframes
  exact ⟨nestedOperations_legal, scopes, hrun, Except.ok.inj hframes, hfollows⟩

end Scopes

end AccumulatorC
