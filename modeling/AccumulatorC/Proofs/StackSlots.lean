import AccumulatorC.Proofs.ScopeTable
import AccumulatorC.Proofs.Program.Frames

/-!
# Stack slots

Seen from a scope, the locals of the scopes around it lie at distances from the stack pointer. In a
table that operations on a fresh one have left, the bytes of two such locals never overlap, and none
of them is a byte that was reserved: in one frame because each operation takes its bytes behind all
earlier ones, and across frames because these lie below one another.
-/

namespace AccumulatorC

open ScopeOperation

namespace Scopes

variable {scopes after : Scopes} {operations : List ScopeOperation} {operation : ScopeOperation}
  {id outer : ScopeId} {symbol : Symbol} {offset bytes : Nat}

/-- A table has a symbol: the scope of the symbol lists it. -/
def Has (scopes : Scopes) (symbol : Symbol) : Prop :=
  ∃ scope, scopes.list[symbol.scope]? = some scope ∧ symbol ∈ scope.symbols

/-- Bytes of the frames from a scope outwards, up to and with that of a scope around it. -/
def framesThrough (scopes : Scopes) (id outer : ScopeId) : Nat :=
  scopes.frames id outer + scopes.frameOf outer

/-- One of the operations has reserved bytes in the frame of a scope, behind all those which the
frame had by then. -/
def Reserved (operations : List ScopeOperation) (id : ScopeId) (offset bytes : Nat) : Prop :=
  ∃ before after scopes, operations = before ++ .reserve id bytes :: after ∧
    run before = .ok scopes ∧ scopes.frame id = .ok offset

/-- What the distances from the stack pointer say of the symbols of a table, as seen from one of its
scopes after operations. -/
structure SlotsApart (scopes : Scopes) (operations : List ScopeOperation) (id : ScopeId) :
    Prop where
  /-- There is no distance exactly to what lives at a label, and to the locals of scopes that do not
  enclose the given one, where the frames of all scopes that do can be added up. -/
  none_iff : ∀ symbol, scopes.Has symbol →
    (scopes.stackOffset symbol id = .ok none ↔
      symbol.storage = .labelled ∨ symbol.storage = .external ∨
        symbol.scope ∉ scopes.chain id ∧ scopes.framesThrough id globalScope < addressLimit)
  /-- There is a distance to every local of an enclosing scope, unless the frames up to it are too
  large, and its bytes lie in these frames. -/
  inside : ∀ symbol, scopes.Has symbol → ∀ offset, symbol.storage = .framed offset →
    symbol.scope ∈ scopes.chain id → scopes.framesThrough id symbol.scope < addressLimit →
    ∃ start, scopes.stackOffset symbol id = .ok (some start) ∧
      start + symbol.type.size + offset = scopes.framesThrough id symbol.scope
  /-- The bytes of different locals are different, also where one shadows the other. -/
  disjoint : ∀ symbol other, scopes.Has symbol → scopes.Has other → symbol ≠ other →
    ∀ start start', scopes.stackOffset symbol id = .ok (some start) →
      scopes.stackOffset other id = .ok (some start') →
      start + symbol.type.size ≤ start' ∨ start' + other.type.size ≤ start
  /-- No byte of a local has been reserved in the frame of an enclosing scope. -/
  unreserved : ∀ symbol, scopes.Has symbol →
    ∀ start, scopes.stackOffset symbol id = .ok (some start) →
    ∀ outer ∈ scopes.chain id, ∀ offset bytes, Reserved operations outer offset bytes →
      ∃ start', start' + bytes + offset = scopes.framesThrough id outer ∧
        (start + symbol.type.size ≤ start' ∨ start' + bytes ≤ start)

/-! ## Tables that operations have left -/

/-- What an operation does that can be carried out. -/
theorem apply_cases (h : operation.apply scopes = .ok after) :
    (∃ parent, operation = .enter parent ∧ parent < scopes.list.length ∧
      after = ⟨scopes.list ++ [⟨some parent, [], 0⟩]⟩) ∨
    (∃ id scope bytes, operation = .reserve id bytes ∧ scopes.list[id]? = some scope ∧
      scope.frame + bytes < addressLimit ∧
      after = scopes.set id { scope with frame := scope.frame + bytes }) ∨
    (∃ id scope declared, operation = .declare id declared ∧ scopes.list[id]? = some scope ∧
      ((declared.name ∈ scope.inOrder.map (·.name) ∧ after = scopes) ∨
        ∃ symbol frame, declared.name ∉ scope.inOrder.map (·.name) ∧
          allot scope declared.type declared.external = .ok (symbol.storage, frame) ∧
          after = scopes.set id ⟨scope.parent, symbol :: scope.symbols, frame⟩)) := by
  cases operation with
  | enter parent =>
      obtain ⟨⟨scope, entered⟩, henter, rfl⟩ := map_eq_ok.mp h
      obtain ⟨hlt, -, hafter⟩ := enter_eq_ok henter
      exact .inl ⟨parent, rfl, hlt, hafter⟩
  | reserve id bytes =>
      obtain ⟨scope, hscope, hfits, hafter⟩ := reserve_eq_ok h
      exact .inr (.inl ⟨id, scope, bytes, rfl, hscope, hfits, hafter⟩)
  | declare id declared =>
      rw [apply_declare] at h
      split at h
      next symbol after hdeclare =>
        obtain ⟨scope, storage, frame, hscope, hfind, hallot, rfl, rfl⟩ := declare_eq_ok hdeclare
        obtain rfl := Except.ok.inj h
        exact .inr (.inr ⟨id, scope, declared, rfl, hscope,
          .inr ⟨_, frame, find?_eq_none_iff.mp hfind, hallot, rfl⟩⟩)
      next cause hdeclare =>
        obtain ⟨scope, hscope, previous, hmem, hname, -⟩ := declare_eq_diagnosis hdeclare
        obtain rfl := Except.ok.inj h
        exact .inr (.inr ⟨id, scope, declared, rfl, hscope,
          .inl ⟨List.mem_map.mpr ⟨previous, hmem, hname⟩, rfl⟩⟩)
      next => cases h

/-- What a scope allots to a name fits into its frame. -/
theorem fits_of_allot {scope : Scope} {declared : Declared} {storage : Storage} {frame : Nat}
    (hparent : scope.parent = none ↔ id = globalScope) (hbounded : scope.frame < addressLimit)
    (h : allot scope declared.type declared.external = .ok (storage, frame)) :
    scope.frame + declared.bytesIn id < addressLimit := by
  rw [allot] at h
  split at h
  next hexternal => rwa [Declared.bytesIn, if_pos (.inl hexternal)]
  next hexternal =>
    split at h
    next hroot => rwa [Declared.bytesIn, if_pos (.inr (hparent.mp hroot))]
    next outer houter =>
      have hid : id ≠ globalScope := by
        intro hid
        rw [hparent.mpr hid] at houter
        cases houter
      obtain ⟨sum, hsum, -⟩ := map_eq_ok.mp h
      rw [Declared.bytesIn, if_neg (not_or.mpr ⟨hexternal, hid⟩)]
      exact (addBytes_eq_ok.mp hsum).1

namespace Follows

/-- The frame of a scope has as many bytes as were asked of it. -/
theorem frameOf_eq (h : scopes.Follows operations) (id : ScopeId) :
    scopes.frameOf id = bytesIn id operations := by
  by_cases hid : id < scopes.list.length
  · rw [frameOf, List.getElem?_eq_getElem hid]
    exact (h.scope id _ (List.getElem?_eq_getElem hid)).frame_eq
  · have hunknown := Nat.le_of_not_lt hid
    obtain ⟨hdeclared, hreserved⟩ := h.fresh id hunknown
    rw [frameOf, List.getElem?_eq_none hunknown, bytesIn, hdeclared, hreserved]
    rfl

theorem bytesIn_lt (h : scopes.Follows operations) (id : ScopeId) :
    bytesIn id operations < addressLimit := by
  rw [← h.frameOf_eq, frameOf]
  cases hscope : scopes.list[id]? with
  | none => exact show 0 < addressLimit by decide
  | some scope => exact (h.scope id scope hscope).bounded

/-- What can be carried out asks no more of a frame than there are addresses. -/
theorem bytesIn_concat_lt (h : scopes.Follows operations)
    (happly : operation.apply scopes = .ok after) (id : ScopeId) :
    bytesIn id (operations ++ [operation]) < addressLimit := by
  rcases spares_or_target id operation with hspares | ⟨declared, rfl⟩ | ⟨bytes, rfl⟩
  · rw [bytesIn, hspares.declaredIn_eq, hspares.reservedIn_eq]
    exact h.bytesIn_lt id
  · rw [bytesIn, declare_reservedIn, declaredIn_concat_declare]
    split
    next => exact h.bytesIn_lt id
    next hnew =>
      rcases apply_cases happly with ⟨_, hop, -⟩ | ⟨_, _, _, hop, -⟩ |
        ⟨_, scope, _, hop, hscope, ⟨hmem, -⟩ | ⟨symbol, frame, -, hallot, -⟩⟩ <;> cases hop
      · rw [← (h.scope id scope hscope).declared, List.map_map] at hnew
        exact absurd hmem hnew
      · rw [List.map_append, List.sum_append, List.map_singleton, List.sum_singleton]
        have hfollows := h.scope id scope hscope
        have hfits := fits_of_allot (h.parent_eq_none_iff hscope) hfollows.bounded hallot
        rw [hfollows.frame_eq, bytesIn] at hfits
        omega
  · rcases apply_cases happly with ⟨_, hop, -⟩ | ⟨_, scope, _, hop, hscope, hfits, -⟩ |
      ⟨_, _, _, hop, -⟩ <;> cases hop
    rw [(h.scope id scope hscope).frame_eq] at hfits
    rw [bytesIn, reserve_declaredIn, reservedIn_concat_reserve, ← Nat.add_assoc]
    exact hfits

/-- An operation that can be carried out leaves what has been asked for. -/
theorem of_apply (h : scopes.Follows operations) (happly : operation.apply scopes = .ok after) :
    after.Follows (operations ++ [operation]) := by
  have hknown : operation.target < scopes.list.length := by
    rcases apply_cases happly with ⟨_, rfl, hlt, -⟩ | ⟨_, _, _, rfl, hscope, -⟩ |
      ⟨_, _, _, rfl, hscope, -⟩
    · exact hlt
    · exact (List.getElem?_eq_some_iff.mp hscope).1
    · exact (List.getElem?_eq_some_iff.mp hscope).1
  obtain ⟨after', happly', hafter⟩ := h.step hknown (h.bytesIn_concat_lt happly)
  obtain rfl := Except.ok.inj (happly'.symm.trans happly)
  exact hafter

/-- Frames only grow. -/
theorem frameOf_le (h : scopes.Follows operations)
    (happly : operation.apply scopes = .ok after) (id : ScopeId) :
    scopes.frameOf id ≤ after.frameOf id := by
  rw [h.frameOf_eq, (h.of_apply happly).frameOf_eq]
  exact bytesIn_le_concat

theorem scope_eq (h : scopes.Follows operations) (hhas : scopes.Has symbol) :
    ∃ scope, scopes.list[symbol.scope]? = some scope ∧ symbol ∈ scope.symbols ∧
      symbol.StoredIn symbol.scope (scopes.frameOf symbol.scope) := by
  obtain ⟨scope, hscope, hmem⟩ := hhas
  have hstored := (h.scope _ scope hscope).stored symbol (List.mem_reverse.mpr hmem)
  refine ⟨scope, hscope, hmem, ?_⟩
  rwa [frameOf, hscope]

end Follows

/-- What operations leave that can be carried out one after the other. -/
theorem follows_of_run (h : run operations = .ok scopes) : scopes.Follows operations := by
  induction operations using List.reverseRecOn generalizing scopes with
  | nil =>
      obtain rfl := Except.ok.inj h
      exact initial_follows
  | append_singleton operations operation ih =>
      rw [run_concat] at h
      obtain ⟨before, hbefore, happly⟩ := bind_eq_ok.mp h
      exact (ih hbefore).of_apply happly

/-! ## Reserved bytes -/

/-- Reserved bytes lie in their frame, apart from those of its locals. -/
structure SparesReserved (scopes : Scopes) (operations : List ScopeOperation) : Prop where
  inside : ∀ id offset bytes, Reserved operations id offset bytes →
    offset + bytes ≤ scopes.frameOf id
  apart : ∀ symbol, scopes.Has symbol → ∀ start, symbol.storage = .framed start →
    ∀ offset bytes, Reserved operations symbol.scope offset bytes →
      start + symbol.type.size ≤ offset ∨ offset + bytes ≤ start

theorem reserved_concat (hrun : run operations = .ok scopes)
    (h : Reserved (operations ++ [operation]) id offset bytes) :
    Reserved operations id offset bytes ∨
      (operation = .reserve id bytes ∧ scopes.frame id = .ok offset) := by
  obtain ⟨before, rest, earlier, heq, hbefore, hframe⟩ := h
  rcases List.eq_nil_or_concat rest with rfl | ⟨rest, last, rfl⟩
  · obtain ⟨rfl, hlast⟩ := List.append_inj' heq rfl
    obtain rfl := Except.ok.inj (hrun.symm.trans hbefore)
    exact .inr ⟨List.singleton_inj.mp hlast, hframe⟩
  · rw [List.concat_eq_append, ← List.cons_append, ← List.append_assoc] at heq
    exact .inl ⟨before, rest, earlier, (List.append_inj' heq rfl).1, hbefore, hframe⟩

theorem has_set {table : Scope} (htable : scopes.list[id]? = some table)
    {symbols : List Symbol} {frame : Nat}
    (h : (scopes.set id ⟨table.parent, symbols, frame⟩).Has symbol) :
    scopes.Has symbol ∨ id = symbol.scope ∧ symbol ∈ symbols := by
  obtain ⟨found, hfound, hmem⟩ := h
  rw [list_set] at hfound
  split at hfound
  next hid =>
    rw [← hid, htable] at hfound
    obtain rfl := Option.some.inj hfound
    exact .inr ⟨hid, hmem⟩
  next => exact .inl ⟨found, hfound, hmem⟩

/-- A symbol that is there after an operation was there before, or has just been declared behind all
bytes of its frame. -/
theorem has_of_apply (happly : operation.apply scopes = .ok after) (h : after.Has symbol) :
    scopes.Has symbol ∨ (∃ declared, operation = .declare symbol.scope declared) ∧
      ∀ start, symbol.storage = .framed start → start = scopes.frameOf symbol.scope := by
  rcases apply_cases happly with ⟨parent, rfl, -, rfl⟩ |
    ⟨id, table, bytes, rfl, htable, -, rfl⟩ |
    ⟨id, table, declared, rfl, htable, ⟨-, rfl⟩ | ⟨latest, frame, -, hallot, rfl⟩⟩
  · obtain ⟨found, hfound, hmem⟩ := h
    rw [List.getElem?_append] at hfound
    split at hfound
    next => exact .inl ⟨found, hfound, hmem⟩
    next =>
      -- The scope that has just been entered lists no symbols.
      rw [List.mem_singleton.mp (List.mem_of_getElem? hfound)] at hmem
      exact absurd hmem List.not_mem_nil
  · rcases has_set htable h with hhas | ⟨hid, hmem⟩
    · exact .inl hhas
    · exact .inl ⟨table, hid ▸ htable, hmem⟩
  · exact .inl h
  · rcases has_set htable h with hhas | ⟨hid, hmem⟩
    · exact .inl hhas
    · rcases List.mem_cons.mp hmem with rfl | hmem
      · refine .inr ⟨⟨declared, by rw [hid]⟩, fun start hstart => ?_⟩
        have hframe : scopes.frameOf symbol.scope = table.frame := by
          rw [← hid, frameOf, htable]
          rfl
        rcases allot_eq_ok hallot with ⟨-, hstorage, -⟩ | ⟨-, -, hstorage, -⟩ |
          ⟨-, -, hstorage, -⟩ <;> rw [hstart] at hstorage <;> cases hstorage
        exact hframe.symm
      · exact .inl ⟨table, hid ▸ htable, hmem⟩

namespace SparesReserved

/-- An operation takes its bytes of a frame behind all others. -/
theorem step (hrun : run operations = .ok scopes) (hfollows : scopes.Follows operations)
    (h : scopes.SparesReserved operations) (happly : operation.apply scopes = .ok after) :
    after.SparesReserved (operations ++ [operation]) := by
  have hafter := hfollows.of_apply happly
  constructor
  case inside =>
    intro id offset bytes hreserved
    rcases reserved_concat hrun hreserved with hold | ⟨rfl, hframe⟩
    · exact (h.inside id offset bytes hold).trans (hfollows.frameOf_le happly id)
    · rw [hafter.frameOf_eq, frame_eq_ok hframe, hfollows.frameOf_eq, bytesIn, bytesIn,
        reserve_declaredIn, reservedIn_concat_reserve, Nat.add_assoc]
  case apart =>
    intro symbol hhas start hstorage offset bytes hreserved
    rcases has_of_apply happly hhas with hhas | ⟨⟨declared, rfl⟩, hbehind⟩
    · rcases reserved_concat hrun hreserved with hold | ⟨rfl, hframe⟩
      · exact h.apart symbol hhas start hstorage offset bytes hold
      · obtain ⟨scope, hscope, -, hstored⟩ := hfollows.scope_eq hhas
        rw [Symbol.StoredIn, hstorage] at hstored
        exact .inl (frame_eq_ok hframe ▸ hstored.2)
    · rcases reserved_concat hrun hreserved with hold | ⟨hop, -⟩
      · exact .inr (hbehind start hstorage ▸ h.inside _ offset bytes hold)
      · cases hop

end SparesReserved

/-- Reserved bytes are spared in every table that operations lead to. -/
theorem sparesReserved_of_run (h : run operations = .ok scopes) :
    scopes.SparesReserved operations := by
  induction operations using List.reverseRecOn generalizing scopes with
  | nil =>
      obtain rfl := Except.ok.inj h
      have hnone : ∀ id offset bytes, ¬ Reserved [] id offset bytes := by
        rintro id offset bytes ⟨before, rest, -, heq, -⟩
        simp at heq
      exact ⟨fun id offset bytes hreserved => absurd hreserved (hnone id offset bytes),
        fun symbol _ _ _ offset bytes hreserved => absurd hreserved (hnone _ offset bytes)⟩
  | append_singleton operations operation ih =>
      have hboth := h
      rw [run_concat] at hboth
      obtain ⟨before, hbefore, happly⟩ := bind_eq_ok.mp hboth
      exact (ih hbefore).step hbefore (follows_of_run hbefore) happly

/-! ## Distances in such tables -/

theorem frames_lt_of_framesInside {inside : Nat} (hid : id < scopes.list.length)
    (h : scopes.framesInside id outer = .ok inside) : scopes.frames id outer < addressLimit := by
  rw [framesInside, mapM_frame_inside hid] at h
  exact framesInside_eq_ok (by rwa [framesInside, mapM_frame_inside hid]) ▸
    foldlM_addBytes_lt (by decide) h

/-- There is no distance to a framed symbol of a scope that does not enclose the given one, but it
is only found out past all frames. -/
theorem stackOffset_of_outside (hid : id < scopes.list.length)
    (hmem : symbol.scope ∉ scopes.chain id) (hstorage : symbol.storage = .framed offset) :
    scopes.stackOffset symbol id =
      if scopes.frames id symbol.scope < addressLimit then .ok none else .error .overflow := by
  simp only [stackOffset, hstorage, if_neg hmem]
  split
  next hfits =>
    rw [framesInside_of_lt hid hfits]
    rfl
  next hlarge =>
    cases hinside : scopes.framesInside id symbol.scope with
    | ok inside => exact absurd (frames_lt_of_framesInside hid hinside) hlarge
    | error cause =>
        rw [framesInside_eq_error hid hinside]
        rfl

/-- The frames of scopes inside another one lie below that of the other one. -/
theorem framesThrough_le {inner : ScopeId} (hinner : inner ∈ scopes.chain id)
    (houter : outer ∈ scopes.chain inner) (hne : inner ≠ outer) :
    scopes.framesThrough id inner ≤ scopes.frames id outer := by
  rw [framesThrough, frames_add hinner houter]
  exact Nat.add_le_add_left (frameOf_le_frames hne) _

/-- Bytes of the frames of different scopes on a chain do not overlap. -/
theorem apart_of_scopes {inner : ScopeId} (hinner : inner ∈ scopes.chain id)
    (houter : outer ∈ scopes.chain id) (hne : inner ≠ outer)
    {start size offset start' size' offset' : Nat}
    (hsum : start + size + offset = scopes.framesThrough id inner)
    (hframe : offset + size ≤ scopes.frameOf inner)
    (hsum' : start' + size' + offset' = scopes.framesThrough id outer)
    (hframe' : offset' + size' ≤ scopes.frameOf outer) :
    start + size ≤ start' ∨ start' + size' ≤ start := by
  rcases mem_chain_total hinner houter with hmem | hmem
  · have hle := framesThrough_le hinner hmem hne
    rw [framesThrough] at hsum'
    omega
  · have hle := framesThrough_le houter hmem hne.symm
    rw [framesThrough] at hsum
    omega

namespace Follows

/-- Walking outwards in search of a scope that does not enclose the given one takes all frames. -/
theorem frames_of_not_mem (h : scopes.Follows operations) (hid : id < scopes.list.length)
    (houter : outer ∉ scopes.chain id) :
    scopes.frames id outer = scopes.framesThrough id globalScope := by
  induction id using Nat.strongRecOn with
  | ind id ih =>
      have hscope := List.getElem?_eq_getElem hid
      have hne : id ≠ outer := fun heq => houter (heq ▸ mem_chain_self scopes id)
      by_cases hglobal : id = globalScope
      · have hchain := chain_of_root hscope ((h.parent_eq_none_iff hscope).mpr hglobal)
        have hinside : scopes.inside id outer = [id] := by
          rw [inside, hchain, List.takeWhile_cons, if_pos (by simpa using hne)]
          rfl
        rw [framesThrough, ← hglobal, frames_self, frames, hinside]
        simp
      · obtain ⟨parent, hparent, hlt⟩ := h.nested id _ hscope hglobal
        rw [chain_of_parent hscope hparent hlt] at houter
        rw [frames_of_parent hscope hparent hlt hne, framesThrough,
          frames_of_parent hscope hparent hlt hglobal, Nat.add_assoc,
          ih parent hlt (Nat.lt_trans hlt hid) fun hmem => houter (List.mem_cons_of_mem _ hmem),
          framesThrough]

/-- The bytes of a local with a distance from the stack pointer lie in its frame. -/
theorem slot_in_frame (h : scopes.Follows operations) (hhas : scopes.Has symbol) {start : Nat}
    (hstart : scopes.stackOffset symbol id = .ok (some start)) :
    ∃ offset, symbol.storage = .framed offset ∧ symbol.scope ∈ scopes.chain id ∧
      start + symbol.type.size + offset = scopes.framesThrough id symbol.scope ∧
      offset + symbol.type.size ≤ scopes.frameOf symbol.scope := by
  obtain ⟨offset, hstorage, hmem, hsum⟩ := stackOffset_eq_some hstart
  obtain ⟨-, -, -, hstored⟩ := h.scope_eq hhas
  rw [Symbol.StoredIn, hstorage] at hstored
  exact ⟨offset, hstorage, hmem, by rw [framesThrough]; omega, hstored.2⟩

theorem behind (h : scopes.Follows operations) {other : Symbol} (hhas : scopes.Has symbol)
    (hhas' : scopes.Has other) (hne : symbol ≠ other) (hscope : symbol.scope = other.scope) :
    symbol.Behind other ∨ other.Behind symbol := by
  obtain ⟨scope, hfound, hmem⟩ := hhas
  obtain ⟨scope', hfound', hmem'⟩ := hhas'
  rw [← hscope, hfound] at hfound'
  obtain rfl := Option.some.inj hfound'
  have hapart : scope.symbols.Pairwise Symbol.Behind :=
    List.pairwise_reverse.mp (h.scope _ scope hfound).ordered
  exact (eq_or_behind hapart hmem hmem').resolve_left hne

end Follows

/-- Seen from any scope of a table that operations have left, locals have slots of their own among
the frames, and there is no distance to anything else. -/
theorem slotsApart_of_run (operations : List ScopeOperation) (scopes : Scopes)
    (hrun : run operations = .ok scopes) (id : ScopeId) (hid : id < scopes.list.length) :
    scopes.SlotsApart operations id := by
  have hfollows := follows_of_run hrun
  have hspares := sparesReserved_of_run hrun
  constructor
  case none_iff =>
    intro symbol hhas
    cases hstorage : symbol.storage with
    | labelled | external => simp [stackOffset, hstorage]
    | framed offset =>
        obtain ⟨-, -, -, hstored⟩ := hfollows.scope_eq hhas
        rw [Symbol.StoredIn, hstorage] at hstored
        by_cases hmem : symbol.scope ∈ scopes.chain id
        · rw [stackOffset_of_inside hid hmem hstorage hstored.2]
          split <;> simp [hmem]
        · rw [stackOffset_of_outside hid hmem hstorage, hfollows.frames_of_not_mem hid hmem]
          split <;> simp_all
  case inside =>
    intro symbol hhas offset hstorage hmem hfits
    obtain ⟨-, -, -, hstored⟩ := hfollows.scope_eq hhas
    rw [Symbol.StoredIn, hstorage] at hstored
    refine ⟨_, (stackOffset_of_inside hid hmem hstorage hstored.2).trans (if_pos hfits), ?_⟩
    rw [framesThrough]
    omega
  case disjoint =>
    intro symbol other hhas hhas' hne start start' hstart hstart'
    obtain ⟨offset, hstorage, hmem, hsum, hframe⟩ := hfollows.slot_in_frame hhas hstart
    obtain ⟨offset', hstorage', hmem', hsum', hframe'⟩ := hfollows.slot_in_frame hhas' hstart'
    by_cases hscope : symbol.scope = other.scope
    · rw [← hscope] at hsum'
      rcases hfollows.behind hhas hhas' hne hscope with hbehind | hbehind
      · have := hbehind offset offset' hstorage hstorage'
        omega
      · have := hbehind offset' offset hstorage' hstorage
        omega
    · exact apart_of_scopes hmem hmem' hscope hsum hframe hsum' hframe'
  case unreserved =>
    intro symbol hhas start hstart outer houter offset' bytes hreserved
    obtain ⟨offset, hstorage, hmem, hsum, hframe⟩ := hfollows.slot_in_frame hhas hstart
    have hinside := hspares.inside outer offset' bytes hreserved
    obtain ⟨start', hsum'⟩ : ∃ start', start' + bytes + offset' = scopes.framesThrough id outer :=
      ⟨scopes.framesThrough id outer - offset' - bytes, by rw [framesThrough]; omega⟩
    refine ⟨start', hsum', ?_⟩
    by_cases hscope : symbol.scope = outer
    · subst hscope
      have := hspares.apart symbol hhas offset hstorage offset' bytes hreserved
      omega
    · exact apart_of_scopes hmem houter hscope hsum hframe hsum' hinside

/-- A function with a parameter, two bytes for where to return to, a block with two locals, and in
it another block with a local that shadows the parameter. -/
def shadowOperations : List ScopeOperation :=
  let here := Location.startOf "<input>"
  [.enter globalScope, .declare 1 ⟨"x", here, .char, false⟩, .reserve 1 2, .enter 1,
    .declare 2 ⟨"a", here, .char, false⟩, .declare 2 ⟨"b", here, .int, false⟩, .enter 2,
    .declare 3 ⟨"x", here, .int, false⟩]

theorem shadowOperations_slotsApart : ∃ scopes, run shadowOperations = .ok scopes ∧
    3 < scopes.list.length ∧ scopes.SlotsApart shadowOperations 3 ∧
    (scopes.list.flatMap (·.inOrder)).map (scopes.stackOffset · 3) =
      [.ok (some 7), .ok (some 4), .ok (some 2), .ok (some 0)] :=
  ⟨_, rfl, by decide, slotsApart_of_run shadowOperations _ rfl 3 (by decide), by decide +kernel⟩

/-- A local of another block than the innermost one, whose frame and that of the block around it are
too large together. -/
def crowdedOperations : List ScopeOperation :=
  let here := Location.startOf "<input>"
  [.enter globalScope, .declare 1 ⟨"x", here, .int, false⟩, .enter globalScope, .reserve 2 65535,
    .enter 2, .reserve 3 1]

/-- The walk past all scopes breaks down before it finds out that none of them declares the local.
-/
theorem crowdedOperations_overflow : ∃ scopes symbol, run crowdedOperations = .ok scopes ∧
    3 < scopes.list.length ∧ scopes.Has symbol ∧ symbol.scope ∉ scopes.chain 3 ∧
    scopes.stackOffset symbol 3 = .error .overflow :=
  ⟨_, ⟨"x", .startOf "<input>", .int, .framed 0, 1⟩, rfl, by decide, ⟨_, rfl, List.mem_cons_self⟩,
    by decide +kernel, by decide +kernel⟩

end Scopes

end AccumulatorC
