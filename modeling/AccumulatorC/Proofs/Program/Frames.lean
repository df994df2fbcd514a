import Mathlib.Data.List.TakeWhile
import AccumulatorC.Proofs.Program.WellFormed

/-!
# Frames on the stack

The frames of a scope and those around it lie below one another. A local has one place among
them: its distance from a scope further out, which does not depend on the scope that it is
seen from. The places of different locals share no byte.
-/

namespace AccumulatorC

namespace Scopes

/-- Bytes of the frame of a scope; an unknown scope has none. -/
def frameOf (scopes : Scopes) (id : ScopeId) : Nat := (scopes.list[id]?).elim 0 (·.frame)

/-- The scopes from a scope outwards, up to but without another scope around it. -/
def inside (scopes : Scopes) (id outer : ScopeId) : List ScopeId :=
  (scopes.chain id).takeWhile (· ≠ outer)

/-- Bytes of the frames from a scope outwards, up to but without another scope around it. -/
def frames (scopes : Scopes) (id outer : ScopeId) : Nat :=
  ((scopes.inside id outer).map scopes.frameOf).sum

/-- The frames from a scope outwards as they lie on the stack, the innermost one latest. Empty
frames leave nothing there. -/
def frameShape (scopes : Scopes) (id outer : ScopeId) : List Nat :=
  ((scopes.inside id outer).map scopes.frameOf).filter (0 < ·)

/-- Bytes of the frames of the deepest scopes inside a scope, up to but without its own. -/
def deepest (scopes : Scopes) (outer : ScopeId) : Nat :=
  (((List.range scopes.list.length).filter fun id => outer ∈ scopes.chain id).map
    (scopes.frames · outer)).foldr max 0

/-- Where the bytes of a local begin, counted from the stack pointer before the frames inside a
scope around it were put on the stack. -/
def slot (scopes : Scopes) (outer : ScopeId) (symbol : Symbol) : Int :=
  match symbol.storage with
  | .framed offset =>
      (scopes.frameOf symbol.scope : Int) - offset - symbol.type.size -
        scopes.frames symbol.scope outer
  | .labelled | .external => 0

variable {scopes : Scopes} {id middle outer : ScopeId} {symbol : Symbol}

/-! ## The chain in steps -/

theorem chain_cases (scopes : Scopes) (id : ScopeId) :
    scopes.chain id = [id] ∨
      ∃ parent, parent < id ∧ scopes.chain id = id :: scopes.chain parent := by
  rw [chain]
  cases (scopes.list[id]?).bind (·.parent) with
  | none => exact Or.inl rfl
  | some parent =>
      by_cases hlt : parent < id
      · exact Or.inr ⟨parent, hlt, by simp [hlt]⟩
      · exact Or.inl (by simp [hlt])

theorem mem_chain_trans (h : middle ∈ scopes.chain id) (h' : outer ∈ scopes.chain middle) :
    outer ∈ scopes.chain id := by
  induction id using Nat.strongRecOn with
  | ind id ih =>
      rcases chain_cases scopes id with hchain | ⟨parent, hlt, hchain⟩
      · rw [hchain, List.mem_singleton] at h
        exact h ▸ h'
      · rw [hchain] at h ⊢
        rcases List.mem_cons.mp h with rfl | h
        · rwa [hchain] at h'
        · exact List.mem_cons_of_mem _ (ih parent hlt h)

/-- Of two scopes around a third one, one is around the other. -/
theorem mem_chain_total (h : middle ∈ scopes.chain id) (h' : outer ∈ scopes.chain id) :
    outer ∈ scopes.chain middle ∨ middle ∈ scopes.chain outer := by
  induction id using Nat.strongRecOn with
  | ind id ih =>
      rcases chain_cases scopes id with hchain | ⟨parent, hlt, hchain⟩
      · rw [hchain, List.mem_singleton] at h h'
        subst h h'
        exact Or.inl (mem_chain_self _ _)
      · have hself : id ∈ scopes.chain id := mem_chain_self _ _
        rw [hchain] at h h'
        rcases List.mem_cons.mp h with rfl | hmem
        · left
          rwa [hchain]
        · rcases List.mem_cons.mp h' with rfl | hmem'
          · right
            rw [hchain]
            exact List.mem_cons_of_mem _ hmem
          · exact ih parent hlt hmem hmem'

/-- The scopes up to one further out are those up to one between and those from there. -/
theorem inside_append (h : middle ∈ scopes.chain id) (h' : outer ∈ scopes.chain middle) :
    scopes.inside id outer = scopes.inside id middle ++ scopes.inside middle outer := by
  induction id using Nat.strongRecOn with
  | ind id ih =>
      by_cases hid : id = middle
      · subst hid
        have hnone : scopes.inside id id = [] := by
          unfold inside
          rcases chain_cases scopes id with hchain | ⟨parent, -, hchain⟩ <;> rw [hchain] <;> simp
        rw [hnone, List.nil_append]
      · rcases chain_cases scopes id with hchain | ⟨parent, hlt, hchain⟩
        · rw [hchain, List.mem_singleton] at h
          exact absurd h.symm hid
        · have hmem : middle ∈ scopes.chain parent := by
            rw [hchain] at h
            exact (List.mem_cons.mp h).resolve_left (Ne.symm hid)
          have houter : id ≠ outer := by
            rintro rfl
            have hle := Nat.le_trans (le_of_mem_chain h') (le_of_mem_chain hmem)
            exact Nat.lt_irrefl _ (Nat.lt_of_le_of_lt hle hlt)
          have hstep : ∀ other, id ≠ other →
              scopes.inside id other = id :: scopes.inside parent other := by
            intro other hne
            unfold inside
            rw [hchain, List.takeWhile_cons, if_pos (by simpa using hne)]
          rw [hstep outer houter, hstep middle hid, ih parent hlt hmem, List.cons_append]

theorem inside_self (scopes : Scopes) (id : ScopeId) : scopes.inside id id = [] := by
  unfold inside
  rcases chain_cases scopes id with hchain | ⟨parent, -, hchain⟩ <;> rw [hchain] <;> simp

/-- A scope that lies directly in another one adds itself. -/
theorem inside_of_parent {table : Scope} {parent : ScopeId} (h : scopes.list[id]? = some table)
    (hparent : table.parent = some parent) (hlt : parent < id) (hne : id ≠ outer) :
    scopes.inside id outer = id :: scopes.inside parent outer := by
  unfold inside
  rw [chain_of_parent h hparent hlt, List.takeWhile_cons, if_pos (by simpa using hne)]

theorem frames_of_parent {table : Scope} {parent : ScopeId} (h : scopes.list[id]? = some table)
    (hparent : table.parent = some parent) (hlt : parent < id) (hne : id ≠ outer) :
    scopes.frames id outer = scopes.frameOf id + scopes.frames parent outer := by
  rw [frames, inside_of_parent h hparent hlt hne, List.map_cons, List.sum_cons, frames]

@[simp] theorem frames_self (scopes : Scopes) (id : ScopeId) : scopes.frames id id = 0 := by
  simp [frames, inside_self]

theorem frames_add (h : middle ∈ scopes.chain id) (h' : outer ∈ scopes.chain middle) :
    scopes.frames id outer = scopes.frames id middle + scopes.frames middle outer := by
  unfold frames
  rw [inside_append h h', List.map_append, List.sum_append]

theorem sum_filter_pos (sizes : List Nat) : (sizes.filter (0 < ·)).sum = sizes.sum := by
  induction sizes with
  | nil => rfl
  | cons size sizes ih =>
      rw [List.filter_cons]
      split
      · rw [List.sum_cons, List.sum_cons, ih]
      next hzero =>
        have : size = 0 := by simpa using hzero
        rw [ih, List.sum_cons, this, Nat.zero_add]

theorem sum_frameShape (scopes : Scopes) (id outer : ScopeId) :
    (scopes.frameShape id outer).sum = scopes.frames id outer := sum_filter_pos _

theorem frameShape_append (h : middle ∈ scopes.chain id) (h' : outer ∈ scopes.chain middle) :
    scopes.frameShape id outer = scopes.frameShape id middle ++ scopes.frameShape middle outer := by
  unfold frameShape
  rw [inside_append h h', List.map_append, List.filter_append]

theorem frameShape_pos {size : Nat} (h : size ∈ scopes.frameShape id outer) : 0 < size := by
  simpa using (List.mem_filter.mp h).2

/-- The frame of an inner scope lies below those of the scope around it. -/
theorem frameShape_of_parent {table : Scope} {parent : ScopeId} (h : scopes.list[id]? = some table)
    (hparent : table.parent = some parent) (hlt : parent < id) (hne : id ≠ outer) :
    scopes.frameShape id outer =
      (if 0 < scopes.frameOf id then [scopes.frameOf id] else []) ++
        scopes.frameShape parent outer := by
  unfold frameShape
  rw [inside_of_parent h hparent hlt hne, List.map_cons, List.filter_cons]
  split <;> simp_all

/-- The frames inside a scope contain that of any scope strictly inside it. -/
theorem frameOf_le_frames (hne : id ≠ outer) :
    scopes.frameOf id ≤ scopes.frames id outer := by
  unfold frames inside
  rcases chain_cases scopes id with hchain | ⟨parent, -, hchain⟩ <;>
    rw [hchain, List.takeWhile_cons, if_pos (by simpa using hne)] <;> simp

/-- The frames of scopes that lie in each other add up. -/
theorem frames_nested {bytes depth : Nat}
    (h : ∀ i < depth, ∃ table, scopes.list[id + i + 1]? = some table ∧
      table.parent = some (id + i) ∧ table.frame = bytes) :
    scopes.frames (id + depth) id = depth * bytes := by
  induction depth with
  | zero => rw [Nat.add_zero, frames_self, Nat.zero_mul]
  | succ depth ih =>
      obtain ⟨table, htable, hparent, hframe⟩ := h depth (Nat.lt_succ_self depth)
      have hown : scopes.frameOf (id + depth + 1) = bytes := by rw [frameOf, htable, ← hframe]; rfl
      have hne : id + depth + 1 ≠ id := Nat.ne_of_gt (Nat.lt_succ_of_le (Nat.le_add_right _ _))
      rw [← Nat.add_assoc, frames_of_parent htable hparent (Nat.lt_succ_self _) hne, hown,
        ih fun i hi => h i (Nat.lt_succ_of_lt hi), Nat.succ_mul, Nat.add_comm]

/-- No scope lies deeper than the deepest ones. -/
theorem frames_le_deepest (h : outer ∈ scopes.chain id) :
    scopes.frames id outer ≤ scopes.deepest outer := by
  by_cases hknown : id < scopes.list.length
  · have hmem : scopes.frames id outer ∈ ((List.range scopes.list.length).filter
        fun id => outer ∈ scopes.chain id).map (scopes.frames · outer) :=
      List.mem_map_of_mem (List.mem_filter.mpr ⟨List.mem_range.mpr hknown, decide_eq_true h⟩)
    rw [deepest]
    generalize ((List.range scopes.list.length).filter fun id => outer ∈ scopes.chain id).map
      (scopes.frames · outer) = sizes at hmem
    induction sizes with
    | nil => cases hmem
    | cons size sizes ih =>
        rw [List.foldr_cons]
        rcases List.mem_cons.mp hmem with rfl | hmem
        · exact Nat.le_max_left _ _
        · exact (ih hmem).trans (Nat.le_max_right _ _)
  · -- An unknown scope lies in no other one.
    rw [chain, List.getElem?_eq_none (Nat.le_of_not_lt hknown), Option.bind_none,
      List.mem_singleton] at h
    rw [h, frames_self]
    exact Nat.zero_le _

/-! ## Offsets and slots -/

theorem frame_eq_ok {bytes : Nat} (h : scopes.frame id = .ok bytes) : bytes = scopes.frameOf id := by
  unfold frame at h
  rw [map_eq_ok] at h
  obtain ⟨table, htable, rfl⟩ := h
  rw [get_eq_ok] at htable
  simp [frameOf, htable]

theorem mapM_frame_eq_ok {ids : List ScopeId} {list : List Nat}
    (h : ids.mapM scopes.frame = .ok list) : list = ids.map scopes.frameOf := by
  induction ids generalizing list with
  | nil =>
      rw [List.mapM_nil, pure_eq_ok] at h
      exact h.symm
  | cons id ids ih =>
      simp only [List.mapM_cons, bind_eq_ok, pure_eq_ok] at h
      obtain ⟨bytes, hbytes, rest, hrest, rfl⟩ := h
      rw [frame_eq_ok hbytes, ih hrest, List.map_cons]

theorem framesInside_eq_ok {bytes : Nat} (h : scopes.framesInside id outer = .ok bytes) :
    bytes = scopes.frames id outer := by
  simp only [framesInside, bind_eq_ok] at h
  obtain ⟨list, hlist, hsum⟩ := h
  rw [sumBytes_eq_ok hsum, mapM_frame_eq_ok hlist]
  rfl

/-- A distance from the stack pointer is that of a framed symbol of a scope on the chain. -/
theorem stackOffset_eq_some {distance : Nat}
    (h : scopes.stackOffset symbol id = .ok (some distance)) :
    ∃ offset, symbol.storage = .framed offset ∧ symbol.scope ∈ scopes.chain id ∧
      offset + symbol.type.size + distance =
        scopes.frames id symbol.scope + scopes.frameOf symbol.scope := by
  unfold stackOffset at h
  split at h
  · cases h
  · cases h
  next offset hstorage =>
    simp only [bind_eq_ok] at h
    obtain ⟨inside, hinside, h⟩ := h
    split at h
    next hmem =>
      simp only [bind_eq_ok, pure_eq_ok, addBytes_eq_ok, takeBytes_eq_ok, Option.some.injEq] at h
      obtain ⟨frame, hframe, top, ⟨-, rfl⟩, rest, ⟨hoffset, rfl⟩, last, ⟨hsize, rfl⟩, rfl⟩ := h
      have hinside' := framesInside_eq_ok hinside
      have hframe' := frame_eq_ok hframe
      exact ⟨offset, hstorage, hmem, by omega⟩
    next => simp at h

/-- Seen from any scope, a local has the same distance from a scope around it. -/
theorem stackOffset_slot {distance : Nat} (h : scopes.stackOffset symbol id = .ok (some distance))
    (houter : outer ∈ scopes.chain symbol.scope) :
    (distance : Int) - scopes.frames id outer = scopes.slot outer symbol := by
  obtain ⟨offset, hstorage, hmem, hsum⟩ := stackOffset_eq_some h
  have hframes := frames_add hmem houter
  simp only [slot, hstorage]
  omega

/-- Seen from its own scope, a local lies behind the later ones of its frame. -/
theorem stackOffset_own {table : Scope} {offset : Nat}
    (htable : scopes.list[symbol.scope]? = some table) (hstorage : symbol.storage = .framed offset)
    (hfits : table.frame < addressLimit) (hle : offset + symbol.type.size ≤ table.frame) :
    scopes.stackOffset symbol symbol.scope =
      .ok (some (table.frame - offset - symbol.type.size)) := by
  have hinside : scopes.framesInside symbol.scope symbol.scope = .ok 0 := by
    have hnone : (scopes.chain symbol.scope).takeWhile (· ≠ symbol.scope) = [] := by
      rw [chain]
      simp
    rw [framesInside, hnone]
    rfl
  have hframe : scopes.frame symbol.scope = .ok table.frame := by
    simp [frame, get, htable, Except.map]
  simp only [stackOffset, hstorage, bind_eq_ok, hinside, Except.ok.injEq, exists_eq_left',
    if_pos (mem_chain_self scopes symbol.scope), hframe, addBytes_eq_ok, takeBytes_eq_ok,
    pure_eq_ok]
  exact ⟨table.frame, ⟨by omega, by omega⟩, _, ⟨by omega, rfl⟩, _, ⟨by omega, rfl⟩, rfl⟩

/-- A visible symbol without a distance lives at a label. -/
theorem stackOffset_eq_none (hvisible : scopes.Visible id symbol)
    (h : scopes.stackOffset symbol id = .ok none) :
    symbol.storage = .labelled ∨ symbol.storage = .external := by
  unfold stackOffset at h
  split at h
  · exact Or.inl (by assumption)
  · exact Or.inr (by assumption)
  next offset hstorage =>
    simp only [bind_eq_ok] at h
    obtain ⟨inside, -, h⟩ := h
    rw [if_pos hvisible.1] at h
    simp only [bind_eq_ok, pure_eq_ok] at h
    obtain ⟨_, -, _, -, _, -, _, -, hsome⟩ := h
    cases hsome

/-! ## Offsets of known scopes -/

theorem frame_eq_ok_of_lt (h : id < scopes.list.length) :
    scopes.frame id = .ok (scopes.frameOf id) := by
  simp [frame, get, frameOf, List.getElem?_eq_getElem h, Except.map]

theorem mapM_frame_inside (h : id < scopes.list.length) (outer : ScopeId) :
    ((scopes.chain id).takeWhile (· ≠ outer)).mapM scopes.frame =
      .ok ((scopes.inside id outer).map scopes.frameOf) := by
  have hframes : ∀ ids : List ScopeId, (∀ inner ∈ ids, inner < scopes.list.length) →
      ids.mapM scopes.frame = .ok (ids.map scopes.frameOf) := by
    intro ids hknown
    induction ids with
    | nil => rfl
    | cons inner ids ih =>
        rw [List.mapM_cons, frame_eq_ok_of_lt (hknown inner List.mem_cons_self),
          ih fun other hmem => hknown other (List.mem_cons_of_mem _ hmem)]
        rfl
  refine hframes _ fun inner hmem => ?_
  exact Nat.lt_of_le_of_lt (le_of_mem_chain (List.takeWhile_subset _ hmem)) h

/-- The frames of known scopes can be added up unless they are too large. -/
theorem framesInside_eq_error (h : id < scopes.list.length) {cause : Breakdown}
    (herror : scopes.framesInside id outer = .error cause) : cause = .overflow := by
  rw [framesInside, mapM_frame_inside h] at herror
  exact foldlM_addBytes_eq_error herror

theorem framesInside_of_lt (h : id < scopes.list.length)
    (hfits : scopes.frames id outer < addressLimit) :
    scopes.framesInside id outer = .ok (scopes.frames id outer) := by
  rw [← Nat.zero_add (scopes.frames id outer)] at hfits ⊢
  rw [framesInside, mapM_frame_inside h]
  exact foldlM_addBytes_of_lt hfits

/-- The distance to a framed symbol of a scope on the chain, whose bytes lie in the frame. -/
theorem stackOffset_of_inside (hid : id < scopes.list.length) (hmem : symbol.scope ∈ scopes.chain id)
    {offset : Nat} (hstorage : symbol.storage = .framed offset)
    (hbytes : offset + symbol.type.size ≤ scopes.frameOf symbol.scope) :
    scopes.stackOffset symbol id =
      if scopes.frames id symbol.scope + scopes.frameOf symbol.scope < addressLimit then
        .ok (some (scopes.frames id symbol.scope + scopes.frameOf symbol.scope - offset -
          symbol.type.size))
      else .error .overflow := by
  have hknown := Nat.lt_of_le_of_lt (le_of_mem_chain hmem) hid
  split
  next hfits =>
    have hinside := framesInside_of_lt hid (Nat.lt_of_le_of_lt (Nat.le_add_right _ _) hfits)
    simp only [stackOffset, hstorage, bind_eq_ok, hinside, Except.ok.injEq, exists_eq_left',
      if_pos hmem, frame_eq_ok_of_lt hknown, addBytes_eq_ok, takeBytes_eq_ok, pure_eq_ok]
    exact ⟨_, ⟨hfits, rfl⟩, _, ⟨by omega, rfl⟩, _, ⟨by omega, rfl⟩, rfl⟩
  next hlarge =>
    simp only [stackOffset, hstorage, bind_eq_error, if_pos hmem, frame_eq_ok_of_lt hknown,
      Except.ok.injEq, exists_eq_left', reduceCtorEq, false_or]
    cases hinside : scopes.framesInside id symbol.scope with
    | error cause => exact .inl (congrArg _ (framesInside_eq_error hid hinside))
    | ok inside =>
        rw [← framesInside_eq_ok hinside] at hlarge
        exact .inr ⟨inside, rfl, .inl (addBytes_eq_error.mpr ⟨Nat.le_of_not_lt hlarge, rfl⟩)⟩

/-- A scope in which something is visible is known. -/
theorem Visible.lt_length (h : scopes.Visible id symbol) : id < scopes.list.length := by
  obtain ⟨hmem, table, htable, -⟩ := h
  rcases chain_cases scopes id with hchain | ⟨parent, hlt, hchain⟩
  · rw [hchain, List.mem_singleton] at hmem
    rw [hmem] at htable
    exact (List.getElem?_eq_some_iff.mp htable).1
  · -- An unknown scope has no other one around it.
    by_contra hnot
    rw [chain, List.getElem?_eq_none (Nat.le_of_not_lt hnot)] at hchain
    simp only [Option.bind_none, List.cons.injEq, true_and] at hchain
    exact List.ne_nil_of_mem (mem_chain_self scopes parent) hchain.symm

/-- The distance to a visible local, if the frames from there to it are not too large together. -/
theorem stackOffset_framed (hwf : scopes.WellFormed) (hvisible : scopes.Visible id symbol)
    {offset : Nat} (hstorage : symbol.storage = .framed offset) :
    scopes.stackOffset symbol id =
      if scopes.frames id symbol.scope + scopes.frameOf symbol.scope < addressLimit then
        .ok (some (scopes.frames id symbol.scope + scopes.frameOf symbol.scope - offset -
          symbol.type.size))
      else .error .overflow := by
  obtain ⟨table, htable, hmem⟩ := hvisible.2
  have hplace := (hwf.placed _ _ _ htable hmem).2
  have hframe : scopes.frameOf symbol.scope = table.frame := by simp [frameOf, htable]
  rw [Scope.Places, hstorage, ← hframe] at hplace
  exact stackOffset_of_inside hvisible.lt_length hvisible.1 hstorage hplace.2.2

/-- The distance to a visible symbol can be found unless the frames are too large. -/
theorem stackOffset_eq_error (hwf : scopes.WellFormed) (hvisible : scopes.Visible id symbol)
    {cause : Breakdown} (h : scopes.stackOffset symbol id = .error cause) : cause = .overflow := by
  cases hstorage : symbol.storage with
  | labelled | external => simp [stackOffset, hstorage] at h
  | framed offset =>
      rw [stackOffset_framed hwf hvisible hstorage] at h
      split at h
      · cases h
      · exact (Except.error.inj h).symm

/-! ## Disjoint slots -/

theorem Visible.places (hwf : scopes.WellFormed) (h : scopes.Visible id symbol) :
    ∃ table, scopes.list[symbol.scope]? = some table ∧ symbol ∈ table.symbols ∧
      table.Places symbol.scope symbol := by
  obtain ⟨-, table, htable, hmem⟩ := h
  exact ⟨table, htable, hmem, (hwf.placed _ table symbol htable hmem).2⟩

/-- Functions are visible everywhere where they can be called. -/
theorem Visible.global_of_isFunction (hwf : scopes.WellFormed) (h : scopes.Visible id symbol)
    (hfunction : symbol.type.isFunction = true) : scopes.Visible globalScope symbol := by
  obtain ⟨table, htable, hmem, hplace⟩ := h.places hwf
  have hscope : symbol.scope = globalScope := by
    unfold Scope.Places at hplace
    split at hplace
    · exact hplace
    · cases htype : symbol.type <;> simp_all [Ty.isFunction, Ty.isScalar]
    · simp_all
  refine ⟨?_, table, htable, hmem⟩
  rw [hscope]
  exact mem_chain_self _ _

/-- The bytes of a local lie in the frame of its scope. -/
theorem slot_bounds (outer : ScopeId) (hwf : scopes.WellFormed) (h : scopes.Visible id symbol)
    {offset : Nat} (hstorage : symbol.storage = .framed offset) :
    -(scopes.frames symbol.scope outer : Int) ≤ scopes.slot outer symbol ∧
      scopes.slot outer symbol + symbol.type.size ≤
        scopes.frameOf symbol.scope - scopes.frames symbol.scope outer := by
  obtain ⟨table, htable, -, hplace⟩ := h.places hwf
  rw [Scope.Places, hstorage] at hplace
  have hframe : scopes.frameOf symbol.scope = table.frame := by simp [frameOf, htable]
  simp only [slot, hstorage]
  omega

/-- Locals of different scopes on a chain: the one further inside lies below. -/
theorem slot_below (hwf : scopes.WellFormed) {other : Symbol} {offset offset' : Nat}
    (h : scopes.Visible id symbol) (h' : scopes.Visible id other)
    (hstorage : symbol.storage = .framed offset) (hstorage' : other.storage = .framed offset')
    (hne : symbol.scope ≠ other.scope) (hmem : other.scope ∈ scopes.chain symbol.scope)
    (houter : outer ∈ scopes.chain other.scope) :
    scopes.slot outer symbol + symbol.type.size ≤ scopes.slot outer other := by
  have hbounds := slot_bounds outer hwf h hstorage
  have hbounds' := slot_bounds outer hwf h' hstorage'
  have hframes := frames_add hmem houter
  have hinner : scopes.frameOf symbol.scope ≤ scopes.frames symbol.scope other.scope :=
    frameOf_le_frames hne
  omega

/-- Of symbols that lie behind one another, two are the same, or one lies behind the other. -/
theorem eq_or_behind {symbols : List Symbol} (hapart : symbols.Pairwise Symbol.Behind)
    {other : Symbol} (h : symbol ∈ symbols) (h' : other ∈ symbols) :
    symbol = other ∨ symbol.Behind other ∨ other.Behind symbol := by
  induction hapart with
  | nil => cases h
  | @cons latest earlier hlatest _ ih =>
      rcases List.mem_cons.mp h with rfl | hmem <;> rcases List.mem_cons.mp h' with rfl | hmem'
      · exact Or.inl rfl
      · exact Or.inr (Or.inl (hlatest other hmem'))
      · exact Or.inr (Or.inr (hlatest symbol hmem))
      · exact ih hmem hmem'

/-- Different locals that are visible together have disjoint bytes. -/
theorem slot_disjoint (hwf : scopes.WellFormed) {other : Symbol} {offset offset' : Nat}
    (h : scopes.Visible id symbol) (h' : scopes.Visible id other)
    (hstorage : symbol.storage = .framed offset) (hstorage' : other.storage = .framed offset')
    (hne : symbol ≠ other) (houter : outer ∈ scopes.chain symbol.scope)
    (houter' : outer ∈ scopes.chain other.scope) :
    scopes.slot outer symbol + symbol.type.size ≤ scopes.slot outer other ∨
      scopes.slot outer other + other.type.size ≤ scopes.slot outer symbol := by
  by_cases hscope : symbol.scope = other.scope
  · obtain ⟨table, htable, hmem, -⟩ := h.places hwf
    obtain ⟨table', htable', hmem', -⟩ := h'.places hwf
    rw [← hscope, htable, Option.some.injEq] at htable'
    subst htable'
    simp only [slot, hstorage, hstorage', ← hscope]
    rcases (eq_or_behind (hwf.apart _ table htable) hmem hmem').resolve_left hne with hbehind | hbehind
    · have := hbehind offset offset' hstorage hstorage'
      left
      omega
    · have := hbehind offset' offset hstorage' hstorage
      right
      omega
  · rcases mem_chain_total h.1 h'.1 with hmem | hmem
    · exact Or.inl (slot_below hwf h h' hstorage hstorage' hscope hmem houter')
    · exact Or.inr (slot_below hwf h' h hstorage' hstorage (Ne.symm hscope) hmem houter)

end Scopes

end AccumulatorC
