import AccumulatorC.Proofs.Lowering.MovingValues
import AccumulatorC.Proofs.Program.Evaluation

/-!
# Machines beside evaluation

A machine that runs the code of an expression stays beside the world in which the expression is
evaluated: the bytes that the program may touch are the same, as far as they have values, and so
are the calls to come. The bytes that are pushed during evaluation are the machine's own.
-/

namespace AccumulatorC

/-! ## Memory with and without values -/

/-- Bytes that have values are the bytes of a memory, wherever a condition holds. -/
def Shows (here : UInt16 → Prop) (known : UInt16 → Option UInt8) (memory : UInt16 → UInt8) : Prop :=
  ∀ x byte, here x → known x = some byte → memory x = byte

section Memory

variable {here : UInt16 → Prop} {known : UInt16 → Option UInt8} {memory : UInt16 → UInt8}
  {size : Nat} {x value : UInt16}

theorem storeAt_of_ne {y : UInt16} (h : y ≠ x) (h' : size = 2 → y ≠ x + 1) :
    storeAt memory size x value y = memory y := by
  unfold storeAt
  split
  next hsize => rw [Function.update_of_ne (h' hsize), Function.update_of_ne h]
  next => rw [Function.update_of_ne h]

/-- A value that is known is the value in the memory. -/
theorem Shows.valueAt_eq (h : Shows here known memory) (hx : here x)
    (hx' : size = 2 → here (x + 1)) (hvalue : knownAt known size x = some value) :
    valueAt memory size x = value := by
  simp only [knownAt, Option.bind_eq_bind, Option.bind_eq_some_iff] at hvalue
  obtain ⟨low, hlow, hvalue⟩ := hvalue
  unfold valueAt
  rw [h x low hx hlow]
  split
  next hsize =>
    rw [if_pos hsize] at hvalue
    obtain ⟨high, hhigh, hvalue⟩ := Option.bind_eq_some_iff.mp hvalue
    cases hvalue
    rw [h _ high (hx' hsize) hhigh]
  next hsize =>
    rw [if_neg hsize] at hvalue
    cases hvalue
    rfl

/-- The same value is stored on both sides. -/
theorem Shows.store (h : Shows here known memory) (size : Nat) (x value : UInt16) :
    Shows here (setAt known size x value) (storeAt memory size x value) := by
  have hupdate : ∀ {known : UInt16 → Option UInt8} {memory : UInt16 → UInt8} (x : UInt16)
      (byte : UInt8), Shows here known memory →
      Shows here (Function.update known x (some byte)) (Function.update memory x byte) := by
    intro known memory x byte h y given hy hgiven
    by_cases hyx : y = x
    · subst hyx
      rw [Function.update_self] at hgiven ⊢
      exact Option.some.inj hgiven
    · rw [Function.update_of_ne hyx] at hgiven ⊢
      exact h y given hy hgiven
  unfold setAt storeAt
  split
  · exact hupdate _ _ (hupdate _ _ h)
  · exact hupdate _ _ h

/-- Storing gives bytes values and takes none away. -/
theorem isSome_setAt {y : UInt16} (h : (known y).isSome = true) :
    (setAt known size x value y).isSome = true := by
  have hupdate : ∀ {known : UInt16 → Option UInt8} (x : UInt16) (byte : UInt8),
      (known y).isSome = true → (Function.update known x (some byte) y).isSome = true := by
    intro known x byte h
    by_cases hyx : y = x
    · rw [hyx, Function.update_self]
      rfl
    · rwa [Function.update_of_ne hyx]
  unfold setAt
  split
  · exact hupdate _ _ (hupdate _ _ h)
  · exact hupdate _ _ h

end Memory

/-! ## Levels -/

namespace Site

variable {site : Site} {depth : Nat}

/-- So many bytes on the stack, those from the beginning of evaluation among them, leave room for
what operations push. -/
structure Fits (site : Site) (depth : Nat) : Prop where
  used_le : site.used ≤ depth
  le_room : depth + 2 ≤ site.room

theorem used_le_level (x : UInt16) : site.used ≤ site.level x := Nat.le_add_right _ _

theorem level_lt (x : UInt16) : site.level x < site.used + addressLimit :=
  Nat.add_lt_add_left (UInt16.toNat_lt _) _

/-- The stack pointer while more is on the stack than when evaluation began. -/
theorem entry_sub (hused : site.used ≤ depth) :
    site.entry - .ofNat depth = site.start - .ofNat (depth - site.used) := by
  obtain ⟨more, rfl⟩ := Nat.exists_eq_add_of_le hused
  rw [start, UInt16.ofNat_add, Nat.add_sub_cancel_left]
  grind

/-- How far a byte is below a stack pointer, from how far it is below that at the entry. -/
theorem below_eq {sp : UInt16} (hsp : sp = site.entry - .ofNat depth) (hused : site.used ≤ depth)
    (hdepth : depth < site.used + addressLimit) (x : UInt16) :
    (sp - 1 - x).toNat =
      if depth ≤ site.level x then site.level x - depth
      else site.level x + addressLimit - depth := by
  have hsub : sp - 1 - x = site.start - 1 - x - .ofNat (depth - site.used) := by
    rw [hsp, entry_sub hused]
    grind
  have hlt : (site.start - 1 - x).toNat < addressLimit := UInt16.toNat_lt _
  have hofNat : (UInt16.ofNat (depth - site.used)).toNat = depth - site.used := by
    rw [UInt16.toNat_ofNat', Nat.mod_eq_of_lt]
    simp only [addressLimit] at hdepth
    omega
  unfold level
  rw [hsub, UInt16.toNat_sub, hofNat]
  simp only [addressLimit] at hlt hdepth ⊢
  split <;> omega

/-- Bytes that the program may touch, and those that have been pushed, are at least two bytes away
from the stack pointer on the side of the free bytes. -/
theorem Fits.two_le {sp : UInt16} (h : site.Fits depth) (hsp : sp = site.entry - .ofNat depth)
    {x : UInt16} (hx : site.Open x ∨ site.level x < depth) : 2 ≤ (sp - 1 - x).toNat := by
  have hroom := site.room_le
  have hle := h.le_room
  have hused := h.used_le
  have hlevel := site.used_le_level x
  simp only [addressLimit] at hroom
  rw [below_eq hsp hused (by simp only [addressLimit]; omega) x]
  simp only [Open] at hx
  simp only [addressLimit]
  split <;> omega

/-! ## States of a machine and worlds -/

/-- The machine is in the state of a world while so many bytes are on the stack. -/
structure Mirrors (site : Site) (depth : Nat) (world : World) (m : Machine) : Prop where
  sp : m.sp = site.entry - .ofNat depth
  memory : Shows site.Open world.memory m.memory
  outcomes : m.outcomes = world.outcomes

/-- While so many bytes are on the stack, a code takes a machine beside one world to a machine
beside another one. Some registers stay as they are, and so do the bytes that have been pushed. -/
structure Tracks (site : Site) (depth : Nat) (code : List Line) (kept : Reg → Prop) (world : World)
    (m : Machine) (world' : World) (m' : Machine) : Prop where
  executes : Executes site.platform code m m'
  rise : netRise code = 0
  mirrors : site.Mirrors depth world' m'
  registers : ∀ r, kept r → m'.read r = m.read r
  pushed : ∀ x, site.level x < depth → m'.memory x = m.memory x
  known : ∀ x, (world.memory x).isSome = true → (world'.memory x).isSome = true

namespace Tracks

variable {code rest : List Line} {kept other : Reg → Prop} {world middle world' : World}
  {m between m' : Machine}

theorem append (h : site.Tracks depth code kept world m middle between)
    (h' : site.Tracks depth rest kept middle between world' m') :
    site.Tracks depth (code ++ rest) kept world m world' m' where
  executes := h.executes.append h'.executes
  rise := by rw [netRise_append, h.rise, h'.rise, Int.add_zero]
  mirrors := h'.mirrors
  registers r hr := (h'.registers r hr).trans (h.registers r hr)
  pushed x hdepth := (h'.pushed x hdepth).trans (h.pushed x hdepth)
  known x hx := h'.known x (h.known x hx)

theorem mono (h : site.Tracks depth code kept world m world' m') (hkept : ∀ r, other r → kept r) :
    site.Tracks depth code other world m world' m' where
  executes := h.executes
  rise := h.rise
  mirrors := h.mirrors
  registers r hr := h.registers r (hkept r hr)
  pushed := h.pushed
  known := h.known

theorem nil (kept : Reg → Prop) (h : site.Mirrors depth world m) :
    site.Tracks depth [] kept world m world m where
  executes := .nil site.platform m
  rise := rfl
  mirrors := h
  registers _ _ := rfl
  pushed _ _ := rfl
  known _ hx := hx

/-- Code that touches nothing but registers and two bytes below the stack pointer. -/
theorem of_quiet {bytes : Nat} (hbytes : bytes ≤ 2) (hfits : site.Fits depth)
    (hmirrors : site.Mirrors depth world m) (h : Quiet site.platform bytes code kept m m') :
    site.Tracks depth code kept world m world m' where
  executes := h.executes
  rise := h.rise
  mirrors := by
    refine ⟨h.keeps.sp.trans hmirrors.sp, fun x byte hx hbyte => ?_,
      h.keeps.outcomes.trans hmirrors.outcomes⟩
    rw [h.keeps.memory x (hbytes.trans (hfits.two_le hmirrors.sp (.inl hx)))]
    exact hmirrors.memory x byte hx hbyte
  registers := h.keeps.registers
  pushed x hdepth := h.keeps.memory x (hbytes.trans (hfits.two_le hmirrors.sp (.inr hdepth)))
  known _ hx := hx

theorem of_delivers {bytes : Nat} {r : Reg} {value : UInt16} (hbytes : bytes ≤ 2)
    (hfits : site.Fits depth) (hmirrors : site.Mirrors depth world m)
    (h : Delivers site.platform bytes code kept m r value) :
    ∃ m', site.Tracks depth code kept world m world m' ∧ m'.read r = value := by
  obtain ⟨m', hquiet, hvalue⟩ := h
  exact ⟨m', of_quiet hbytes hfits hmirrors hquiet, hvalue⟩

/-- Code that changes registers only. -/
theorem of_effect {i : Instr} {r : Reg} {value : UInt16}
    (hmirrors : site.Mirrors depth world m)
    (h : i.effect site.platform m = some (m.write r value)) (hrise : i.rise = 0) :
    site.Tracks depth [.instr i] (Reg.ApartFrom [r]) world m world (m.write r value) where
  executes := .effect h
  rise := by rw [netRise_cons, Line.rise, hrise, netRise_nil, Int.add_zero]
  mirrors := ⟨hmirrors.sp, hmirrors.memory, hmirrors.outcomes⟩
  registers _ hs := Registers.read_write_of_apart (hs r List.mem_cons_self) m.registers value
  pushed _ _ := rfl
  known _ hx := hx

end Tracks

/-! ## Memory operands -/

theorem fetch_eq_some {size : Nat} {x value : UInt16} {world world' : World}
    (h : site.fetch size x world = some (value, world')) :
    site.Allows size x ∧ knownAt world.memory size x = some value ∧ world' = world := by
  unfold fetch at h
  split at h
  next hallows =>
    obtain ⟨known, hknown, hpair⟩ := Option.map_eq_some_iff.mp h
    cases hpair
    exact ⟨hallows, hknown, rfl⟩
  · cases h

theorem store_eq_some {size : Nat} {x value : UInt16} {world world' : World}
    (h : site.store size x value world = some ((), world')) :
    site.Allows size x ∧ world' = { world with memory := setAt world.memory size x value } := by
  unfold store at h
  split at h
  next hallows =>
    cases h
    exact ⟨hallows, rfl⟩
  · cases h

theorem Mirrors.valueAt_eq {size : Nat} {x value : UInt16} {world : World} {m : Machine}
    (h : site.Mirrors depth world m) (hallows : site.Allows size x)
    (hvalue : knownAt world.memory size x = some value) : valueAt m.memory size x = value :=
  h.memory.valueAt_eq hallows.1 hallows.2 hvalue

/-- Bytes that have been pushed are not for the program to touch. -/
theorem Fits.ne_of_pushed (hfits : site.Fits depth) {x y : UInt16} (hx : site.Open x)
    (hdepth : site.level y < depth) : y ≠ x := by
  rintro rfl
  have hroom := hfits.le_room
  simp only [Open] at hx
  omega

/-- A machine that has stored what evaluation stores. -/
theorem Tracks.of_store {code : List Line} {kept : Reg → Prop} {world world' : World}
    {m m' : Machine} {size : Nat} {x value : UInt16} (hfits : site.Fits depth)
    (hmirrors : site.Mirrors depth world m)
    (hstore : site.store size x value world = some ((), world'))
    (hexecutes : Executes site.platform code m m') (hrise : netRise code = 0) (hsp : m'.sp = m.sp)
    (houtcomes : m'.outcomes = m.outcomes) (hmemory : m'.memory = storeAt m.memory size x value)
    (hregisters : ∀ r, kept r → m'.read r = m.read r) :
    site.Tracks depth code kept world m world' m' := by
  obtain ⟨⟨hopen, hopen'⟩, rfl⟩ := store_eq_some hstore
  refine ⟨hexecutes, hrise, ⟨hsp.trans hmirrors.sp, ?_, houtcomes.trans hmirrors.outcomes⟩,
    hregisters, ?_, fun y hy => isSome_setAt hy⟩
  · rw [hmemory]
    exact hmirrors.memory.store size x value
  · intro y hdepth
    rw [hmemory]
    exact storeAt_of_ne (hfits.ne_of_pushed hopen hdepth)
      fun hsize => hfits.ne_of_pushed (hopen' hsize) hdepth

theorem ofInt_natCast_sub (a b : Nat) : UInt16.ofInt ((a : Int) - b) = .ofNat a - .ofNat b := by
  apply UInt16.toNat.inj
  rw [UInt16.toNat_sub]
  simp only [UInt16.ofInt, UInt16.toNat_ofNat']
  omega

/-- The address that a symbol is given while so many bytes are on the stack is its place. -/
theorem locate_eq_place {scope : ScopeId} {symbol : Symbol} {address : Address} {pushed : Nat}
    {m : Machine} (hvisible : site.scopes.Visible scope symbol)
    (hlocal : ∀ offset, symbol.storage = .framed offset →
      site.outer ∈ site.scopes.chain symbol.scope)
    (hsp : m.sp = site.entry - .ofNat (site.scopes.frames scope site.outer + pushed))
    (haddress : (∃ offset, site.scopes.stackOffset symbol scope = .ok (some offset) ∧
        address = .stack (offset + pushed)) ∨
      (site.scopes.stackOffset symbol scope = .ok none ∧ address = .label symbol.name 0)) :
    address.locate site.platform m = site.place symbol := by
  rcases haddress with ⟨distance, hoffset, rfl⟩ | ⟨hoffset, rfl⟩
  · obtain ⟨offset, hstorage, -, -⟩ := Scopes.stackOffset_eq_some hoffset
    have hslot := Scopes.stackOffset_slot hoffset (hlocal offset hstorage)
    simp only [Address.locate, place, hstorage]
    rw [hsp, ← hslot, ofInt_natCast_sub, UInt16.ofNat_add, UInt16.ofNat_add]
    grind
  · have hplace : site.place symbol = site.platform.address (.symbol symbol.name) := by
      rcases Scopes.stackOffset_eq_none hvisible hoffset with hstorage | hstorage <;>
        simp only [place, hstorage]
    rw [hplace, Address.locate]
    grind

end Site

end AccumulatorC
