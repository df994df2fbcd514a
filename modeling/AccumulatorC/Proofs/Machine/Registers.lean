import Mathlib.Data.List.Nodup
import AccumulatorC.Machine.RegisterSet

/-!
# Overlapping registers and conflict-free sets

Two registers overlap when they share a byte. A set is conflict-free when no two of its
registers overlap; taking a free register and giving one back keep it so.
-/

namespace AccumulatorC

namespace Reg

@[simp] theorem overlaps_self (r : Reg) : r.overlaps r = true := by
  cases r <;> rfl

theorem overlaps_comm (r s : Reg) : r.overlaps s = s.overlaps r := by
  cases r <;> cases s <;> rfl

/-- Two registers that share no byte. -/
abbrev Apart (r s : Reg) : Prop := r.overlaps s = false

instance : Std.Symm Apart where
  symm r s h := by rwa [Apart, overlaps_comm]

theorem size_eq_one_or_two (r : Reg) : r.size = 1 ∨ r.size = 2 := by
  cases r <;> simp [size]

@[simp] theorem size_low (r : Reg) : r.low.size = 1 := by
  cases r <;> rfl

@[simp] theorem size_high (r : Reg) : r.high.size = 1 := by
  cases r <;> rfl

theorem halves_eq_none_iff (r : Reg) : r.halves = none ↔ r.size = 1 := by
  cases r <;> simp [halves, size]

theorem halves_of_size_two {r : Reg} (h : r.size = 2) : r.halves = some (r.high, r.low) := by
  cases r <;> first | rfl | simp [size] at h

/-- Only a pair has halves, and these are the high one and the low one. -/
theorem eq_of_halves {r high low : Reg} (h : r.halves = some (high, low)) :
    r.size = 2 ∧ high = r.high ∧ low = r.low := by
  rcases r.size_eq_one_or_two with hone | htwo
  · cases h.symm.trans ((halves_eq_none_iff r).mpr hone)
  · cases h.symm.trans (halves_of_size_two htwo)
    exact ⟨htwo, rfl, rfl⟩

theorem overlaps_of_low {r s : Reg} (h : r.low.overlaps s = true) : r.overlaps s = true := by
  cases r <;> cases s <;> revert h <;> decide

theorem overlaps_of_high {r s : Reg} (h : r.high.overlaps s = true) : r.overlaps s = true := by
  cases r <;> cases s <;> revert h <;> decide

theorem low_apart {r s : Reg} (h : r.overlaps s = false) : r.low.overlaps s = false := by
  by_contra hover
  rw [overlaps_of_low (by simpa using hover)] at h
  cases h

theorem high_apart {r s : Reg} (h : r.overlaps s = false) : r.high.overlaps s = false := by
  by_contra hover
  rw [overlaps_of_high (by simpa using hover)] at h
  cases h

theorem high_not_overlaps_low {r : Reg} (h : r.size = 2) : r.high.overlaps r.low = false := by
  cases r <;> first | rfl | simp [size] at h

/-- The halves of two pairs that share no byte are apart. -/
theorem halves_apart {r s : Reg} (hr : r.size = 2) (hs : s.size = 2) (h : r.overlaps s = false) :
    (r.low.overlaps s.low = false ∧ r.low.overlaps s.high = false) ∧
      r.high.overlaps s.low = false ∧ r.high.overlaps s.high = false := by
  cases r <;> cases hr <;> cases s <;> cases hs <;> revert h <;> decide

theorem halves_ne_a {r : Reg} (h : r.size = 2) : r.high ≠ .a ∧ r.low ≠ .a := by
  cases r <;> cases h <;> decide

theorem a_apart_of_ne {r : Reg} (h : r ≠ .a) : a.overlaps r = false := by
  cases r <;> first | rfl | exact absurd rfl h

theorem size_result (size : Nat) : (result size).size = if size = 2 then 2 else 1 := by
  unfold result
  split <;> rfl

/-- The register shares no byte with any of the given ones. -/
def ApartFrom (others : List Reg) (r : Reg) : Prop := ∀ s ∈ others, s.overlaps r = false

@[simp] theorem apartFrom_cons {others : List Reg} {r s : Reg} :
    ApartFrom (s :: others) r ↔ s.overlaps r = false ∧ ApartFrom others r :=
  List.forall_mem_cons

@[simp] theorem apartFrom_nil (r : Reg) : ApartFrom [] r := by
  intro s hs
  cases hs

end Reg

namespace RegSet

/-- A set is known by the registers in it. -/
theorem ext {set other : RegSet} (h : ∀ r, set.contains r = other.contains r) :
    set = other := by
  cases set
  cases other
  have ha := h .a
  have hb := h .b
  have hc := h .c
  have hd := h .d
  have he := h .e
  have hbc := h .bc
  have hde := h .de
  simp only [contains] at ha hb hc hd he hbc hde
  subst ha hb hc hd he hbc hde
  rfl

@[simp] theorem contains_insert (set : RegSet) (r s : Reg) :
    (set.insert r).contains s = (decide (s = r) || set.contains s) := by
  rw [insert, contains_update]
  by_cases h : s = r <;> simp [h]

@[simp] theorem contains_erase (set : RegSet) (r s : Reg) :
    (set.erase r).contains s = (!decide (s = r) && set.contains s) := by
  rw [erase, contains_update]
  by_cases h : s = r <;> simp [h]

@[simp] theorem contains_empty (r : Reg) : empty.contains r = false := by
  cases r <;> rfl

theorem mem_file (r : Reg) : r ∈ Reg.file := by
  cases r <;> decide

theorem mem_toList {set : RegSet} {r : Reg} : r ∈ set.toList ↔ set.contains r = true := by
  simp [toList, mem_file]

theorem nodup_toList (set : RegSet) : set.toList.Nodup :=
  List.Nodup.filter _ (by decide)

/-- A register is free when none of the set overlaps it. -/
theorem isFree_iff {set : RegSet} {r : Reg} :
    set.isFree r = true ↔ ∀ s, set.contains s = true → r.overlaps s = false := by
  simp only [isFree, List.all_eq_true, mem_file, true_implies, Bool.not_eq_true',
    Bool.and_eq_false_iff]
  constructor
  · intro h s hs
    exact (h s).resolve_left (by simp [hs])
  · intro h s
    by_cases hs : set.contains s = true
    · exact Or.inr (h s hs)
    · exact Or.inl (by simpa using hs)

theorem not_contains_of_isFree {set : RegSet} {r : Reg} (h : set.isFree r = true) :
    set.contains r = false := by
  by_contra hr
  have hself := isFree_iff.mp h r (by simpa using hr)
  simp at hself

@[simp] theorem isFree_empty (r : Reg) : empty.isFree r = true := by
  simp [isFree_iff]

theorem isFree_of_overlaps_only {set : RegSet} {r s : Reg} (h : set.isFree r = true)
    (hsub : ∀ t, s.overlaps t = true → r.overlaps t = true) : set.isFree s = true := by
  rw [isFree_iff] at h ⊢
  intro t ht
  by_contra hst
  have := hsub t (by simpa using hst)
  simp [h t ht] at this

theorem isFree_low {set : RegSet} {r : Reg} (h : set.isFree r = true) :
    set.isFree r.low = true :=
  isFree_of_overlaps_only h fun _ => Reg.overlaps_of_low

theorem isFree_insert {set : RegSet} {r s : Reg} :
    (set.insert s).isFree r = true ↔ set.isFree r = true ∧ r.overlaps s = false := by
  simp only [isFree_iff, contains_insert, Bool.or_eq_true, decide_eq_true_eq]
  constructor
  · intro h
    exact ⟨fun t ht => h t (Or.inr ht), h s (Or.inl rfl)⟩
  · rintro ⟨h, hs⟩ t (rfl | ht)
    · exact hs
    · exact h t ht

/-- A register that overlaps nothing else of the set becomes free when it is given back. -/
theorem erase_insert {set : RegSet} {r : Reg} (h : set.contains r = false) :
    (set.insert r).erase r = set := by
  apply ext
  intro s
  by_cases hs : s = r <;> simp [hs, h]

theorem erase_insert_of_ne {set : RegSet} {r s : Reg} (h : r ≠ s) :
    (set.insert r).erase s = (set.erase s).insert r := by
  apply ext
  intro t
  by_cases htr : t = r
  · subst htr
    simp [h]
  · by_cases hts : t = s
    · subst hts
      simp [Ne.symm h]
    · simp [htr, hts]

/-- What a first free register is: free, and of the smallest size that is large enough. -/
theorem firstFree_eq_some {set : RegSet} {size : Nat} {r : Reg}
    (h : set.firstFree size = some r) : set.isFree r = true ∧ size ≤ r.size := by
  have hfound := List.find?_some h
  simp only [Bool.and_eq_true, decide_eq_true_eq] at hfound
  exact ⟨hfound.2, hfound.1⟩

theorem size_of_firstFree_two {set : RegSet} {r : Reg} (h : set.firstFree 2 = some r) :
    r.size = 2 := by
  have hsize := (firstFree_eq_some h).2
  rcases r.size_eq_one_or_two with hr | hr <;> omega

/-- A pair is never given out for a byte, since its halves are free when it is. -/
theorem size_of_firstFree_le_one {set : RegSet} {size : Nat} {r : Reg} (hsize : size ≤ 1)
    (h : set.firstFree size = some r) : r.size = 1 := by
  rcases r.size_eq_one_or_two with hr | hr
  · exact hr
  · exfalso
    have hfree := isFree_low (firstFree_eq_some h).1
    have hlow : ∃ before after, Reg.file = before ++ r.low :: after ∧ r ∉ before ++ [r.low] := by
      cases r <;> first | (simp [Reg.size] at hr; done) | skip
      · exact ⟨[.a, .b], [.d, .e, .bc, .de], rfl, by decide⟩
      · exact ⟨[.a, .b, .c, .d], [.bc, .de], rfl, by decide⟩
    obtain ⟨before, after, hfile, hnot⟩ := hlow
    unfold firstFree at h
    rw [hfile, List.find?_append] at h
    simp only [List.find?_cons, Reg.size_low, hsize, hfree, decide_true, Bool.and_self] at h
    cases hbefore : before.find? (fun r => decide (size ≤ r.size) && set.isFree r) with
    | none =>
        simp only [hbefore, Option.none_or, Option.some.injEq] at h
        exact hnot (by simp [h])
    | some s =>
        simp only [hbefore, Option.some_or, Option.some.injEq] at h
        exact hnot (by simp [← h, List.mem_of_find?_eq_some hbefore])

theorem size_of_firstFree {set : RegSet} {size : Nat} {r : Reg} (hsize : size = 1 ∨ size = 2)
    (h : set.firstFree size = some r) : r.size = size := by
  rcases hsize with rfl | rfl
  · exact size_of_firstFree_le_one (Nat.le_refl 1) h
  · exact size_of_firstFree_two h

/-- No two registers of the set overlap. -/
def ConflictFree (set : RegSet) : Prop :=
  ∀ r s, set.contains r = true → set.contains s = true → r ≠ s → r.overlaps s = false

theorem conflictFree_empty : empty.ConflictFree := by
  intro r s hr
  simp at hr

theorem ConflictFree.insert {set : RegSet} (h : set.ConflictFree) {r : Reg}
    (hr : set.isFree r = true) : (set.insert r).ConflictFree := by
  rw [isFree_iff] at hr
  intro s t hs ht hne
  simp only [contains_insert, Bool.or_eq_true, decide_eq_true_eq] at hs ht
  rcases hs with rfl | hs <;> rcases ht with rfl | ht
  · exact absurd rfl hne
  · exact hr t ht
  · rw [Reg.overlaps_comm]
    exact hr s hs
  · exact h s t hs ht hne

theorem ConflictFree.erase {set : RegSet} (h : set.ConflictFree) (r : Reg) :
    (set.erase r).ConflictFree := by
  intro s t hs ht
  simp only [contains_erase, Bool.and_eq_true] at hs ht
  exact h s t hs.2 ht.2

/-- The accumulator is free in any conflict-free set that it is not in. -/
theorem ConflictFree.insert_a {set : RegSet} (h : set.ConflictFree) :
    (set.insert .a).ConflictFree := by
  by_cases ha : set.contains .a = true
  · intro r s hr hs
    rw [contains_insert, Bool.or_eq_true, decide_eq_true_eq] at hr hs
    apply h r s
    · rcases hr with rfl | hr
      · exact ha
      · exact hr
    · rcases hs with rfl | hs
      · exact ha
      · exact hs
  · apply h.insert
    rw [isFree_iff]
    intro s hs
    apply Reg.a_apart_of_ne
    rintro rfl
    exact ha hs

/-- The registers of a set without the given ones. -/
def Besides (set : RegSet) (changed : List Reg) (r : Reg) : Prop :=
  set.contains r = true ∧ r ∉ changed

theorem ConflictFree.apartFrom {set : RegSet} (h : set.ConflictFree) {changed : List Reg}
    (hchanged : ∀ s ∈ changed, set.contains s = true) {r : Reg} (hr : set.Besides changed r) :
    Reg.ApartFrom changed r := by
  intro s hs
  apply h s r (hchanged s hs) hr.1
  intro heq
  exact hr.2 (heq ▸ hs)

/-- A free register shares no byte with those of the set. -/
theorem apartFrom_of_isFree {set : RegSet} {r s : Reg} (h : set.isFree r = true)
    (hs : set.contains s = true) : Reg.ApartFrom [r] s := by
  simpa using isFree_iff.mp h s hs

theorem insert_of_contains {set : RegSet} {r : Reg} (h : set.contains r = true) :
    set.insert r = set := by
  apply ext
  intro s
  by_cases hs : s = r <;> simp [hs, h]

end RegSet

end AccumulatorC
