import Mathlib.Algebra.Ring.Int.Defs
import Mathlib.Algebra.Ring.Nat
import AccumulatorC.Breakdown

/-!
# Results without a breakdown

What is known of the parts of a calculation that has succeeded, and of byte counts that have
stayed within the address space.
-/

namespace AccumulatorC

section Results

variable {ε α β : Type}

@[simp] theorem ok_bind (value : α) (next : α → Except ε β) :
    (Except.ok value >>= next) = next value := rfl

@[simp] theorem bind_eq_ok {first : Except ε α} {second : α → Except ε β} {result : β} :
    (first >>= second) = .ok result ↔
      ∃ value, first = .ok value ∧ second value = .ok result := by
  cases first <;> simp [bind, Except.bind]

@[simp] theorem map_eq_ok {result : Except ε α} {f : α → β} {value : β} :
    result.map f = .ok value ↔ ∃ source, result = .ok source ∧ f source = value := by
  cases result <;> simp [Except.map]

@[simp] theorem pure_eq_ok {value result : α} :
    (pure value : Except ε α) = .ok result ↔ value = result := by
  simp [pure, Except.pure]

@[simp] theorem throw_ne_ok {cause : ε} {result : α} :
    (throw cause : Except ε α) ≠ .ok result := by
  simp [throw, throwThe, MonadExceptOf.throw]

@[simp] theorem Breakdown.lift_eq_ok {result : Except Breakdown α} {value : α} :
    (Breakdown.lift result : Except (Stop ε) α) = .ok value ↔ result = .ok value := by
  cases result <;> simp [Breakdown.lift]

/-- A result that exists is the same whatever would stand for a missing one. -/
theorem eq_ok_of_isOk {result : Except ε α} (h : result.isOk = true) (other : α) :
    result = .ok (result.toOption.getD other) := by
  cases result with
  | ok value => rfl
  | error cause => cases h

theorem eq_ok_of_toOption {result : Except ε α} {value : α} (h : result.toOption = some value) :
    result = .ok value := by
  cases result with
  | ok found => rw [Option.some.inj h]
  | error cause => cases h

theorem exists_eq_ok_of_any {result : Except ε α} {holds : α → Bool}
    (h : result.toOption.any holds = true) : ∃ value, result = .ok value ∧ holds value = true := by
  obtain ⟨value, hvalue, hholds⟩ := (Option.any_eq_true _ _).mp h
  exact ⟨value, eq_ok_of_toOption hvalue, hholds⟩

theorem bind_eq_error {first : Except ε α} {second : α → Except ε β} {cause : ε} :
    (first >>= second) = .error cause ↔
      first = .error cause ∨ ∃ value, first = .ok value ∧ second value = .error cause := by
  cases first <;> simp [bind, Except.bind]

theorem map_eq_error {result : Except ε α} {f : α → β} {cause : ε} :
    result.map f = .error cause ↔ result = .error cause := by
  cases result <;> simp [Except.map]

theorem mapError_eq_ok {δ : Type} {result : Except ε α} {f : ε → δ} {value : α} :
    result.mapError f = .ok value ↔ result = .ok value := by
  cases result <;> simp [Except.mapError]

theorem mapError_eq_error {δ : Type} {result : Except ε α} {f : ε → δ} {cause : δ} :
    result.mapError f = .error cause ↔ ∃ source, result = .error source ∧ f source = cause := by
  cases result <;> simp [Except.mapError]

end Results

theorem addBytes_eq_ok {a b sum : Nat} :
    addBytes a b = .ok sum ↔ a + b < addressLimit ∧ sum = a + b := by
  by_cases hfit : a + b < addressLimit <;> simp [addBytes, hfit, eq_comm]

theorem takeBytes_eq_ok {a b rest : Nat} : takeBytes a b = .ok rest ↔ b ≤ a ∧ rest = a - b := by
  by_cases hfit : b ≤ a <;> simp [takeBytes, hfit, eq_comm]

theorem addBytes_eq_error {a b : Nat} {cause : Breakdown} :
    addBytes a b = .error cause ↔ addressLimit ≤ a + b ∧ cause = .overflow := by
  unfold addBytes
  split
  next h => simp [Nat.not_le.mpr h]
  next h => simp [Nat.not_lt.mp h, eq_comm]

theorem foldlM_addBytes_eq_ok {counts : List Nat} {start sum : Nat}
    (h : counts.foldlM addBytes start = .ok sum) : sum = start + counts.sum := by
  induction counts generalizing start with
  | nil => simpa [pure, Except.pure, eq_comm] using h
  | cons count counts ih =>
      simp only [List.foldlM_cons, bind_eq_ok, addBytes_eq_ok] at h
      obtain ⟨first, ⟨-, rfl⟩, hrest⟩ := h
      rw [ih hrest, List.sum_cons, Nat.add_assoc]

/-- Adding up byte counts fails only where they grow too large. -/
theorem foldlM_addBytes_eq_error {counts : List Nat} {start : Nat} {cause : Breakdown}
    (h : counts.foldlM addBytes start = .error cause) : cause = .overflow := by
  induction counts generalizing start with
  | nil => cases h
  | cons count counts ih =>
      rw [List.foldlM_cons, bind_eq_error, addBytes_eq_error] at h
      rcases h with ⟨-, hcause⟩ | ⟨sum, -, hrest⟩
      · exact hcause
      · exact ih hrest

theorem foldlM_addBytes_of_lt {counts : List Nat} {start : Nat}
    (h : start + counts.sum < addressLimit) :
    counts.foldlM addBytes start = .ok (start + counts.sum) := by
  induction counts generalizing start with
  | nil => rfl
  | cons count counts ih =>
      rw [List.sum_cons, ← Nat.add_assoc] at h ⊢
      have hfirst : addBytes start count = .ok (start + count) :=
        addBytes_eq_ok.mpr ⟨by omega, rfl⟩
      rw [List.foldlM_cons, hfirst]
      exact ih h

theorem foldlM_addBytes_lt {counts : List Nat} {start sum : Nat} (hstart : start < addressLimit)
    (h : counts.foldlM addBytes start = .ok sum) : sum < addressLimit := by
  induction counts generalizing start with
  | nil => exact Except.ok.inj h ▸ hstart
  | cons count counts ih =>
      rw [List.foldlM_cons, bind_eq_ok] at h
      obtain ⟨first, hfirst, hrest⟩ := h
      obtain ⟨hfits, rfl⟩ := addBytes_eq_ok.mp hfirst
      exact ih hfits hrest

/-- Byte counts that can be added up have the sum that they have as numbers. -/
theorem sumBytes_eq_ok {counts : List Nat} {sum : Nat} (h : sumBytes counts = .ok sum) :
    sum = counts.sum := by
  simpa using foldlM_addBytes_eq_ok h

end AccumulatorC
