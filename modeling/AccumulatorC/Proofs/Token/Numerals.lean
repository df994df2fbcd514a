import Mathlib.Data.Bool.AllAny
import AccumulatorC.Token.Lexeme

/-!
# The numbers that digits denote

Digits are added to a number one after the other, and the number is given up as soon as it has more
than 16 bits. What is calculated on the way fits in 32 bits, so digits give the number that they
denote, or an error exactly if it is too large.
-/

namespace AccumulatorC.Lexeme

/-- The number that digits denote, the first one most significant. -/
def numeral (base : Nat) (digits : List Char) : Nat :=
  digits.foldl (fun value digit => base * value + digitValue digit) 0

/-! ## Digits -/

/-- All hexadecimal digits. -/
def hexDigits : List Char := "0123456789abcdefABCDEF".toList

/-- The hexadecimal digits are the characters listed. -/
theorem mem_hexDigits {c : Char} (h : isHexDigit c = true) : c ∈ hexDigits := by
  have hall : ∀ n < 103, isHexDigit (Char.ofNat n) = true → Char.ofNat n ∈ hexDigits := by decide
  have hbound : ∀ last : Char, c ≤ last → last.toNat < 103 → c.toNat < 103 :=
    fun last hle hlast => Nat.lt_of_le_of_lt (UInt32.le_iff_toNat_le.mp hle) hlast
  have hsmall : c.toNat < 103 := by
    simp only [isHexDigit, Char.isDigit, Bool.or_eq_true, Bool.and_eq_true,
      decide_eq_true_eq] at h
    rcases h with (⟨-, h⟩ | ⟨-, h⟩) | ⟨-, h⟩
    · exact hbound '9' h (by decide)
    · exact hbound 'f' h (by decide)
    · exact hbound 'F' h (by decide)
  rw [← Char.ofNat_toNat c] at h ⊢
  exact hall _ hsmall h

theorem isHexDigit_of_isDigit {c : Char} (h : c.isDigit = true) : isHexDigit c = true := by
  simp [isHexDigit, h]

theorem digitValue_lt {c : Char} (h : isHexDigit c = true) : digitValue c < 16 := by
  have hall : ∀ c ∈ hexDigits, digitValue c < 16 := List.all_iff_forall_prop.mp (by decide)
  exact hall c (mem_hexDigits h)

/-! ## One digit more -/

section Accumulating

variable {base value digit : UInt32}

/-- Up to base sixteen one more digit stays within 32 bits. -/
theorem steps_within (hbase : base ≤ 16) (hvalue : value ≤ largestInteger) (hdigit : digit < 16) :
    value.toNat * base.toNat + digit.toNat < UInt32.size := by
  have hlarge : value.toNat ≤ 65535 := UInt32.le_iff_toNat_le.mp hvalue
  have hproduct := Nat.mul_le_mul hlarge (UInt32.le_iff_toNat_le.mp hbase)
  have hsmall := UInt32.lt_iff_toNat_lt.mp hdigit
  simp only [UInt32.reduceToNat] at hproduct hsmall
  simp only [UInt32.size]
  omega

theorem step_eq (h : value.toNat * base.toNat + digit.toNat < UInt32.size) :
    (product? value base).bind (sum? · digit) =
      some (UInt32.ofNat (base.toNat * value.toNat + digit.toNat)) := by
  have hproduct : value.toNat * base.toNat < UInt32.size := Nat.lt_of_le_of_lt (Nat.le_add_right _ _) h
  have hmul : (value * base).toNat = value.toNat * base.toNat := by
    rw [UInt32.toNat_mul]
    exact Nat.mod_eq_of_lt hproduct
  rw [product?, if_pos hproduct, Option.bind_some, sum?, hmul, if_pos h]
  congr 1
  apply UInt32.toNat_inj.mp
  rw [UInt32.toNat_add, hmul, UInt32.toNat_ofNat', Nat.mul_comm base.toNat]

/-- One more digit gives the larger number, or an error if it has more than 16 bits. -/
theorem accumulate_eq (hbase : base ≤ 16) (hvalue : value ≤ largestInteger) (hdigit : digit < 16) :
    accumulate base value digit =
      if base.toNat * value.toNat + digit.toNat < 65536 then
        .ok (UInt32.ofNat (base.toNat * value.toNat + digit.toNat))
      else .error .integerOverflow := by
  have hwithin := steps_within hbase hvalue hdigit
  have hnext : (UInt32.ofNat (base.toNat * value.toNat + digit.toNat)).toNat =
      base.toNat * value.toNat + digit.toNat := by
    rw [UInt32.toNat_ofNat', Nat.mul_comm base.toNat]
    exact Nat.mod_eq_of_lt hwithin
  rw [accumulate, step_eq hwithin]
  simp only [UInt32.le_iff_toNat_le, hnext, Nat.lt_succ_iff]
  rfl

end Accumulating

/-! ## All digits -/

section Digits

variable {base : UInt32} {digits : List Char}

/-- More digits do not make a number smaller. -/
theorem le_foldl_digits {base : Nat} (hbase : 0 < base) (digits : List Char) (value : Nat) :
    value ≤ digits.foldl (fun value digit => base * value + digitValue digit) value := by
  induction digits generalizing value with
  | nil => exact Nat.le_refl _
  | cons digit digits ih =>
      refine Nat.le_trans ?_ (ih _)
      exact Nat.le_trans (Nat.le_mul_of_pos_left _ hbase) (Nat.le_add_right _ _)

theorem accumulateAll_eq_foldl (hpos : 0 < base) (hbase : base ≤ 16)
    (hdigits : ∀ c ∈ digits, isHexDigit c = true) {value : UInt32} (hvalue : value ≤ largestInteger) :
    accumulateAll base value digits =
      if digits.foldl (fun value digit => base.toNat * value + digitValue digit) value.toNat < 65536
      then .ok (UInt32.ofNat
        (digits.foldl (fun value digit => base.toNat * value + digitValue digit) value.toNat))
      else .error .integerOverflow := by
  induction digits generalizing value with
  | nil =>
      have hsmall : value.toNat < 65536 := Nat.lt_succ_of_le (UInt32.le_iff_toNat_le.mp hvalue)
      rw [List.foldl_nil, if_pos hsmall, UInt32.ofNat_toNat]
      rfl
  | cons digit digits ih =>
      obtain ⟨hdigit, hrest⟩ := List.forall_mem_cons.mp hdigits
      have hbelow := digitValue_lt hdigit
      have hvalueOf : (digitValue digit).toUInt32.toNat = digitValue digit :=
        Nat.mod_eq_of_lt (Nat.lt_trans hbelow (by decide))
      have hsmall : (digitValue digit).toUInt32 < 16 := by
        rw [UInt32.lt_iff_toNat_lt, hvalueOf]
        exact hbelow
      rw [accumulateAll, List.foldlM_cons, accumulate_eq hbase hvalue hsmall, hvalueOf,
        List.foldl_cons]
      generalize hnext : base.toNat * value.toNat + digitValue digit = next
      by_cases hfits : next < 65536
      · have hnextOf : (UInt32.ofNat next).toNat = next :=
          Nat.mod_eq_of_lt (Nat.lt_trans hfits (by decide))
        have hlarge : UInt32.ofNat next ≤ largestInteger := by
          rw [UInt32.le_iff_toNat_le, hnextOf]
          exact Nat.le_of_lt_succ hfits
        have hlater := ih hrest hlarge
        rw [hnextOf] at hlater
        rw [if_pos hfits, ← hlater]
        rfl
      · -- The error stops at this digit; what follows cannot bring the number down again.
        have hgrown := le_foldl_digits (UInt32.lt_iff_toNat_lt.mp hpos) digits next
        rw [if_neg hfits, if_neg (by omega)]
        rfl

/-- Digits give the number that they denote, or an error if it has more than 16 bits. -/
theorem accumulateAll_eq (hpos : 0 < base) (hbase : base ≤ 16)
    (hdigits : ∀ c ∈ digits, isHexDigit c = true) :
    accumulateAll base 0 digits =
      if numeral base.toNat digits < 65536 then .ok (UInt32.ofNat (numeral base.toNat digits))
      else .error .integerOverflow :=
  accumulateAll_eq_foldl hpos hbase hdigits (by decide)

theorem integer_eq (hpos : 0 < base) (hbase : base ≤ 16)
    (hdigits : ∀ c ∈ digits, isHexDigit c = true) (more : Nat) :
    integer base digits more =
      if numeral base.toNat digits < 65536 then
        .token (.integer (UInt16.ofNat (numeral base.toNat digits))) more
      else .error .integerOverflow := by
  rw [integer, accumulateAll_eq hpos hbase hdigits]
  split
  next value hvalue =>
    split at hvalue
    next hfits =>
      cases hvalue
      have hcut : (UInt32.ofNat (numeral base.toNat digits)).toUInt16 =
          UInt16.ofNat (numeral base.toNat digits) := UInt32.toUInt16_ofNat' _
      rw [if_pos hfits, hcut]
    next => cases hvalue
  next cause hcause =>
    split at hcause
    next => cases hcause
    next hlarge =>
      cases hcause
      rw [if_neg hlarge]

end Digits

end AccumulatorC.Lexeme
