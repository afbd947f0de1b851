import Mathlib.Data.Int.Notation
import Mathlib.Tactic.Ring

/-!
# Machine integers

The same bits as an unsigned and as a signed integer. Conversions between the two keep the
bits; conversions to a wider type keep the value.

## Main results

* `toInt_eq_signedOf`, `toNat_eq_emod` — each of the two readings by the other one.
-/

namespace CInteger

/-- The signed integer whose bits are those of an unsigned one. -/
def signedOf (width n : ℕ) : ℤ := if n < 2 ^ (width - 1) then n else n - 2 ^ width

/-- Half of the values of a width. -/
theorem two_mul_lt_two_pow_iff {width n : ℕ} (h : n < 2 ^ width) :
    2 * n < 2 ^ width ↔ n < 2 ^ (width - 1) := by
  cases width with
  | zero =>
      have hn : n = 0 := Nat.lt_one_iff.mp h
      simp [hn]
  | succ width =>
      rw [Nat.pow_succ, Nat.add_sub_cancel]
      omega

/-- The signed reading of bits by the unsigned one. -/
theorem toInt_eq_signedOf {width : ℕ} (x : BitVec width) : x.toInt = signedOf width x.toNat := by
  rw [BitVec.toInt_eq_toNat_cond, signedOf, Int.natCast_pow]
  simp only [two_mul_lt_two_pow_iff x.isLt]
  rfl

/-- What is not negative is read the same way. -/
theorem signedOf_of_nonneg {width n : ℕ} (h : n < 2 ^ width) (hn : 0 ≤ signedOf width n) :
    signedOf width n = n := by
  have hlt : (n : ℤ) < 2 ^ width := by exact_mod_cast h
  rw [signedOf] at hn ⊢
  split at hn
  · exact if_pos ‹_›
  · omega

/-- What is small enough is read the same way. -/
theorem signedOf_of_lt {width n : ℕ} (h : (n : ℤ) < 2 ^ (width - 1)) :
    signedOf width n = n :=
  if_pos (by exact_mod_cast h)

/-- The unsigned reading of bits by the signed one. -/
theorem toNat_eq_emod {width : ℕ} (x : BitVec width) : (x.toNat : ℤ) = x.toInt % 2 ^ width := by
  have hlt : (x.toNat : ℤ) < 2 ^ width := by exact_mod_cast x.isLt
  rw [toInt_eq_signedOf, signedOf]
  split
  · exact (Int.emod_eq_of_lt (Int.natCast_nonneg _) hlt).symm
  · rw [Int.sub_emod_right]
    exact (Int.emod_eq_of_lt (Int.natCast_nonneg _) hlt).symm

/-- An unsigned integer of 8 bits read as a signed one. -/
theorem toInt_toInt8 (n : UInt8) : n.toInt8.toInt = signedOf 8 n.toNat := toInt_eq_signedOf _

/-- An unsigned integer of 16 bits read as a signed one. -/
theorem toInt_toInt16 (n : UInt16) : n.toInt16.toInt = signedOf 16 n.toNat := toInt_eq_signedOf _

/-- An unsigned integer of 32 bits read as a signed one. -/
theorem toInt_toInt32 (n : UInt32) : n.toInt32.toInt = signedOf 32 n.toNat := toInt_eq_signedOf _

/-- An unsigned integer of 64 bits read as a signed one. -/
theorem toInt_toInt64 (n : UInt64) : n.toInt64.toInt = signedOf 64 n.toNat := toInt_eq_signedOf _

/-- A signed integer of 8 bits read as an unsigned one. -/
theorem toNat_toUInt8 (n : Int8) : (n.toUInt8.toNat : ℤ) = n.toInt % 2 ^ 8 := toNat_eq_emod _

/-- A signed integer of 64 bits read as an unsigned one. -/
theorem toNat_toUInt64 (n : Int64) : (n.toUInt64.toNat : ℤ) = n.toInt % 2 ^ 64 :=
  toNat_eq_emod _

/-! ### Wrapping around -/

/-- A sum that fits. -/
theorem toNat_add_of_lt {a b : UInt64} (h : a.toNat + b.toNat < 2 ^ 64) :
    (a + b).toNat = a.toNat + b.toNat := by
  rw [UInt64.toNat_add, Nat.mod_eq_of_lt h]

/-- A product that fits. -/
theorem toNat_mul_of_lt {a b : UInt64} (h : a.toNat * b.toNat < 2 ^ 64) :
    (a * b).toNat = a.toNat * b.toNat := by
  rw [UInt64.toNat_mul, Nat.mod_eq_of_lt h]

/-- An integer that fits into 64 bits is kept. -/
theorem bmod_of_lt {x : ℤ} (hle : -2 ^ 63 ≤ x) (hlt : x < 2 ^ 63) : x.bmod (2 ^ 64) = x :=
  Int.bmod_eq_of_le_mul_two (by omega) (by omega)

/-- An integer that is too large for 64 bits, but not by much, becomes negative. -/
theorem bmod_of_ge {x : ℤ} (hle : 2 ^ 63 ≤ x) (hlt : x < 2 ^ 64) :
    x.bmod (2 ^ 64) = x - 2 ^ 64 := by
  rw [← Int.sub_bmod_right]
  exact bmod_of_lt (by omega) (by omega)

end CInteger
