/-
  Saturating arithmetic on bytes (`u8::saturating_add`, `u8::saturating_mul`) and
  on 16-bit counters.
-/
import Mathlib.Data.UInt
import Mathlib.Algebra.Order.Monoid.Unbundled.MinMax

namespace Cognis

/-- The byte nearest to `n`. -/
def sat (n : ℕ) : UInt8 := UInt8.ofNat (min 255 n)

/-- `u8::saturating_add`. -/
def satAdd (a b : UInt8) : UInt8 := sat (a.toNat + b.toNat)

/-- `u8::saturating_mul`. -/
def satMul (a b : UInt8) : UInt8 := sat (a.toNat * b.toNat)

/-- `u16::saturating_add`. -/
def satAdd16 (a b : UInt16) : UInt16 := UInt16.ofNat (min 65535 (a.toNat + b.toNat))

@[simp] theorem toNat_sat (n : ℕ) : (sat n).toNat = min 255 n := by
  rw [sat, UInt8.toNat_ofNat']; omega

@[simp] theorem toNat_satAdd (a b : UInt8) : (satAdd a b).toNat = min 255 (a.toNat + b.toNat) :=
  toNat_sat _

@[simp] theorem toNat_satMul (a b : UInt8) : (satMul a b).toNat = min 255 (a.toNat * b.toNat) :=
  toNat_sat _

theorem toNat_le_255 (a : UInt8) : a.toNat ≤ 255 := by
  have := a.toNat_lt; omega

@[simp] theorem toNat_max (a b : UInt8) : (max a b).toNat = max a.toNat b.toNat := by
  change (if a ≤ b then b else a).toNat = _
  split_ifs with h
  · exact (max_eq_right (UInt8.le_iff_toNat_le.1 h)).symm
  · have := UInt8.le_iff_toNat_le.not.1 h
    omega

theorem sat_toNat (a : UInt8) : sat a.toNat = a := by
  have := toNat_le_255 a
  apply UInt8.toNat_inj.1
  rw [toNat_sat]; omega

theorem satAdd_sat (m n : ℕ) : satAdd (sat m) (sat n) = sat (m + n) := by
  apply UInt8.toNat_inj.1
  simp only [toNat_satAdd, toNat_sat]
  omega

theorem sat_eq_sat {m n : ℕ} (h : m = n ∨ 255 ≤ m ∧ 255 ≤ n) : sat m = sat n := by
  apply UInt8.toNat_inj.1
  simp only [toNat_sat]
  omega

theorem satAdd_comm (a b : UInt8) : satAdd a b = satAdd b a := by
  rw [satAdd, satAdd, add_comm]

theorem satMul_comm (a b : UInt8) : satMul a b = satMul b a := by
  rw [satMul, satMul, mul_comm]

end Cognis
