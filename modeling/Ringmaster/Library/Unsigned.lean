/-
# The order of the fixed-width unsigned integers

The unsigned integer types are linear orders, and their counters are total orders with a
last element: a successor is greater than its predecessor except at that last element,
where it wraps around to zero.
-/
import Mathlib

instance instLinearOrderUInt16 : LinearOrder UInt16 where
  le_refl := UInt16.le_refl
  le_trans := fun _ _ _ => UInt16.le_trans
  le_antisymm := fun _ _ => UInt16.le_antisymm
  le_total := UInt16.le_total
  lt_iff_le_not_ge := fun _ _ => Std.lt_iff_le_and_not_ge
  toDecidableLE := inferInstance
  toDecidableEq := inferInstance
  toDecidableLT := inferInstance
  compare_eq_compareOfLessAndEq := fun _ _ => rfl

instance instLinearOrderUInt32 : LinearOrder UInt32 where
  le_refl := UInt32.le_refl
  le_trans := fun _ _ _ => UInt32.le_trans
  le_antisymm := fun _ _ => UInt32.le_antisymm
  le_total := UInt32.le_total
  lt_iff_le_not_ge := fun _ _ => Std.lt_iff_le_and_not_ge
  toDecidableLE := inferInstance
  toDecidableEq := inferInstance
  toDecidableLT := inferInstance
  compare_eq_compareOfLessAndEq := fun _ _ => rfl

instance instLinearOrderUInt64 : LinearOrder UInt64 where
  le_refl := UInt64.le_refl
  le_trans := fun _ _ _ => UInt64.le_trans
  le_antisymm := fun _ _ => UInt64.le_antisymm
  le_total := UInt64.le_total
  lt_iff_le_not_ge := fun _ _ => Std.lt_iff_le_and_not_ge
  toDecidableLE := inferInstance
  toDecidableEq := inferInstance
  toDecidableLT := inferInstance
  compare_eq_compareOfLessAndEq := fun _ _ => rfl

namespace Unsigned

/-- The last value of a 32-bit counter. -/
def maxUInt32 : UInt32 := 4294967295

/-- A 32-bit value lies below the last one exactly when it is another one. -/
theorem lt_maxUInt32_iff {a : UInt32} : a < maxUInt32 ↔ a ≠ maxUInt32 := by
  have ha : a.toNat < 4294967296 := a.toNat_lt
  rw [UInt32.lt_iff_toNat_lt, ne_eq, ← UInt32.toNat_inj]
  simp only [maxUInt32, UInt32.reduceToNat]
  omega

/-- No 32-bit value lies above the last one. -/
theorem le_maxUInt32 (a : UInt32) : a ≤ maxUInt32 := by
  have ha : a.toNat < 4294967296 := a.toNat_lt
  rw [UInt32.le_iff_toNat_le]
  simp only [maxUInt32, UInt32.reduceToNat]
  omega

/-- Below the last value the successor counts up by one. -/
theorem toNat_add_one {a : UInt32} (h : a < maxUInt32) : (a + 1).toNat = a.toNat + 1 := by
  rw [UInt32.lt_iff_toNat_lt] at h
  simp only [maxUInt32, UInt32.reduceToNat] at h
  rw [UInt32.toNat_add]
  simp only [UInt32.reduceToNat]
  omega

/-- Below the last value, being greater is being at least the successor. -/
theorem lt_iff_add_one_le {a b : UInt32} (h : a < maxUInt32) : a < b ↔ a + 1 ≤ b := by
  rw [UInt32.lt_iff_toNat_lt, UInt32.le_iff_toNat_le, toNat_add_one h]
  omega

/-- The successor of the last value is zero. -/
theorem maxUInt32_add_one : maxUInt32 + 1 = 0 := rfl

/-- Zero is the least value. -/
theorem zero_le_uint32 (a : UInt32) : 0 ≤ a := by
  rw [UInt32.le_iff_toNat_le]
  exact Nat.zero_le _

/-- A difference of 64-bit values is the difference modulo their width. -/
theorem toNat_sub_uint64 (a b : UInt64) :
    ((a - b).toNat : ℤ) = ((a.toNat : ℤ) - b.toNat) % 2 ^ 64 := by
  have ha : a.toNat < 18446744073709551616 := a.toNat_lt
  have hb : b.toNat < 18446744073709551616 := b.toNat_lt
  rw [UInt64.toNat_sub]
  omega

/-- A difference of 64-bit values that is stored in 32 bits is the difference modulo that
width. -/
theorem toNat_toUInt32_sub (a b : UInt64) :
    ((a - b).toUInt32.toNat : ℤ) = ((a.toNat : ℤ) - b.toNat) % 2 ^ 32 := by
  rw [UInt64.toNat_toUInt32, Int.natCast_mod, toNat_sub_uint64]
  omega

end Unsigned
