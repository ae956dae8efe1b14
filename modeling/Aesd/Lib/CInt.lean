import Mathlib.Algebra.Order.Ring.Nat

/-!
# C integers on a 64-bit machine

`size_t` is `UInt64`, `int` is `Int32`, and `ssize_t`, `long` and `loff_t` are
`Int64`. A conversion keeps the low bits.
-/

namespace CInt

def toInt (n : UInt64) : Int32 := n.toUInt32.toInt32

/-- `size_t` from `int`: a negative value becomes a huge one. -/
def toSize (i : Int32) : UInt64 := i.toInt64.toUInt64

theorem toNat_toSize_toInt (n : UInt64) : (toSize (toInt n)).toNat =
    if n.toNat % 2 ^ 32 < 2 ^ 31 then n.toNat % 2 ^ 32 else 2 ^ 64 - 2 ^ 32 + n.toNat % 2 ^ 32 := by
  have hbits : (toSize (toInt n)).toBitVec = (n.toBitVec.setWidth 32).signExtend 64 := by
    simp only [toSize, toInt, Int64.toBitVec_toUInt64, Int32.toBitVec_toInt64,
      UInt32.toBitVec_toInt32, UInt64.toBitVec_toUInt32]
  have hnat : (n.toBitVec.setWidth 32).toNat = n.toNat % 2 ^ 32 := by
    rw [BitVec.toNat_setWidth]
    rfl
  rw [← UInt64.toNat_toBitVec, hbits, BitVec.toNat_signExtend, BitVec.toNat_setWidth, hnat,
    BitVec.msb_eq_decide, hnat]
  simp only [decide_eq_true_eq]
  split_ifs <;> omega

/-- `int` and back gives a size again if the bits that are cut off repeat bit 31. -/
theorem toSize_toInt_iff {n : UInt64} :
    toSize (toInt n) = n ↔ n.toNat < 2 ^ 31 ∨ 2 ^ 64 - 2 ^ 31 ≤ n.toNat := by
  have hn := n.toNat_lt
  rw [← UInt64.toNat_inj, toNat_toSize_toInt]
  split_ifs with h
  · omega
  · omega

theorem toSize_toInt {n : UInt64} (h : n.toNat < 2 ^ 31) : toSize (toInt n) = n :=
  toSize_toInt_iff.mpr (.inl h)

theorem toNat_add {a b : UInt64} (h : a.toNat + b.toNat < 2 ^ 64) :
    (a + b).toNat = a.toNat + b.toNat := by
  rw [UInt64.toNat_add, Nat.mod_eq_of_lt h]

/-- `count - (count - n)`: the bytes copied, from the count of those that were not. -/
theorem sub_sub_cancel (a b : UInt64) : a - (a - b) = b := by
  grind

theorem toInt_toInt64 {n : UInt64} (h : n.toNat < 2 ^ 63) : n.toInt64.toInt = n.toNat := by
  have hn : n.toInt64.toInt = n.toBitVec.toInt := rfl
  rw [hn, BitVec.toInt_eq_toNat_of_lt]
  · rfl
  · have : n.toBitVec.toNat = n.toNat := rfl
    omega

theorem advance {p : Int64} {n : UInt64} (hp : 0 ≤ p) (h : p.toNatClampNeg + n.toNat < 2 ^ 63) :
    0 ≤ p + n.toInt64 ∧ (p + n.toInt64).toNatClampNeg = p.toNatClampNeg + n.toNat := by
  have hpi := Int64.cast_toNatClampNeg p hp
  have hni := toInt_toInt64 (n := n) (by omega)
  have hsum : (p + n.toInt64).toInt = p.toNatClampNeg + n.toNat := by
    rw [Int64.toInt_add, hni, ← hpi, Int.bmod_eq_of_le] <;> omega
  have hnn : 0 ≤ p + n.toInt64 := by
    rw [Int64.le_iff_toInt_le, hsum]
    simp
    omega
  exact ⟨hnn, by have := Int64.cast_toNatClampNeg _ hnn; omega⟩

end CInt
