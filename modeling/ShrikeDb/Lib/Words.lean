import Mathlib.Algebra.Ring.Int.Defs
import Mathlib.Algebra.Ring.Nat

/-! Words of 64 bits as numbers: what a cast between the signed and the unsigned type
does to the number. -/

namespace Words

/-- A signed number cast to an unsigned one is reduced modulo the word size. -/
theorem toNat_toUInt64 (n : Int64) : (n.toUInt64.toNat : Int) = n.toInt % 2 ^ 64 := by
  have hword : n.toUInt64.toNat = n.toBitVec.toNat := rfl
  have hint : n.toInt = n.toBitVec.toInt := rfl
  rw [hint, BitVec.toInt_eq_toNat_cond, hword]
  have hlt := n.toBitVec.isLt
  split <;> omega

theorem toNat_toUInt64_of_nonneg {n : Int64} (h : 0 ≤ n.toInt) :
    (n.toUInt64.toNat : Int) = n.toInt := by
  have hlt := n.toInt_lt
  rw [toNat_toUInt64]
  omega

theorem toInt_toInt64_of_lt {w : UInt64} (h : w.toNat < 2 ^ 63) : w.toInt64.toInt = w.toNat := by
  have hword : w.toBitVec.toNat = w.toNat := rfl
  have hint : w.toInt64.toInt = w.toBitVec.toInt := rfl
  rw [hint, BitVec.toInt_eq_toNat_cond, hword]
  split <;> omega

theorem toInt_add {a b : Int64} (hle : -2 ^ 63 ≤ a.toInt + b.toInt)
    (hlt : a.toInt + b.toInt < 2 ^ 63) : (a + b).toInt = a.toInt + b.toInt := by
  have hadd : (a + b).toInt = (a.toInt + b.toInt).bmod (2 ^ 64) := Int64.toInt_add a b
  rw [hadd, Int.bmod_def]
  omega

theorem toInt_sub {a b : Int64} (hle : -2 ^ 63 ≤ a.toInt - b.toInt)
    (hlt : a.toInt - b.toInt < 2 ^ 63) : (a - b).toInt = a.toInt - b.toInt := by
  have hsub : (a - b).toInt = (a.toInt - b.toInt).bmod (2 ^ 64) := Int64.toInt_sub a b
  rw [hsub, Int.bmod_def]
  omega

/-- Only the negation of the least number wraps. -/
theorem toInt_neg {a : Int64} (h : a.toInt ≠ -2 ^ 63) : (-a).toInt = -a.toInt := by
  have hneg : (-a).toInt = (-a.toInt).bmod (2 ^ 64) := Int64.toInt_neg a
  have hle := a.le_toInt
  have hlt := a.toInt_lt
  rw [hneg, Int.bmod_def]
  omega

theorem toInt_max (a b : Int64) : (max a b).toInt = max a.toInt b.toInt := by
  have hmax : max a b = if a ≤ b then b else a := rfl
  rw [hmax, Int.max_def]
  simp only [Int64.le_iff_toInt_le]
  split <;> rfl

theorem toInt_min (a b : Int64) : (min a b).toInt = min a.toInt b.toInt := by
  have hmin : min a b = if a ≤ b then a else b := rfl
  rw [hmin, Int.min_def]
  simp only [Int64.le_iff_toInt_le]
  split <;> rfl

end Words
