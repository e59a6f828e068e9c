import Mathlib.Data.Nat.Bitwise
import Mathlib.Data.List.Basic

/-! Loops over the set bits of a machine word. A mask is consumed lowest bit
first by `while mask != 0 { visit(trailing_zeros(mask)); mask &= mask - 1 }`;
`setBits_eq_filter` says that the loop visits exactly the set positions in
ascending order. Nothing here depends on what the positions stand for. -/

namespace BitLoop

open List

variable {w : Nat}

/-- Index of the lowest set bit, `w` when there is none. -/
def trailingZeros (m : BitVec w) : Nat := ((range w).find? m.getLsbD).getD w

/-- The positions visited by at most `fuel` turns of the loop. -/
def visitBits : Nat → BitVec w → List Nat
  | 0, _ => []
  | fuel + 1, m => if m = 0 then [] else trailingZeros m :: visitBits fuel (m &&& (m - 1))

/-- The positions visited by the whole loop: a word of width `w` has at most `w` set bits. -/
def setBits (m : BitVec w) : List Nat := visitBits w m

@[simp] theorem getLsbD_one_shiftLeft (i j : Nat) :
    ((1#w) <<< i).getLsbD j = (decide (j < w) && decide (i = j)) := by
  rw [← BitVec.twoPow_eq, BitVec.getLsbD_twoPow]
  by_cases h : i = j
  · subst h; simp
  · simp [h]

variable {m : BitVec w}

theorem exists_getLsbD (h : m ≠ 0) : ∃ i < w, m.getLsbD i = true := by
  by_contra hn
  push Not at hn
  apply h
  apply BitVec.eq_of_getLsbD_eq
  intro i hi
  have := hn i hi
  simpa using this

theorem trailingZeros_spec (h : m ≠ 0) :
    trailingZeros m < w ∧ m.getLsbD (trailingZeros m) = true ∧
      ∀ i < trailingZeros m, m.getLsbD i = false := by
  obtain ⟨i, hi, hb⟩ := exists_getLsbD h
  cases hf : (range w).find? m.getLsbD with
  | none =>
    have := find?_eq_none.mp hf i (mem_range.mpr hi)
    exact absurd hb this
  | some t =>
    have ht : trailingZeros m = t := by simp [trailingZeros, hf]
    obtain ⟨hpt, htw, hlt⟩ := find?_range_eq_some.mp hf
    rw [ht]
    refine ⟨mem_range.mp htw, hpt, ?_⟩
    intro j hj
    simpa using hlt j hj

theorem testBit_pred {n t : Nat} (ht : n.testBit t = true) (hlow : ∀ i < t, n.testBit i = false)
    (i : Nat) :
    (n - 1).testBit i = if i < t then true else if i = t then false else n.testBit i := by
  have hmod : n % 2 ^ t = 0 := by
    apply Nat.eq_of_testBit_eq
    intro j
    rw [Nat.testBit_mod_two_pow, Nat.zero_testBit]
    by_cases hj : j < t
    · simp [hlow j hj]
    · simp [hj]
  have hodd : n / 2 ^ t % 2 = 1 := by
    rw [Nat.testBit_eq_decide_div_mod_eq] at ht
    simpa using ht
  have hn : n = 2 ^ (t + 1) * (n / 2 ^ (t + 1)) + 2 ^ t := by
    have h1 := Nat.div_add_mod n (2 ^ t)
    have h2 := Nat.div_add_mod (n / 2 ^ t) 2
    rw [Nat.div_div_eq_div_mul, ← Nat.pow_succ] at h2
    rw [hmod, Nat.add_zero] at h1
    rw [hodd] at h2
    calc n = 2 ^ t * (n / 2 ^ t) := h1.symm
      _ = 2 ^ t * (2 * (n / 2 ^ (t + 1)) + 1) := by rw [h2]
      _ = 2 ^ (t + 1) * (n / 2 ^ (t + 1)) + 2 ^ t := by
        rw [Nat.mul_add, Nat.mul_one, ← Nat.mul_assoc, Nat.pow_succ]
  have hpos : 0 < 2 ^ t := Nat.two_pow_pos t
  have hpow : 2 ^ (t + 1) = 2 * 2 ^ t := by rw [Nat.pow_succ, Nat.mul_comm]
  have hpred : n - 1 = 2 ^ (t + 1) * (n / 2 ^ (t + 1)) + (2 ^ t - 1) := by omega
  have hbit := Nat.testBit_two_pow_mul_add (n / 2 ^ (t + 1))
    (show 2 ^ t - 1 < 2 ^ (t + 1) by omega) i
  have hbit' := Nat.testBit_two_pow_mul_add (n / 2 ^ (t + 1))
    (show 2 ^ t < 2 ^ (t + 1) by omega) i
  rw [← hpred] at hbit
  rw [← hn] at hbit'
  rw [hbit, Nat.testBit_two_pow_sub_one]
  by_cases h1 : i < t
  · simp [h1, Nat.lt_succ_of_lt h1]
  · by_cases h2 : i = t
    · simp [h2]
    · rw [hbit']
      simp [h1, h2, show ¬ i < t + 1 by omega]

/-- `mask & (mask - 1)` drops exactly the lowest set bit. -/
theorem getLsbD_clear_lowest (h : m ≠ 0) (i : Nat) :
    (m &&& (m - 1)).getLsbD i = (m.getLsbD i && decide (i ≠ trailingZeros m)) := by
  obtain ⟨htw, ht, hlow⟩ := trailingZeros_spec h
  have hpos : 0 < m.toNat := by
    rcases Nat.eq_zero_or_pos m.toNat with h0 | h0
    · exact absurd (BitVec.eq_of_toNat_eq (by simpa using h0)) h
    · exact h0
  have hsub : (m - 1).toNat = m.toNat - 1 := by
    have hlt := m.isLt
    have hone : (1 : BitVec w).toNat = 1 := by
      have : 1 < 2 ^ w := Nat.one_lt_two_pow (by omega)
      simpa using Nat.mod_eq_of_lt this
    rw [BitVec.toNat_sub, hone, show 2 ^ w - 1 + m.toNat = (m.toNat - 1) + 2 ^ w by omega,
      Nat.add_mod_right]
    exact Nat.mod_eq_of_lt (by omega)
  have hp : (m - 1).getLsbD i = if i < trailingZeros m then true
      else if i = trailingZeros m then false else m.getLsbD i := by
    rw [BitVec.getLsbD, hsub]
    exact testBit_pred ht hlow i
  rw [BitVec.getLsbD_and, hp]
  by_cases h1 : i < trailingZeros m
  · simp [h1, hlow i h1]
  · by_cases h2 : i = trailingZeros m
    · simp [h2]
    · simp [h1, h2]

theorem filter_range_cons {p : Nat → Bool} {t w : Nat} (htw : t < w) (ht : p t = true)
    (hlow : ∀ i < t, p i = false) :
    (range w).filter p =
      t :: (range w).filter (fun i => p i && decide (i ≠ t)) := by
  induction w with
  | zero => omega
  | succ w ih =>
    rw [range_succ, filter_append, filter_append]
    by_cases h : t < w
    · rw [ih h]
      have hne : w ≠ t := by omega
      simp [filter_singleton, hne]
    · have e : t = w := by omega
      subst e
      have h1 : (range t).filter p = [] := by
        rw [filter_eq_nil_iff]
        intro i hi
        simp [hlow i (mem_range.mp hi)]
      have h2 : (range t).filter (fun i => p i && decide (i ≠ t)) = [] := by
        rw [filter_eq_nil_iff]
        intro i hi
        simp [hlow i (mem_range.mp hi)]
      rw [h1, h2]
      simp [ht]

theorem visitBits_eq_filter (fuel : Nat) (m : BitVec w)
    (h : ((range w).filter m.getLsbD).length ≤ fuel) :
    visitBits fuel m = (range w).filter m.getLsbD := by
  induction fuel generalizing m with
  | zero =>
    rw [visitBits]
    exact (length_eq_zero_iff.mp (Nat.le_zero.mp h)).symm
  | succ fuel ih =>
    by_cases hm : m = 0
    · subst hm
      simp [visitBits]
    · obtain ⟨htw, ht, hlow⟩ := trailingZeros_spec hm
      have hcons := filter_range_cons htw ht hlow
      have hclear : (fun i => m.getLsbD i && decide (i ≠ trailingZeros m)) =
          (m &&& (m - 1)).getLsbD := by
        funext i
        exact (getLsbD_clear_lowest hm i).symm
      rw [hclear] at hcons
      rw [hcons] at h ⊢
      rw [visitBits, if_neg hm, ih _ (by simpa using h)]

/-- The loop visits the set positions in ascending order, each once. -/
theorem setBits_eq_filter (m : BitVec w) : setBits m = (range w).filter m.getLsbD := by
  apply visitBits_eq_filter
  calc ((range w).filter m.getLsbD).length ≤ (range w).length := length_filter_le ..
    _ = w := length_range

end BitLoop
