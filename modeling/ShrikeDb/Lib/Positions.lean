import Mathlib.Data.List.Basic

/-! Positions of a list: the elements of a range of positions, the removal of several positions,
the last one first, and a list without the first or the last occurrences of a value. -/

namespace Positions

open List

variable {α : Type}

variable (items : List α)

/-- The elements at the positions from `lo` to `hi`, in order. -/
def between (lo hi : Int) : List α :=
  (items.zipIdx.filter fun p => lo ≤ p.2 ∧ (p.2 : Int) ≤ hi).map Prod.fst

theorem between_cons (x : α) (items : List α) (lo hi : Int) :
    between (x :: items) lo hi =
      (if lo ≤ 0 ∧ 0 ≤ hi then [x] else []) ++ between items (lo - 1) (hi - 1) := by
  have hshift : ∀ n : Nat, lo ≤ (n + 1 : Nat) ∧ ((n + 1 : Nat) : Int) ≤ hi ↔
      lo - 1 ≤ n ∧ (n : Int) ≤ hi - 1 := by
    intro n
    omega
  have hrest : ((items.zipIdx 1).filter fun p => lo ≤ p.2 ∧ (p.2 : Int) ≤ hi).map Prod.fst =
      between items (lo - 1) (hi - 1) := by
    rw [zipIdx_succ, filter_map, map_map, between]
    exact congrArg (map Prod.fst) (filter_congr fun p _ => decide_eq_decide.mpr (hshift p.2))
  rw [between, zipIdx_cons, filter_cons, ← hrest]
  split <;> simp_all

theorem between_eq_take_drop (lo hi : Int) :
    between items lo hi = (items.take (hi + 1).toNat).drop lo.toNat := by
  induction items generalizing lo hi with
  | nil => simp [between]
  | cons x items ih =>
    rw [between_cons, ih]
    by_cases hhi : 0 ≤ hi
    · have hsucc : (hi + 1).toNat = (hi - 1 + 1).toNat + 1 := by omega
      rw [hsucc, take_succ_cons]
      by_cases hlo : lo ≤ 0
      · have hzero : lo.toNat = 0 := by omega
        have hzero' : (lo - 1).toNat = 0 := by omega
        rw [if_pos ⟨hlo, hhi⟩, hzero, hzero', drop_zero, drop_zero, singleton_append]
      · have hsucc : lo.toNat = (lo - 1).toNat + 1 := by omega
        rw [if_neg fun h => hlo h.1, hsucc, drop_succ_cons, nil_append]
    · have hzero : (hi + 1).toNat = 0 := by omega
      have hzero' : (hi - 1 + 1).toNat = 0 := by omega
      rw [if_neg fun h => hhi h.2, hzero, hzero', take_zero, take_zero, drop_nil, drop_nil,
        nil_append]

theorem between_eq_nil (lo : Int) {hi : Int} (h : hi < 0) : between items lo hi = [] := by
  have hzero : (hi + 1).toNat = 0 := by omega
  rw [between_eq_take_drop, hzero]
  simp

/-! ## The position of an element -/

theorem findIdx_append_cons {p : α → Bool} {before after : List α} {a : α}
    (hbefore : ∀ b ∈ before, ¬ p b = true) (ha : p a = true) :
    (before ++ a :: after).findIdx p = before.length := by
  rw [findIdx_append, if_neg, findIdx_cons, ha]
  · exact Nat.zero_add _
  · rw [findIdx_lt_length]
    rintro ⟨b, hb, hp⟩
    exact hbefore b hb hp

theorem append_eq_of_cons {e : α} {before after rest : List α} (he : e ∉ before)
    (h : before ++ e :: after = e :: rest) : before ++ after = rest := by
  cases before with
  | nil => exact (cons.inj h).2
  | cons b before =>
    have hhead : b = e := (cons.inj h).1
    exact absurd (hhead ▸ mem_cons_self) he

/-! ## Removal by position -/

/-- Positions that are removed from the last to the first leave what follows them in place. -/
theorem foldl_eraseIdx_append {indices : List Nat} {l : List α} (rest : List α)
    (hdown : indices.Pairwise (· > ·)) (hlt : ∀ i ∈ indices, i < l.length) :
    indices.foldl eraseIdx (l ++ rest) = indices.foldl eraseIdx l ++ rest := by
  induction indices generalizing l with
  | nil => rfl
  | cons i indices ih =>
    rw [pairwise_cons] at hdown
    have hi := hlt i mem_cons_self
    rw [foldl_cons, foldl_cons, eraseIdx_append_of_lt_length hi]
    refine ih hdown.2 fun j hj => ?_
    have hji := hdown.1 j hj
    rw [length_eraseIdx_of_lt hi]
    omega

/-! ## Removal of occurrences -/

variable [DecidableEq α]

/-- The list without the first `k` elements equal to `a`. -/
def WithoutFirst (a : α) (k : Nat) (items kept : List α) : Prop :=
  ∃ before after, items = before ++ after ∧ before.count a = k ∧
  kept = before.filter (· ≠ a) ++ after

/-- The list without the last `k` elements equal to `a`. -/
def WithoutLast (a : α) (k : Nat) (items kept : List α) : Prop :=
  ∃ before after, items = before ++ after ∧ after.count a = k ∧
  kept = before ++ after.filter (· ≠ a)

variable {a x : α} {k : Nat} {items kept : List α}

theorem WithoutFirst.refl (a : α) (items : List α) : WithoutFirst a 0 items items :=
  ⟨[], items, rfl, rfl, rfl⟩

theorem WithoutFirst.cons_self (h : WithoutFirst a k items kept) :
    WithoutFirst a (k + 1) (a :: items) kept := by
  obtain ⟨before, after, rfl, rfl, rfl⟩ := h
  exact ⟨a :: before, after, rfl, count_cons_self, by simp⟩

theorem WithoutFirst.cons_of_ne (hx : x ≠ a) (h : WithoutFirst a k items kept) :
    WithoutFirst a k (x :: items) (x :: kept) := by
  obtain ⟨before, after, rfl, rfl, rfl⟩ := h
  exact ⟨x :: before, after, rfl, count_cons_of_ne hx, by simp [hx]⟩

theorem WithoutLast.refl (a : α) (items : List α) : WithoutLast a 0 items items :=
  ⟨items, [], (append_nil items).symm, rfl, by simp⟩

theorem WithoutLast.concat_self (h : WithoutLast a k items kept) :
    WithoutLast a (k + 1) (items ++ [a]) kept := by
  obtain ⟨before, after, rfl, rfl, rfl⟩ := h
  exact ⟨before, after ++ [a], by simp, by simp, by simp⟩

theorem WithoutLast.concat_of_ne (hx : x ≠ a) (h : WithoutLast a k items kept) :
    WithoutLast a k (items ++ [x]) (kept ++ [x]) := by
  obtain ⟨before, after, rfl, rfl, rfl⟩ := h
  exact ⟨before, after ++ [x], by simp, by simp [hx], by simp [hx]⟩

end Positions
