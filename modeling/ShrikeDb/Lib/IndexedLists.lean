import Mathlib.Data.List.Lemmas
import Mathlib.Data.List.Nodup
import Mathlib.Data.List.Perm.Basic
import Mathlib.Logic.Function.Basic

/-! Lists collected from an indexed family: what happens to
`l.flatMap f` when `f` changes at one index. -/

namespace IndexedLists

open Function List

variable {ι α : Type}

variable {l : List ι}

/-- One element more at one index is one element more in the whole list. -/
theorem flatMap_perm_cons (hl : l.Nodup) {i : ι} (hi : i ∈ l) {f g : ι → List α} {x : α}
    (hne : ∀ j ∈ l, j ≠ i → g j = f j) (heq : (g i).Perm (x :: f i)) :
    (l.flatMap g).Perm (x :: l.flatMap f) := by
  induction l with
  | nil => cases hi
  | cons j l ih =>
    obtain ⟨hj, hl⟩ := nodup_cons.mp hl
    rw [flatMap_cons, flatMap_cons]
    by_cases e : j = i
    · subst e
      have hrest : l.flatMap g = l.flatMap f := by
        apply flatMap_congr
        intro a ha
        exact hne a (mem_cons_of_mem _ ha) (fun e => hj (e ▸ ha))
      rw [hrest, ← cons_append]
      exact heq.append_right _
    · have hi' : i ∈ l := (mem_cons.mp hi).resolve_left (fun e' => e e'.symm)
      rw [hne j (mem_cons_self ..) e]
      have hrec := ih hl hi' (fun a ha => hne a (mem_cons_of_mem _ ha))
      exact (hrec.append_left (f j)).trans perm_middle

theorem filterMap_eq_flatMap (f : ι → Option α) (l : List ι) :
    l.filterMap f = l.flatMap fun j => (f j).toList := by
  induction l with
  | nil => rfl
  | cons j l ih => cases h : f j <;> simp [h, ih]

/-- Filling one empty index adds one element. -/
theorem filterMap_perm_cons (hl : l.Nodup) {i : ι} (hi : i ∈ l) {f g : ι → Option α} {x : α}
    (hne : ∀ j ∈ l, j ≠ i → g j = f j) (hf : f i = none) (hg : g i = some x) :
    (l.filterMap g).Perm (x :: l.filterMap f) := by
  rw [filterMap_eq_flatMap, filterMap_eq_flatMap]
  apply flatMap_perm_cons hl hi
  · intro j hj e
    rw [hne j hj e]
  · simp [hf, hg]

/-- What is collected at one index sits between what is collected before and after it. -/
theorem filterMap_update [DecidableEq ι] (hl : l.Nodup) {i : ι} (hi : i ∈ l) (f : ι → Option α) :
    ∃ a b, ∀ o, l.filterMap (update f i o) = a ++ (o.toList ++ b) := by
  obtain ⟨l1, l2, rfl⟩ := append_of_mem hi
  have hnot := nodup_middle.mp hl
  rw [nodup_cons, mem_append, not_or] at hnot
  have hsame : ∀ l' : List ι, i ∉ l' → ∀ o, l'.filterMap (update f i o) = l'.filterMap f := by
    intro l' hni o
    refine filterMap_congr fun j hj => update_of_ne ?_ _ _
    exact fun e => hni (e ▸ hj)
  refine ⟨l1.filterMap f, l2.filterMap f, fun o => ?_⟩
  rw [filterMap_append, hsame l1 hnot.1.1, filterMap_cons, update_self,
    hsame l2 hnot.1.2]
  cases o <;> rfl

/-- A change at an index outside the list is not seen. -/
theorem filterMap_update_of_notMem [DecidableEq ι] {i : ι} (hi : i ∉ l) (f : ι → Option α)
    (o : Option α) : l.filterMap (update f i o) = l.filterMap f := by
  refine filterMap_congr fun x hx => ?_
  have hne : x ≠ i := fun e => hi (e ▸ hx)
  rw [update_of_ne hne]

/-- A stateful map from the right works through the last part first. -/
theorem mapAccumr_append {β σ : Type} (f : α → σ → σ × β) (xs ys : List α) (st : σ) :
    (xs ++ ys).mapAccumr f st =
      ((xs.mapAccumr f (ys.mapAccumr f st).1).1,
        (xs.mapAccumr f (ys.mapAccumr f st).1).2 ++ (ys.mapAccumr f st).2) := by
  induction xs with
  | nil => rfl
  | cons x xs ih => simp only [cons_append, mapAccumr, ih]

/-! ## Suffixes -/

theorem mem_drop_of_insert {a b : List α} {x y : α} {c : Nat} (h : y ∈ (a ++ b).drop c) :
    y ∈ (a ++ x :: b).drop c := by
  rw [drop_append] at h ⊢
  rcases mem_append.mp h with h | h
  · exact mem_append_left _ h
  · refine mem_append_right _ ?_
    generalize c - a.length = n at h ⊢
    cases n with
    | zero => exact mem_cons_of_mem _ h
    | succ n => exact drop_subset_drop_left b (Nat.le_succ n) h

theorem mem_drop_of_erase {a b : List α} {x y : α} {c : Nat} (hc : c ≤ a.length) (hne : y ≠ x)
    (h : y ∈ (a ++ x :: b).drop c) : y ∈ (a ++ b).drop c := by
  rw [drop_append_of_le_length hc] at h ⊢
  rcases mem_append.mp h with h | h
  · exact mem_append_left _ h
  · exact mem_append_right _ ((mem_cons.mp h).resolve_left hne)

end IndexedLists
