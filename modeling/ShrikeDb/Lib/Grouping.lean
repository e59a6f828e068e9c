import Mathlib.Algebra.BigOperators.Ring.List
import Mathlib.Algebra.Ring.Nat
import Mathlib.Data.List.Induction
import Mathlib.Data.List.Nodup

/-! Items collected into groups under a tag, as by pushing each one to the entry of
its tag in a map, and what sums and writes over the groups come to. -/

namespace Grouping

open List

variable {α β S : Type} [DecidableEq S]

/-- Add an item to the group of its tag, which is made if there is none. -/
def push (s : S) (a : α) : List (S × List α) → List (S × List α)
  | [] => [(s, [a])]
  | (t, as) :: groups => if t = s then (t, as ++ [a]) :: groups else (t, as) :: push s a groups

def group (tag : α → S) (items : List α) : List (S × List α) :=
  items.foldl (fun groups a => push (tag a) a groups) []

theorem map_fst_push (s : S) (a : α) (groups : List (S × List α)) :
    (push s a groups).map Prod.fst =
      if s ∈ groups.map Prod.fst then groups.map Prod.fst else groups.map Prod.fst ++ [s] := by
  induction groups with
  | nil => rfl
  | cons g groups ih =>
    obtain ⟨t, as⟩ := g
    rw [push]
    by_cases ht : t = s
    · subst ht
      simp
    · have hs : s ≠ t := fun e => ht e.symm
      rw [if_neg ht, map_cons, ih]
      simp only [map_cons, mem_cons, hs, false_or]
      split <;> rfl

theorem mem_push {s t : S} {a : α} {as : List α} {groups : List (S × List α)}
    (hnodup : (groups.map Prod.fst).Nodup) :
    (t, as) ∈ push s a groups ↔
      (t ≠ s ∧ (t, as) ∈ groups) ∨ (t = s ∧ ∃ bs, as = bs ++ [a] ∧
        ((s, bs) ∈ groups ∨ bs = [] ∧ s ∉ groups.map Prod.fst)) := by
  induction groups with
  | nil =>
    simp only [push, mem_singleton, Prod.mk.injEq, not_mem_nil, and_false, false_or,
      map_nil, not_false_eq_true, and_true]
    exact and_congr_right fun _ => ⟨fun h => ⟨[], h, rfl⟩, fun ⟨_, h, hb⟩ => by rw [h, hb]; rfl⟩
  | cons g groups ih =>
    obtain ⟨u, us⟩ := g
    obtain ⟨hu, hrest⟩ := nodup_cons.mp hnodup
    rw [push]
    by_cases hus : u = s
    · subst hus
      have hno : ∀ bs, (u, bs) ∉ groups := fun bs hb => hu (mem_map.mpr ⟨(u, bs), hb, rfl⟩)
      rw [if_pos rfl]
      by_cases ht : t = u
      · subst ht
        simp [hno]
      · simp [ht]
    · have hsu : s ≠ u := fun e => hus e.symm
      rw [if_neg hus, mem_cons, ih hrest]
      by_cases ht : t = s
      · subst ht
        simp [hsu]
      · simp [ht]

theorem nodup_push {s : S} {a : α} {groups : List (S × List α)} (h : (groups.map Prod.fst).Nodup) :
    ((push s a groups).map Prod.fst).Nodup := by
  rw [map_fst_push]
  split
  · exact h
  · rename_i hs
    exact nodup_append.mpr ⟨h, nodup_singleton s, fun t ht u hu e => by
      rw [mem_singleton] at hu
      exact hs (hu ▸ e ▸ ht)⟩

theorem group_append (tag : α → S) (items : List α) (a : α) :
    group tag (items ++ [a]) = push (tag a) a (group tag items) := by
  rw [group, foldl_append]
  rfl

theorem nodup_group (tag : α → S) (items : List α) : ((group tag items).map Prod.fst).Nodup := by
  induction items using reverseRecOn with
  | nil => exact nodup_nil
  | append_singleton items a ih =>
    rw [group_append]
    exact nodup_push ih

variable {tag : α → S} {items : List α}

/-- A group holds the items of its tag in their order. -/
theorem mem_group {s : S} {as : List α} :
    (s, as) ∈ group tag items ↔ as = items.filter (fun a => tag a = s) ∧ as ≠ [] := by
  induction items using reverseRecOn generalizing s as with
  | nil =>
    simp only [group, foldl_nil, not_mem_nil, filter_nil, false_iff]
    exact fun h => h.2 h.1
  | append_singleton items a ih =>
    have hfst : tag a ∈ (group tag items).map Prod.fst ↔
        items.filter (fun b => tag b = tag a) ≠ [] := by
      rw [mem_map]
      constructor
      · rintro ⟨⟨t, as⟩, hmem, rfl⟩
        obtain ⟨has, hne⟩ := ih.mp hmem
        exact has ▸ hne
      · exact fun hne => ⟨(tag a, _), ih.mpr ⟨rfl, hne⟩, rfl⟩
    rw [group_append, mem_push (nodup_group tag items), filter_append, ih]
    by_cases hs : s = tag a
    · subst hs
      simp only [ne_eq, not_true_eq_false, false_and, false_or, true_and, ih, hfst]
      rw [filter_cons_of_pos (by simp), filter_nil]
      constructor
      · rintro ⟨bs, rfl, ⟨hbs, -⟩ | ⟨rfl, hnil⟩⟩
        · exact ⟨by rw [hbs], by simp⟩
        · rw [not_not] at hnil
          exact ⟨by rw [hnil], by simp⟩
      · rintro ⟨has, -⟩
        refine ⟨_, has, ?_⟩
        by_cases hnil : items.filter (fun b => tag b = tag a) = []
        · exact .inr ⟨hnil, not_not.mpr hnil⟩
        · exact .inl ⟨rfl, hnil⟩
    · have hne : tag a ≠ s := fun e => hs e.symm
      rw [filter_cons_of_neg (by simpa using hne), filter_nil, append_nil]
      simp [hs]

theorem mem_map_fst_group {s : S} :
    s ∈ (group tag items).map Prod.fst ↔ ∃ a ∈ items, tag a = s := by
  rw [mem_map]
  constructor
  · rintro ⟨⟨t, as⟩, hmem, rfl⟩
    obtain ⟨has, hne⟩ := mem_group.mp hmem
    obtain ⟨a, ha⟩ := exists_mem_of_ne_nil _ hne
    rw [has, mem_filter] at ha
    exact ⟨a, ha.1, of_decide_eq_true ha.2⟩
  · rintro ⟨a, ha, rfl⟩
    refine ⟨(tag a, _), mem_group.mpr ⟨rfl, ?_⟩, rfl⟩
    exact ne_nil_of_mem (mem_filter.mpr ⟨ha, decide_eq_true rfl⟩)

theorem sum_indicator (tags : List S) (t : S) :
    (tags.map fun s => if t = s then 1 else 0).sum = tags.count t := by
  induction tags with
  | nil => rfl
  | cons s tags ih =>
    rw [map_cons, sum_cons, ih, count_cons, Nat.add_comm]
    simp only [beq_iff_eq, eq_comm (a := t)]

/-- Counting group by group counts every item once. -/
theorem sum_countP {tags : List S} (hnodup : tags.Nodup) (hcover : ∀ a ∈ items, tag a ∈ tags)
    (p : α → Bool) :
    (tags.map fun s => (items.filter fun a => tag a = s).countP p).sum = items.countP p := by
  induction items with
  | nil => simp
  | cons a items ih =>
    have hrest := ih fun b hb => hcover b (mem_cons_of_mem a hb)
    have hcount : tags.count (tag a) = 1 := count_eq_one_of_mem hnodup (hcover a mem_cons_self)
    have hcons : ∀ s, ((a :: items).filter fun b => tag b = s).countP p =
        (items.filter fun b => tag b = s).countP p +
          (if tag a = s then 1 else 0) * if p a then 1 else 0 := by
      intro s
      rw [filter_cons]
      by_cases hs : tag a = s
      · simp [hs, countP_cons]
      · simp [hs]
    simp only [hcons]
    rw [sum_map_add, hrest, sum_map_mul_right, sum_indicator, hcount, countP_cons,
      Nat.one_mul]

/-! ## Writing values back to their positions -/

/-- Writes that all put the value of `target` where they write. -/
theorem getElem?_foldl_set {writes : List (Nat × β)} {target init : List β}
    (h : ∀ w ∈ writes, target[w.1]? = some w.2) (hlen : init.length = target.length) (j : Nat) :
    (writes.foldl (fun r w => r.set w.1 w.2) init)[j]? =
      if j ∈ writes.map Prod.fst then target[j]? else init[j]? := by
  induction writes generalizing init with
  | nil => rfl
  | cons w writes ih =>
    rw [foldl_cons, ih (fun v hv => h v (mem_cons_of_mem w hv))
      ((length_set ..).trans hlen)]
    simp only [map_cons, mem_cons]
    by_cases hj : j ∈ writes.map Prod.fst
    · simp [hj]
    · by_cases hw : j = w.1
      · subst hw
        have hget := h w mem_cons_self
        have hlt : w.1 < init.length := hlen ▸ (List.getElem?_eq_some_iff.mp hget).1
        simp [hj, hlt, hget]
      · have hne : w.1 ≠ j := fun e => hw e.symm
        simp [hj, hw, hne]

theorem foldl_set_eq {writes : List (Nat × β)} {target init : List β}
    (h : ∀ w ∈ writes, target[w.1]? = some w.2) (hlen : init.length = target.length)
    (hcover : ∀ j < target.length, j ∈ writes.map Prod.fst) :
    writes.foldl (fun r w => r.set w.1 w.2) init = target := by
  refine ext_getElem? fun j => ?_
  rw [getElem?_foldl_set h hlen]
  by_cases hj : j < target.length
  · rw [if_pos (hcover j hj)]
  · have hnone : target[j]? = none := getElem?_eq_none (Nat.le_of_not_lt hj)
    have hnone' : init[j]? = none := getElem?_eq_none (hlen ▸ Nat.le_of_not_lt hj)
    rw [hnone, hnone', ite_self]

end Grouping
