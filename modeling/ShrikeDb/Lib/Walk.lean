import Mathlib.Data.List.Basic
import Mathlib.Logic.Function.Basic

/-! A loop over items that each read and change one cell of a memory. Items that work
on different cells do not see each other, so the loop can be taken apart by an owner
of the cells: every owner walks over its own items, in their order and on its own part
of the memory, and together they give the same answers and the same memory. -/

namespace Walk

open Function List

variable {ι K C β S : Type} [DecidableEq K] (key : ι → K) (answer : ι → C → β) (effect : ι → C → C)

/-- Answers in order, and the memory afterwards. -/
def walk : List ι → (K → C) → List β × (K → C)
  | [], m => ([], m)
  | x :: xs, m =>
    let rest := walk xs (update m (key x) (effect x (m (key x))))
    (answer x (m (key x)) :: rest.1, rest.2)

theorem length_walk (xs : List ι) (m : K → C) :
    (walk key answer effect xs m).1.length = xs.length := by
  induction xs generalizing m with
  | nil => rfl
  | cons x xs ih => rw [walk, length_cons, length_cons, ih]

theorem walk_map {γ : Type} (g : β → γ) (xs : List ι) (m : K → C) :
    walk key (fun x c => g (answer x c)) effect xs m =
      ((walk key answer effect xs m).1.map g, (walk key answer effect xs m).2) := by
  induction xs generalizing m with
  | nil => rfl
  | cons x xs ih => rw [walk, ih, walk, map_cons]

/-- A walk over renamed items. -/
theorem walk_comp {κ : Type} (g : κ → ι) (xs : List κ) (m : K → C) :
    walk key answer effect (xs.map g) m =
      walk (fun x => key (g x)) (fun x => answer (g x)) (fun x => effect (g x)) xs m := by
  induction xs generalizing m with
  | nil => rfl
  | cons x xs ih => rw [map_cons, walk, ih, walk]

variable {xs : List ι}

/-- Cells that no item names are left alone. -/
theorem walk_frame {k : K} (h : ∀ x ∈ xs, key x ≠ k) (m : K → C) :
    (walk key answer effect xs m).2 k = m k := by
  induction xs generalizing m with
  | nil => rfl
  | cons x xs ih =>
    have hx : k ≠ key x := fun e => h x mem_cons_self e.symm
    rw [walk, ih fun y hy => h y (mem_cons_of_mem x hy), update_of_ne hx]

/-- Every answer is given to a cell that satisfies what the effects keep. -/
theorem exists_of_mem_walk {I : C → Prop} (heffect : ∀ x c, I c → I (effect x c)) {m : K → C}
    (hm : ∀ k, I (m k)) {b : β} (hb : b ∈ (walk key answer effect xs m).1) :
    ∃ x ∈ xs, ∃ c, I c ∧ b = answer x c := by
  induction xs generalizing m with
  | nil => cases hb
  | cons x xs ih =>
    rcases mem_cons.mp hb with rfl | hb
    · exact ⟨x, mem_cons_self, m (key x), hm _, rfl⟩
    · have hm' : ∀ k, I (update m (key x) (effect x (m (key x))) k) := by
        intro k
        by_cases hk : k = key x
        · subst hk
          rw [update_self]
          exact heffect x _ (hm _)
        · rw [update_of_ne hk]
          exact hm k
      obtain ⟨y, hy, c, hc⟩ := ih hm' hb
      exact ⟨y, mem_cons_of_mem x hy, c, hc⟩

/-- A loop whose items work on different cells leaves at each what its own item makes of it. -/
theorem foldl_update_spec (effect : ι → C → C) (hnodup : (xs.map key).Nodup) (m : K → C) :
    (∀ x ∈ xs, xs.foldl (fun m x => update m (key x) (effect x (m (key x)))) m (key x) =
        effect x (m (key x))) ∧
      ∀ k, (∀ x ∈ xs, key x ≠ k) →
        xs.foldl (fun m x => update m (key x) (effect x (m (key x)))) m k = m k := by
  induction xs generalizing m with
  | nil => exact ⟨(fun x hx => nomatch hx), fun k _ => rfl⟩
  | cons x xs ih =>
    obtain ⟨hx, hrest⟩ := nodup_cons.mp hnodup
    have hne : ∀ y ∈ xs, key y ≠ key x := fun y hy e => hx (mem_map.mpr ⟨y, hy, e⟩)
    obtain ⟨hitems, hframe⟩ := ih hrest (update m (key x) (effect x (m (key x))))
    refine ⟨fun y hy => ?_, fun k hk => ?_⟩
    · rcases mem_cons.mp hy with rfl | hy
      · rw [foldl_cons, hframe _ hne, update_self]
      · rw [foldl_cons, hitems y hy, update_of_ne (hne y hy)]
    · have hkx : k ≠ key x := fun e => hk x mem_cons_self e.symm
      rw [foldl_cons, hframe k fun y hy => hk y (mem_cons_of_mem x hy),
        update_of_ne hkx]

/-- The memory after a walk, as a loop without answers leaves it. -/
theorem walk_memory (xs : List ι) (m : K → C) : (walk key answer effect xs m).2 =
    xs.foldl (fun m x => update m (key x) (effect x (m (key x)))) m := by
  induction xs generalizing m with
  | nil => rfl
  | cons x xs ih => rw [walk, foldl_cons, ih]

/-- Items without effect can be left out. -/
theorem walk_memory_filter {p : ι → Bool} (h : ∀ x, p x = false → effect x = id) (xs : List ι)
    (m : K → C) : (walk key answer effect (xs.filter p) m).2 = (walk key answer effect xs m).2 := by
  induction xs generalizing m with
  | nil => rfl
  | cons x xs ih =>
    rw [filter_cons]
    cases hx : p x with
    | true =>
      rw [if_pos rfl, walk, walk, ih]
    | false =>
      rw [if_neg Bool.false_ne_true, ih, walk, h x hx, id, update_eq_self]

/-! ## Taking the loop apart -/

section Owners

variable [DecidableEq S] {own : K → S}

/-- The memory as its owners hold it together. -/
def union (own : K → S) (ms : S → K → C) : K → C := fun k => ms (own k) k

/-- The items of one owner. -/
def share (own : K → S) (s : S) (xs : List ι) : List ι := xs.filter fun x => own (key x) = s

/-- What the owners hold after one item. -/
def advance (own : K → S) (ms : S → K → C) (x : ι) : S → K → C :=
  update ms (own (key x))
    (update (ms (own (key x))) (key x) (effect x (ms (own (key x)) (key x))))

variable (ms : S → K → C)

theorem union_advance (x : ι) :
    union own (advance key effect own ms x) =
      update (union own ms) (key x) (effect x (union own ms (key x))) := by
  funext k
  rw [union, advance]
  by_cases hk : k = key x
  · subst hk
    rw [update_self, update_self, update_self]
    rfl
  · rw [update_of_ne hk, union]
    by_cases ho : own k = own (key x)
    · rw [ho, update_self, update_of_ne hk]
    · rw [update_of_ne ho]

/-- The first item is walked by the owner of its cell, the others wait. -/
theorem walk_share_cons (x : ι) (xs : List ι) (s : S) :
    walk key answer effect (share key own s (x :: xs)) (ms s) =
      ((if own (key x) = s then [answer x (ms s (key x))] else []) ++
          (walk key answer effect (share key own s xs) (advance key effect own ms x s)).1,
        (walk key answer effect (share key own s xs) (advance key effect own ms x s)).2) := by
  by_cases hs : own (key x) = s
  · subst hs
    rw [if_pos rfl, share, filter_cons, if_pos (decide_eq_true rfl), walk, advance,
      update_self]
    rfl
  · have hne : s ≠ own (key x) := fun e => hs e.symm
    rw [if_neg hs, share, filter_cons, if_neg (by simpa using hs), advance, update_of_ne hne]
    rfl

theorem walk_union (xs : List ι) :
    (walk key answer effect xs (union own ms)).2 =
      union own fun s => (walk key answer effect (share key own s xs) (ms s)).2 := by
  induction xs generalizing ms with
  | nil => rfl
  | cons x xs ih =>
    have hstep : ∀ s, (walk key answer effect (share key own s (x :: xs)) (ms s)).2 =
        (walk key answer effect (share key own s xs) (advance key effect own ms x s)).2 :=
      fun s => by rw [walk_share_cons]
    simp only [hstep]
    rw [← ih, union_advance]
    rfl

/-- The answers an owner gives are those the whole loop gives for its items. -/
theorem walk_answers (xs : List ι) (s : S) :
    (walk key answer effect (share key own s xs) (ms s)).1 =
      ((xs.zip (walk key answer effect xs (union own ms)).1).filter
        fun p => own (key p.1) = s).map Prod.snd := by
  induction xs generalizing ms with
  | nil => rfl
  | cons x xs ih =>
    rw [walk_share_cons, ih, union_advance, walk, zip_cons_cons, filter_cons]
    by_cases hs : own (key x) = s
    · subst hs
      simp [union]
    · simp [hs]

end Owners

end Walk
