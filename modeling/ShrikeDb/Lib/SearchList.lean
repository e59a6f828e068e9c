import Mathlib.Data.List.Perm.Basic

/-! Lists searched from the left through a comparison, up to the first element that is
not smaller. Where the comparison is a linear preorder on the elements, the list stays
sorted and every element is found through itself. -/

namespace SearchList

variable {α : Type} (cmp : α → α → Ordering)

/-- An element that compares equal to one of the list is not inserted. -/
def insert (e : α) : List α → List α
  | [] => [e]
  | k :: ks =>
    match cmp e k with
    | .gt => k :: insert e ks
    | .eq => k :: ks
    | .lt => e :: k :: ks

def remove (e : α) : List α → List α
  | [] => []
  | k :: ks =>
    match cmp e k with
    | .gt => k :: remove e ks
    | .eq => ks
    | .lt => k :: ks

def Sorted (l : List α) : Prop := l.Pairwise fun a b => cmp a b = .lt

/-- What of a linear preorder is needed of the comparison, on the elements with `P`. -/
structure LinearOn (P : α → Prop) : Prop where
  refl : ∀ a, P a → cmp a a = .eq
  swap : ∀ a b, P a → P b → cmp b a = (cmp a b).swap
  trans : ∀ a b c, P a → P b → P c → cmp a b = .lt → cmp b c = .lt → cmp a c = .lt

variable {cmp} {P : α → Prop}

theorem LinearOn.gt_of_lt (h : LinearOn cmp P) {a b : α} (ha : P a) (hb : P b)
    (hlt : cmp a b = .lt) : cmp b a = .gt := by
  rw [h.swap a b ha hb, hlt]
  rfl

theorem LinearOn.lt_of_gt (h : LinearOn cmp P) {a b : α} (ha : P a) (hb : P b)
    (hgt : cmp a b = .gt) : cmp b a = .lt := by
  rw [h.swap a b ha hb, hgt]
  rfl

variable {l : List α}

theorem Sorted.nodup (h : LinearOn cmp P) (hs : Sorted cmp l) (hP : ∀ a ∈ l, P a) :
    l.Nodup := by
  refine List.Pairwise.imp_of_mem (fun {a b} ha _ hlt hab => ?_) hs
  subst hab
  rw [h.refl a (hP a ha)] at hlt
  cases hlt

/-- An element of the list is found through itself and taken out. -/
theorem remove_of_mem (h : LinearOn cmp P) (hs : Sorted cmp l) (hP : ∀ a ∈ l, P a) {e : α}
    (he : e ∈ l) : ∃ a b, l = a ++ e :: b ∧ remove cmp e l = a ++ b := by
  induction l with
  | nil => cases he
  | cons k ks ih =>
    obtain ⟨hk, hs'⟩ := List.pairwise_cons.mp hs
    rcases List.mem_cons.mp he with rfl | hmem
    · refine ⟨[], ks, rfl, ?_⟩
      rw [remove, h.refl e (hP e he)]
      rfl
    · obtain ⟨a, b, hl, hr⟩ := ih hs' (fun x hx => hP x (List.mem_cons_of_mem k hx)) hmem
      refine ⟨k :: a, b, by rw [hl]; rfl, ?_⟩
      rw [remove, h.gt_of_lt (hP k List.mem_cons_self) (hP e he) (hk e hmem)]
      exact congrArg (k :: ·) hr

theorem insert_perm {e : α} (hnew : ∀ a ∈ l, cmp e a ≠ .eq) :
    (insert cmp e l).Perm (e :: l) := by
  induction l with
  | nil => exact .refl _
  | cons k ks ih =>
    rw [insert]
    cases hc : cmp e k with
    | lt => exact .refl _
    | eq => exact absurd hc (hnew k List.mem_cons_self)
    | gt => exact ((ih fun a ha => hnew a (List.mem_cons_of_mem k ha)).cons k).trans (.swap e k ks)

theorem Sorted.insert (h : LinearOn cmp P) (hs : Sorted cmp l) (hP : ∀ a ∈ l, P a) {e : α}
    (he : P e) (hnew : ∀ a ∈ l, cmp e a ≠ .eq) : Sorted cmp (insert cmp e l) := by
  induction l with
  | nil => exact List.pairwise_singleton _ _
  | cons k ks ih =>
    obtain ⟨hk, hs'⟩ := List.pairwise_cons.mp hs
    have hPk := hP k List.mem_cons_self
    have hP' := fun a ha => hP a (List.mem_cons_of_mem k ha)
    have hnew' := fun a ha => hnew a (List.mem_cons_of_mem k ha)
    rw [SearchList.insert]
    cases hc : cmp e k with
    | lt =>
      refine List.pairwise_cons.mpr ⟨fun a ha => ?_, hs⟩
      rcases List.mem_cons.mp ha with rfl | ha
      · exact hc
      · exact h.trans e k a he hPk (hP' a ha) hc (hk a ha)
    | eq => exact absurd hc (hnew k List.mem_cons_self)
    | gt =>
      refine List.pairwise_cons.mpr ⟨fun a ha => ?_, ih hs' hP' hnew'⟩
      rcases List.mem_cons.mp ((insert_perm hnew').mem_iff.mp ha) with rfl | ha
      · exact h.lt_of_gt he hPk hc
      · exact hk a ha

end SearchList
