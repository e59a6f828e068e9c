import Mathlib.Data.Finset.Card
import Mathlib.Data.Finset.Dedup
import Mathlib.Data.Fintype.Defs

/-! Orders in which the elements of finite sets are listed. A hash container is
iterated in some such order; nothing else is known of it. -/

structure Listing (K : Type) where
  list : Finset K → List K
  nodup : ∀ s, (list s).Nodup
  mem_list : ∀ s k, k ∈ list s ↔ k ∈ s

namespace Listing

/-- Some order. -/
noncomputable def arbitrary (K : Type) : Listing K :=
  ⟨Finset.toList, Finset.nodup_toList, fun _ _ => Finset.mem_toList⟩

variable {K : Type} (ω ω' : Listing K)

theorem length_list (s : Finset K) : (ω.list s).length = s.card := by
  classical
  have hs : (ω.list s).toFinset = s := by
    apply Finset.ext
    intro k
    rw [List.mem_toFinset, ω.mem_list]
  rw [← List.toFinset_card_of_nodup (ω.nodup s), hs]

/-- Counting along a list that has every element once counts in the whole type. -/
theorem countP_eq_card {α : Type} [Fintype α] [DecidableEq α] {l : List α} (hnodup : l.Nodup)
    (hall : ∀ a, a ∈ l) (p : α → Bool) :
    l.countP p = (Finset.univ.filter fun a => p a = true).card := by
  rw [List.countP_eq_length_filter, ← List.toFinset_card_of_nodup (hnodup.filter _)]
  apply congrArg
  ext a
  simp [hall]

end Listing
