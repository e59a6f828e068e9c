import Mathlib.Data.Finmap
import Mathlib.Data.Multiset.Bind

/-! The pairs of a finite map as a multiset, and how insertion, replacement and
erasure change them. -/

namespace FinmapPairs

open Multiset

variable {K V : Type}

variable (m : Finmap fun _ : K => V)

def pairs : Multiset (K × V) := m.entries.map fun e => (e.1, e.2)

theorem card_pairs : card (pairs m) = m.keys.card := by
  rw [pairs, card_map]
  exact (card_map _ _).symm

theorem nodup_keys_pairs : ((pairs m).map Prod.fst).Nodup := by
  rw [pairs, map_map]
  exact nodup_keys.mpr m.nodupKeys

theorem nodup_pairs : (pairs m).Nodup :=
  Multiset.Nodup.of_map _ (nodup_keys_pairs m)

/-- Pairs with distinct keys are the pairs of a map. -/
theorem exists_pairs_eq {s : Multiset (K × V)} (h : (s.map Prod.fst).Nodup) :
    ∃ m : Finmap fun _ : K => V, pairs m = s := by
  let entries : Multiset (Sigma fun _ : K => V) := s.map fun e => ⟨e.1, e.2⟩
  have hkeys : entries.NodupKeys := by
    rw [← nodup_keys, keys, map_map]
    exact h
  refine ⟨⟨entries, hkeys⟩, ?_⟩
  rw [pairs, map_map]
  exact map_id s

variable [DecidableEq K]

variable {m : Finmap fun _ : K => V}

theorem mem_pairs {k : K} {v : V} :
    (k, v) ∈ pairs m ↔ m.lookup k = some v := by
  rw [Finmap.lookup_eq_some_iff, pairs, mem_map]
  constructor
  · rintro ⟨⟨k', v'⟩, he, h⟩
    cases h
    exact he
  · intro h
    exact ⟨⟨k, v⟩, h, rfl⟩

theorem pairs_insert {k : K} (h : m.lookup k = none) (v : V) :
    pairs (m.insert k v) = (k, v) ::ₘ pairs m := by
  rw [pairs, Finmap.entries_insert_of_notMem (Finmap.lookup_eq_none.mp h), map_cons]
  rfl

theorem insert_erase (m : Finmap fun _ : K => V) (k : K) (v : V) :
    (m.erase k).insert k v = m.insert k v := by
  apply Finmap.ext_lookup
  intro k'
  by_cases e : k' = k
  · subst e
    rw [Finmap.lookup_insert, Finmap.lookup_insert]
  · rw [Finmap.lookup_insert_of_ne _ e, Finmap.lookup_insert_of_ne _ e, Finmap.lookup_erase_ne e]

theorem insert_of_lookup {k : K} {v : V} (h : m.lookup k = some v) :
    m.insert k v = m := by
  apply Finmap.ext_lookup
  intro k'
  by_cases e : k' = k
  · subst e
    rw [Finmap.lookup_insert, h]
  · rw [Finmap.lookup_insert_of_ne _ e]

theorem pairs_replace (m : Finmap fun _ : K => V) (k : K) (v : V) :
    pairs (m.insert k v) = (k, v) ::ₘ pairs (m.erase k) := by
  rw [← insert_erase, pairs_insert (Finmap.lookup_erase k m)]

theorem pairs_of_lookup {k : K} {v : V} (h : m.lookup k = some v) :
    pairs m = (k, v) ::ₘ pairs (m.erase k) := by
  rw [← pairs_replace, insert_of_lookup h]

end FinmapPairs
