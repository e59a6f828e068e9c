import Mathlib.Data.List.ProdSigma
import ShrikeDb.Dash.Segment
import ShrikeDb.Dash.Stash

/-! Where a segment keeps its items, and what `find`, `insertNew` and `delete`
do to them. A segment is read as a partial assignment of items to positions
together with the stash metadata of its regular buckets; the invariant says
that an item sits in its home bucket, as a probing item in the next bucket, or
in a stash bucket, and that the metadata never claims more than the stash has. -/

namespace ShrikeDb.Dash

open List

theorem regular_ne_stash (b : Fin numBuckets) (i : StashId) : regular b ≠ stash i := by
  intro h
  have hv := congrArg Fin.val h
  simp only [regular, stash, Fin.val_castAdd, Fin.val_natAdd] at hv
  omega

theorem regular_injective : Function.Injective regular := Fin.castAdd_injective _ _

theorem stash_injective : Function.Injective stash := Fin.natAdd_injective _ _

theorem nextBucket_ne (b : Fin numBuckets) : nextBucket b ≠ b := by
  intro h
  have hv := congrArg Fin.val h
  unfold nextBucket at hv
  split at hv
  · simp at hv
  · rename_i hge
    simp only [numBuckets, Fin.val_zero] at hv hge
    omega

/-- Fingerprint and probing bit of a slot. -/
def Bucket.tag {K V : Type} (b : Bucket K V) (slot : Slot) : UInt8 × Bool :=
  (b.fingerprints slot, b.slots.probing slot)

namespace Segment

variable {K V : Type}

variable (s : Segment K V)

variable (pos : SegmentPos)

/-- The pair stored at a position. -/
def item : Option (K × V) :=
  (s.buckets pos.bucketIdx).item pos.slotIdx

/-- Fingerprint and probing bit of a position. -/
def tag : UInt8 × Bool :=
  (s.buckets pos.bucketIdx).tag pos.slotIdx

/-- The stash metadata of a regular bucket. -/
def stashMeta (b : Fin numBuckets) : StashMeta := (s.buckets (regular b)).stashMeta

def allPositions : List SegmentPos :=
  (finRange totalBuckets ×ˢ finRange numSlots).map fun p => ⟨p.1, p.2⟩

theorem mem_allPositions : pos ∈ allPositions := by
  simp [allPositions]

theorem nodup_allPositions : allPositions.Nodup := by
  refine List.Nodup.map ?_ ((nodup_finRange _).product (nodup_finRange _))
  rintro ⟨a, b⟩ ⟨c, d⟩ h
  cases h
  rfl

/-- All pairs of a segment. -/
def contents : Multiset (K × V) := (allPositions.filterMap s.item : List _)

variable {s : Segment K V} {fp : UInt8} {probe : Bool} {eq : K → Bool} {slot : Slot}
  {pos : SegmentPos}

theorem mem_contents {kv : K × V} : kv ∈ s.contents ↔ ∃ pos, s.item pos = some kv := by
  simp [contents, mem_allPositions]

/-- Every bucket is consistent in itself. -/
structure BucketsWF (s : Segment K V) : Prop where
  slots : ∀ i, (s.buckets i).WF
  stash : ∀ i, (s.buckets i).StashWF

theorem bucketsWF_new (d : UInt8) : (new d : Segment K V).BucketsWF :=
  ⟨fun _ => Bucket.wf_new, fun _ => Bucket.stashWF_new⟩

theorem contents_new (d : UInt8) : (new d : Segment K V).contents = 0 := by
  simp [contents, item, new, Bucket.new, Bucket.item]

/-- The positions `iter` visits are those that hold an item. -/
theorem positions_eq (h : ∀ i, (s.buckets i).WF) :
    s.positions = allPositions.filter fun pos => (s.item pos).isSome := by
  have hprod : allPositions = (finRange totalBuckets).flatMap fun i =>
      (finRange numSlots).map fun slot => (⟨i, slot⟩ : SegmentPos) := by
    simp only [allPositions, SProd.sprod, product, map_flatMap, map_map]
    rfl
  rw [positions, hprod, filter_flatMap]
  congr 1
  funext i
  rw [(h i).slotsOf_busy, filter_map]
  congr 2
  funext slot
  exact ((h i).item_isSome slot).symm

theorem filterMap_positions (h : ∀ i, (s.buckets i).WF) :
    s.positions.filterMap s.item = allPositions.filterMap s.item := by
  rw [positions_eq h, filterMap_filter]
  congr 1
  funext pos
  cases s.item pos <;> rfl

/-! ## Search -/

theorem findInBucket_some (h : s.BucketsWF) {i : BucketIdx}
    (hf : s.findInBucket i fp probe eq = some slot) :
    ∃ k v, s.item ⟨i, slot⟩ = some (k, v) ∧ s.tag ⟨i, slot⟩ = (fp, probe) ∧ eq k = true := by
  have hmem := mem_of_find?_eq_some hf
  have heq := find?_some hf
  rw [Bucket.slotsOf_findMatching, mem_filter] at hmem
  obtain ⟨_, hm⟩ := hmem
  simp only [Bool.and_eq_true, beq_iff_eq] at hm
  obtain ⟨⟨hocc, hprobe⟩, hfp⟩ := hm
  rw [← (h.slots i).item_isSome, Option.isSome_iff_exists] at hocc
  obtain ⟨⟨k, v⟩, hkv⟩ := hocc
  refine ⟨k, v, hkv, Prod.ext hfp hprobe, ?_⟩
  rw [(h.slots i).keys_eq_item, hkv] at heq
  simpa using heq

theorem findInBucket_isSome (h : s.BucketsWF) {i : BucketIdx} {k : K} {v : V}
    (hitem : s.item ⟨i, slot⟩ = some (k, v)) (htag : s.tag ⟨i, slot⟩ = (fp, probe))
    (heq : eq k = true) : (s.findInBucket i fp probe eq).isSome = true := by
  rw [findInBucket, find?_isSome]
  refine ⟨slot, ?_, ?_⟩
  · have hocc : (s.buckets i).slots.occupied slot = true := by
      rw [← (h.slots i).item_isSome]
      exact Option.isSome_iff_exists.mpr ⟨_, hitem⟩
    rw [Bucket.slotsOf_findMatching, mem_filter]
    refine ⟨mem_finRange _, ?_⟩
    rw [tag, Bucket.tag, Prod.mk.injEq] at htag
    simp [hocc, htag.1, htag.2]
  · have hk : (s.buckets i).keys slot = some k := by
      rw [(h.slots i).keys_eq_item]
      exact congrArg (Option.map Prod.fst) hitem
    simp [hk, heq]

theorem shift_and_one (m : BitVec 8) (i : Nat) : ((m >>> i) &&& 1#8 != 0#8) = m.getLsbD i := by
  rw [Bool.eq_iff_iff, bne_iff_ne, ne_eq, show (1#8) = 1#8 <<< 0 by decide,
    Bucket.and_bit_eq_zero _ 0 (by decide), Bool.not_eq_false, BitVec.getLsbD_ushiftRight,
    Nat.add_zero]

theorem findInStashViaPtrs_some (h : s.BucketsWF) {b : BucketIdx}
    (hf : s.findInStashViaPtrs b fp probe eq = some pos) :
    probe = false ∧ ∃ i, pos.bucketIdx = stash i ∧ (fp, i) ∈ (s.buckets b).refs ∧
      ∃ k v, s.item pos = some (k, v) ∧ eq k = true := by
  obtain ⟨j, _, hj⟩ := exists_of_findSome?_eq_some hf
  have hj4 := Bucket.stash_lt j
  split at hj
  · cases hj
  · rename_i hbusy
    split at hj
    · cases hj
    · rename_i hfp
      split at hj
      · cases hj
      · rename_i hprobe
        rw [Bucket.and_bit_eq_zero _ _ (by omega), Bool.not_eq_false] at hbusy
        rw [ne_eq, not_not] at hfp hprobe
        rw [shift_and_one, (h.stash b).owned j hbusy] at hprobe
        obtain ⟨slot, hslot, rfl⟩ := Option.map_eq_some_iff.mp hj
        refine ⟨hprobe.symm, _, rfl, Bucket.mem_refs.mpr ⟨j, ?_⟩, ?_⟩
        · rw [Bucket.ptr, if_pos hbusy, hfp]
        · have hmem := mem_of_find?_eq_some hslot
          have heq := find?_some hslot
          rw [(h.slots _).slotsOf_busy, mem_filter] at hmem
          obtain ⟨_, hocc⟩ := hmem
          rw [← (h.slots _).item_isSome, Option.isSome_iff_exists] at hocc
          obtain ⟨⟨k, v⟩, hkv⟩ := hocc
          rw [(h.slots _).keys_eq_item, hkv, Bool.and_eq_true] at heq
          exact ⟨k, v, hkv, by simpa using heq.2⟩

theorem findInStashViaPtrs_isSome (h : s.BucketsWF) {b : BucketIdx} {i : StashId} {k : K} {v : V}
    (href : (fp, i) ∈ (s.buckets b).refs) (hitem : s.item ⟨stash i, slot⟩ = some (k, v))
    (htag : s.tag ⟨stash i, slot⟩ = (fp, false)) (heq : eq k = true) :
    (s.findInStashViaPtrs b fp false eq).isSome = true := by
  obtain ⟨j, hj⟩ := Bucket.mem_refs.mp href
  have hj4 := Bucket.stash_lt j
  rw [Bucket.ptr] at hj
  split at hj
  · rename_i hbusy
    obtain ⟨hfp, hpos⟩ := Prod.mk.inj (Option.some.inj hj)
    rw [findInStashViaPtrs, findSome?_isSome_iff]
    refine ⟨j, mem_finRange j, ?_⟩
    rw [if_neg, if_neg, if_neg, hpos, Option.isSome_map, find?_isSome]
    · refine ⟨slot, ?_, ?_⟩
      · rw [(h.slots _).slotsOf_busy, mem_filter, ← (h.slots _).item_isSome]
        exact ⟨mem_finRange _, Option.isSome_iff_exists.mpr ⟨_, hitem⟩⟩
      · have hk : (s.buckets (stash i)).keys slot = some k := by
          rw [(h.slots _).keys_eq_item]
          exact congrArg (Option.map Prod.fst) hitem
        rw [tag, Bucket.tag, Prod.mk.injEq] at htag
        simp [hk, heq, htag.1]
    · rw [shift_and_one, (h.stash b).owned j hbusy]
      simp
    · simp [hfp]
    · rw [Bucket.and_bit_eq_zero _ _ (by omega), hbusy]
      simp
  · cases hj

/-- An item found is stored, and an item found in the stash is recorded at home. -/
theorem find_some (h : s.BucketsWF) {hash : UInt64} (hf : s.find hash eq = some pos) :
    (∃ k v, s.item pos = some (k, v) ∧ eq k = true) ∧ ∀ i, pos.bucketIdx = stash i →
      (s.stashMeta (homeBucket hash)).Covers (fingerprint hash, i) := by
  rw [find] at hf
  split at hf
  · rename_i slot hslot
    cases hf
    obtain ⟨k, v, hkv, _, heq⟩ := findInBucket_some h hslot
    exact ⟨⟨k, v, hkv, heq⟩, fun i e => absurd e (regular_ne_stash _ _)⟩
  · split at hf
    · rename_i slot hslot
      cases hf
      obtain ⟨k, v, hkv, _, heq⟩ := findInBucket_some h hslot
      exact ⟨⟨k, v, hkv, heq⟩, fun i e => absurd e (regular_ne_stash _ _)⟩
    · split at hf
      · cases hf
      · split at hf
        · rename_i hover
          obtain ⟨i, _, hi⟩ := exists_of_findSome?_eq_some hf
          obtain ⟨slot, hslot, rfl⟩ := Option.map_eq_some_iff.mp hi
          obtain ⟨k, v, hkv, _, heq⟩ := findInBucket_some h hslot
          refine ⟨⟨k, v, hkv, heq⟩, fun _ _ => Or.inr ?_⟩
          exact BitVec.lt_def.mp (of_decide_eq_true hover)
        · rcases Option.or_eq_some_iff.mp hf with hp | ⟨_, hp⟩
          · obtain ⟨_, i, hi, href, hkv⟩ := findInStashViaPtrs_some h hp
            refine ⟨hkv, fun i' e => Or.inl ?_⟩
            rw [← stash_injective (hi.symm.trans e)]
            exact href
          · exact absurd (findInStashViaPtrs_some h hp).1 (by decide)

/-- The positions `find` looks at for a hash. -/
def Visible (s : Segment K V) (hash : UInt64) (pos : SegmentPos) : Prop :=
  (pos.bucketIdx = regular (homeBucket hash) ∧ s.tag pos = (fingerprint hash, false)) ∨
  (pos.bucketIdx = regular (nextBucket (homeBucket hash)) ∧ s.tag pos = (fingerprint hash, true)) ∨
  ∃ i, pos.bucketIdx = stash i ∧ s.tag pos = (fingerprint hash, false) ∧
    (s.stashMeta (homeBucket hash)).Covers (fingerprint hash, i)

theorem find_isSome (h : s.BucketsWF) {hash : UInt64} {k : K} {v : V}
    (hitem : s.item pos = some (k, v)) (heq : eq k = true) (hvis : s.Visible hash pos) :
    (s.find hash eq).isSome = true := by
  obtain ⟨b, slot⟩ := pos
  rw [find]
  split
  · rfl
  · rename_i hhome
    split
    · rfl
    · rename_i hnext
      rcases hvis with ⟨rfl, htag⟩ | ⟨rfl, htag⟩ | ⟨i, rfl, htag, hcov⟩
      · have := findInBucket_isSome h hitem htag heq
        rw [hhome] at this
        cases this
      · have := findInBucket_isSome h hitem htag heq
        rw [hnext] at this
        cases this
      · have hflag : (s.buckets (regular (homeBucket hash))).hasStash = true := by
          refine (h.stash _).flag.mpr (hcov.imp_left ?_)
          intro hmem hz
          rw [stashMeta, Bucket.stashMeta, hz] at hmem
          exact Multiset.notMem_zero _ hmem
        rw [hflag, Bool.not_true, if_neg Bool.false_ne_true]
        split
        · rw [findSome?_isSome_iff]
          refine ⟨i, mem_finRange i, ?_⟩
          rw [Option.isSome_map]
          exact findInBucket_isSome h hitem htag heq
        · rename_i hover
          have href : (fingerprint hash, i) ∈ (s.buckets (regular (homeBucket hash))).refs := by
            refine hcov.resolve_right fun hpos => hover ?_
            exact decide_eq_true (BitVec.lt_def.mpr hpos)
          rw [Option.isSome_or, findInStashViaPtrs_isSome h href hitem htag heq, Bool.true_or]

end Segment

end ShrikeDb.Dash
