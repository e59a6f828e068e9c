import ShrikeDb.Dash.Occupancy
import ShrikeDb.Dash.Runs

/-! Growth. A rebuild that completes doubles the segments, keeps every pair and makes every
key visible again, whatever the placement and the stash metadata of the old table. It need
not complete: the items are placed again in another order, stash first, and a chain of full
neighbouring buckets can then push more items into a stash than it holds. The items that can
reach a stash are those at home in a crowded neighbourhood; where there are few of them no
item is lost. -/

namespace ShrikeDb.Dash

open Function Multiset

/-! ## Crowded neighbourhoods -/

theorem nextBucket_injective : Function.Injective nextBucket := by
  intro a b h
  have hv := congrArg Fin.val h
  have ha := a.isLt
  have hb := b.isLt
  unfold nextBucket at hv
  simp only [numBuckets] at *
  split at hv <;> split at hv <;> simp only [Fin.val_zero] at hv <;> omega

/-- An item at home in `b'` may sit in `b` or in the bucket after `b`. -/
def Near (b b' : Fin numBuckets) : Prop := b' = b ∨ nextBucket b' = b ∨ b' = nextBucket b

instance decidableNear (b b' : Fin numBuckets) : Decidable (Near b b') :=
  inferInstanceAs (Decidable (_ ∨ _ ∨ _))

section Crowds

variable {K V : Type} (hash : K → UInt64)

/-- More items may sit in `b` and the bucket after it than the two hold. -/
def Crowded (items : Multiset (K × V)) (b : Fin numBuckets) : Prop :=
  2 * numSlots < items.countP fun kv => Near b (homeBucket (hash kv.1))

instance decidableCrowded (items : Multiset (K × V)) (b : Fin numBuckets) :
    Decidable (Crowded hash items b) :=
  inferInstanceAs (Decidable (_ < _))

/-- For every crowded bucket, the stash holds all items at home in crowded buckets, or it
holds them and the near ones together with the bucket and the one after it. -/
def Fits (items : Multiset (K × V)) : Prop :=
  ∀ b, Crowded hash items b →
    items.countP (fun kv => Crowded hash items (homeBucket (hash kv.1))) ≤ numStash * numSlots ∨
      items.countP (fun kv => Crowded hash items (homeBucket (hash kv.1)) ∨
        Near b (homeBucket (hash kv.1))) ≤ (numStash + 2) * numSlots

variable {hash} in
theorem fits_of_card_le {items : Multiset (K × V)} (h : card items ≤ (numStash + 2) * numSlots) :
    Fits hash items :=
  fun _ _ => Or.inr (le_trans (countP_le_card _ _) h)

end Crowds

/-! ## Packed segments -/

namespace Segment

variable {K V : Type}

/-- Every slot of the bucket holds an item. -/
def Packed (s : Segment K V) (i : BucketIdx) : Prop := ∀ slot, (s.item ⟨i, slot⟩).isSome = true

variable {s s' : Segment K V} {i : BucketIdx} {pos : SegmentPos} {items : Multiset (K × V)}

theorem packed_of_isFull (h : s.BucketsWF) (hfull : (s.buckets i).slots.isFull = true) :
    s.Packed i := by
  intro slot
  have hocc := (h.slots i).slots.isFull_iff.mp hfull slot
  exact ((h.slots i).item_isSome slot).trans hocc

theorem Packed.update (h : s.Packed i) {kv : K × V}
    (hitem : s'.item = update s.item pos (some kv)) : s'.Packed i := by
  intro slot
  rw [hitem]
  by_cases e : (⟨i, slot⟩ : SegmentPos) = pos
  · rw [e, update_self]
    rfl
  · rw [update_of_ne e]
    exact h slot

def slotsAt (i : BucketIdx) : List SegmentPos := (List.finRange numSlots).map fun slot => ⟨i, slot⟩

theorem mem_slotsAt : pos ∈ slotsAt i ↔ pos.bucketIdx = i := by
  constructor
  · intro h
    obtain ⟨slot, _, rfl⟩ := List.mem_map.mp h
    rfl
  · rintro rfl
    exact List.mem_map.mpr ⟨pos.slotIdx, List.mem_finRange _, rfl⟩

theorem nodup_slotsAt (i : BucketIdx) : (slotsAt i).Nodup :=
  (List.nodup_finRange _).map fun _ _ h => (SegmentPos.mk.inj h).2

theorem length_slotsAt (i : BucketIdx) : (slotsAt i).length = numSlots := by
  rw [slotsAt, List.length_map, List.length_finRange]

/-- The slots of distinct buckets are distinct. -/
theorem nodup_flatMap_slotsAt {l : List BucketIdx} (h : l.Nodup) : (l.flatMap slotsAt).Nodup := by
  rw [List.nodup_flatMap]
  refine ⟨fun i _ => nodup_slotsAt i, h.imp fun hne pos hi hj => hne ?_⟩
  exact (mem_slotsAt.mp hi).symm.trans (mem_slotsAt.mp hj)

theorem length_flatMap_slotsAt (l : List BucketIdx) :
    (l.flatMap slotsAt).length = l.length * numSlots := by
  induction l with
  | nil => rfl
  | cons i l ih =>
    rw [List.flatMap_cons, List.length_append, length_slotsAt, ih, List.length_cons, Nat.succ_mul,
      Nat.add_comm]

/-- Positions whose items satisfy `p` are at most as many as the stored pairs that do. -/
theorem length_le_countP (p : K × V → Prop) [DecidablePred p] {l : List SegmentPos} (hn : l.Nodup)
    (h : ∀ pos ∈ l, ∃ kv, s.item pos = some kv ∧ p kv) : l.length ≤ s.contents.countP p := by
  rw [contents, coe_countP, List.countP_filterMap, List.countP_eq_length_filter]
  refine (hn.subperm fun pos hmem => List.mem_filter.mpr ⟨mem_allPositions pos, ?_⟩).length_le
  obtain ⟨kv, hitem, hp⟩ := h pos hmem
  simp [hitem, hp]

/-- One pair more counts as well. -/
theorem length_lt_countP (p : K × V → Prop) [DecidablePred p] {l : List SegmentPos} (hn : l.Nodup)
    (h : ∀ pos ∈ l, ∃ kv, s.item pos = some kv ∧ p kv) {kv : K × V}
    (hle : kv ::ₘ s.contents ≤ items) (hp : p kv) : l.length < items.countP p := by
  have hcons := countP_le_of_le p hle
  rw [countP_cons_of_pos s.contents hp] at hcons
  exact lt_of_lt_of_le (Nat.lt_succ_of_le (length_le_countP p hn h)) hcons

variable (hash : K → UInt64)

/-- The home of a stash item and the bucket after it are packed: true while items are only
inserted. -/
def Stacked (s : Segment K V) : Prop :=
  ∀ i slot k v, s.item ⟨stash i, slot⟩ = some (k, v) →
    s.Packed (regular (homeBucket (hash k))) ∧ s.Packed (regular (nextBucket (homeBucket (hash k))))

variable {hash}

variable (hash) in
theorem stacked_new (d : UInt8) : (new d : Segment K V).Stacked hash := by
  intro i slot k v h
  simp [new, item, Bucket.new, Bucket.item] at h

variable {k : K} {v : V} {b : Fin numBuckets}

theorem insertAt_bucketIdx {fp : UInt8} {probing : Bool}
    (h : s.insertAt i k v fp probing = some (s', pos)) : pos.bucketIdx = i := by
  rw [insertAt] at h
  split at h
  · cases h
  · cases h
    rfl

/-- The stash is the last resort. -/
theorem insertNew_stash {h : UInt64} (hins : s.insertNew k v h = some (.ok (s', pos))) {i : StashId}
    (hpos : pos.bucketIdx = stash i) :
    (s.buckets (regular (homeBucket h))).slots.isFull = true ∧
      (s.buckets (regular (nextBucket (homeBucket h)))).slots.isFull = true := by
  simp only [insertNew] at hins
  split at hins
  · obtain ⟨⟨s1, _⟩, hat, heq⟩ := Option.map_eq_some_iff.mp hins
    cases heq
    exact absurd ((insertAt_bucketIdx hat).symm.trans hpos) (regular_ne_stash _ _)
  · rename_i hhome
    split at hins
    · obtain ⟨⟨s1, _⟩, hat, heq⟩ := Option.map_eq_some_iff.mp hins
      cases heq
      exact absurd ((insertAt_bucketIdx hat).symm.trans hpos) (regular_ne_stash _ _)
    · rename_i hnext
      exact ⟨by simpa using hhome, by simpa using hnext⟩

theorem Stacked.insertNew (h : s.Stacked hash) (hwf : s.BucketsWF)
    (hins : s.insertNew k v (hash k) = some (.ok (s', pos))) : s'.Stacked hash := by
  obtain ⟨_, hitem⟩ := insertNew_item hwf hins
  intro i slot k' v' hi
  rw [hitem] at hi
  by_cases e : (⟨stash i, slot⟩ : SegmentPos) = pos
  · rw [e, update_self] at hi
    cases hi
    obtain ⟨hhome, hnext⟩ := insertNew_stash hins (congrArg SegmentPos.bucketIdx e).symm
    exact ⟨(packed_of_isFull hwf hhome).update hitem, (packed_of_isFull hwf hnext).update hitem⟩
  · rw [update_of_ne e] at hi
    obtain ⟨hhome, hnext⟩ := h i slot k' v' hi
    exact ⟨hhome.update hitem, hnext.update hitem⟩

/-! ## A full segment is crowded -/

/-- The slots of a bucket and of the one after it. -/
def neighbourhood (b : Fin numBuckets) : List SegmentPos :=
  [regular b, regular (nextBucket b)].flatMap slotsAt

def stashSlots : List SegmentPos := ((List.finRange numStash).map stash).flatMap slotsAt

theorem mem_neighbourhood : pos ∈ neighbourhood b ↔
    pos.bucketIdx = regular b ∨ pos.bucketIdx = regular (nextBucket b) := by
  simp [neighbourhood, mem_slotsAt]

theorem mem_stashSlots : pos ∈ stashSlots ↔ ∃ i, pos.bucketIdx = stash i := by
  simp [stashSlots, mem_slotsAt, eq_comm]

theorem nodup_neighbourhood (b : Fin numBuckets) : (neighbourhood b).Nodup := by
  refine nodup_flatMap_slotsAt (List.nodup_cons.mpr ⟨?_, List.nodup_singleton _⟩)
  rw [List.mem_singleton]
  exact fun h => nextBucket_ne b (regular_injective h).symm

theorem nodup_stashSlots : stashSlots.Nodup :=
  nodup_flatMap_slotsAt ((List.nodup_finRange _).map stash_injective)

theorem length_neighbourhood (b : Fin numBuckets) : (neighbourhood b).length = 2 * numSlots :=
  length_flatMap_slotsAt _

theorem length_stashSlots : stashSlots.length = numStash * numSlots := by
  rw [stashSlots, length_flatMap_slotsAt, List.length_map, List.length_finRange]

/-- No stash slot is a slot of a regular bucket. -/
theorem disjoint_stashSlots (b : Fin numBuckets) : stashSlots.Disjoint (neighbourhood b) := by
  intro pos hs hn
  obtain ⟨i, hi⟩ := mem_stashSlots.mp hs
  rcases mem_neighbourhood.mp hn with hb | hb
  · exact regular_ne_stash _ _ (hb.symm.trans hi)
  · exact regular_ne_stash _ _ (hb.symm.trans hi)

/-- What sits in a bucket or in the one after it is at home nearby. -/
theorem WF.near (h : s.WF hash) (hpos : pos ∈ neighbourhood b) (hi : s.item pos = some (k, v)) :
    Near b (homeBucket (hash k)) := by
  have hbucket := mem_neighbourhood.mp hpos
  rcases h.placed pos k v hi with ⟨hb, _⟩ | ⟨hb, _⟩ | ⟨⟨i, hb⟩, _⟩
  · rw [hb] at hbucket
    rcases hbucket with e | e
    · exact Or.inl (regular_injective e)
    · exact Or.inr (Or.inr (regular_injective e))
  · rw [hb] at hbucket
    rcases hbucket with e | e
    · exact Or.inr (Or.inl (regular_injective e))
    · exact Or.inl (nextBucket_injective (regular_injective e))
  · rw [hb] at hbucket
    rcases hbucket with e | e
    · exact absurd e.symm (regular_ne_stash _ _)
    · exact absurd e.symm (regular_ne_stash _ _)

theorem WF.exists_near (h : s.WF hash) (hb : s.Packed (regular b))
    (hnext : s.Packed (regular (nextBucket b))) (hpos : pos ∈ neighbourhood b) :
    ∃ kv, s.item pos = some kv ∧ Near b (homeBucket (hash kv.1)) := by
  have hsome : (s.item pos).isSome = true := by
    rcases mem_neighbourhood.mp hpos with e | e
    · rw [← e] at hb
      exact hb pos.slotIdx
    · rw [← e] at hnext
      exact hnext pos.slotIdx
  obtain ⟨⟨k, v⟩, hi⟩ := Option.isSome_iff_exists.mp hsome
  exact ⟨(k, v), hi, h.near hpos hi⟩

/-- Two packed buckets and one more item at home in the first are a crowd. -/
theorem WF.crowded_cons (h : s.WF hash) (hb : s.Packed (regular (homeBucket (hash k))))
    (hnext : s.Packed (regular (nextBucket (homeBucket (hash k)))))
    (hle : (k, v) ::ₘ s.contents ≤ items) : Crowded hash items (homeBucket (hash k)) := by
  have hcount := length_lt_countP (fun kv => Near (homeBucket (hash k)) (homeBucket (hash kv.1)))
    (nodup_neighbourhood _) (fun pos hpos => h.exists_near hb hnext hpos) hle (Or.inl rfl)
  rwa [length_neighbourhood] at hcount

theorem WF.crowded_stash (h : s.WF hash) (hst : s.Stacked hash) {i : StashId} {slot : Slot}
    (hi : s.item ⟨stash i, slot⟩ = some (k, v)) (hle : s.contents ≤ items) :
    Crowded hash items (homeBucket (hash k)) := by
  obtain ⟨hb, hnext⟩ := hst i slot k v hi
  have hpos : (⟨stash i, slot⟩ : SegmentPos) ∈ stashSlots := mem_stashSlots.mpr ⟨i, rfl⟩
  have hcount := length_le_countP (fun kv => Near (homeBucket (hash k)) (homeBucket (hash kv.1)))
    (l := ⟨stash i, slot⟩ :: neighbourhood (homeBucket (hash k)))
    (List.nodup_cons.mpr ⟨fun hn => disjoint_stashSlots _ hpos hn, nodup_neighbourhood _⟩) (by
      intro pos hmem
      rcases List.mem_cons.mp hmem with rfl | hmem
      · exact ⟨(k, v), hi, Or.inl rfl⟩
      · exact h.exists_near hb hnext hmem)
  rw [List.length_cons, length_neighbourhood] at hcount
  exact lt_of_lt_of_le hcount (countP_le_of_le _ hle)

/-- Where the items fit, a segment with some of them has room for one more. -/
theorem WF.hasRoom (h : s.WF hash) (hst : s.Stacked hash) (hfits : Fits hash items)
    (hle : (k, v) ::ₘ s.contents ≤ items) : s.HasRoom (hash k) := by
  by_contra hroom
  simp only [HasRoom, not_or, not_exists, Bool.not_eq_false] at hroom
  obtain ⟨hhome, hnext, hstash⟩ := hroom
  have hb := packed_of_isFull h.toBucketsWF hhome
  have hb' := packed_of_isFull h.toBucketsWF hnext
  have hcrowd : Crowded hash items (homeBucket (hash k)) := h.crowded_cons hb hb' hle
  have hrest : s.contents ≤ items := le_trans (le_cons_self _ _) hle
  have hstashed : ∀ pos ∈ stashSlots, ∃ kv, s.item pos = some kv ∧
      Crowded hash items (homeBucket (hash kv.1)) := by
    intro pos hpos
    obtain ⟨i, hi⟩ := mem_stashSlots.mp hpos
    obtain ⟨b, slot⟩ := pos
    obtain rfl : b = stash i := hi
    obtain ⟨⟨k', v'⟩, hitem⟩ := Option.isSome_iff_exists.mp
      (packed_of_isFull h.toBucketsWF (hstash i) slot)
    exact ⟨(k', v'), hitem, h.crowded_stash hst hitem hrest⟩
  rcases hfits _ hcrowd with hfew | hfew
  · have hlt := length_lt_countP (fun kv => Crowded hash items (homeBucket (hash kv.1)))
      nodup_stashSlots hstashed hle hcrowd
    rw [length_stashSlots] at hlt
    exact absurd hfew (Nat.not_le.mpr hlt)
  · have hlt := length_lt_countP (fun kv => Crowded hash items (homeBucket (hash kv.1)) ∨
      Near (homeBucket (hash k)) (homeBucket (hash kv.1)))
      (nodup_stashSlots.append (nodup_neighbourhood _) (disjoint_stashSlots _)) (by
        intro pos hpos
        rcases List.mem_append.mp hpos with hpos | hpos
        · obtain ⟨kv, hi, hc⟩ := hstashed pos hpos
          exact ⟨kv, hi, Or.inl hc⟩
        · obtain ⟨kv, hi, hc⟩ := h.exists_near hb hb' hpos
          exact ⟨kv, hi, Or.inr hc⟩) hle (Or.inl hcrowd)
    rw [List.length_append, length_stashSlots, length_neighbourhood, ← Nat.add_mul] at hlt
    exact absurd hfew (Nat.not_le.mpr hlt)

end Segment

/-! ## Rebuilding -/

namespace DashTable

open FinmapPairs Refine

variable {K V : Type} {hash : K → UInt64}

variable {t t' : DashTable K V}

theorem insertNew_cases {k : K} {v : V} {h : UInt64} (hins : t.insertNew k v h = some (.ok t')) :
    ∃ s pos,
      (t.segments (t.segId h)).insertNew k v h = some (.ok (s, pos)) ∧
        t' = { t.setSegment (t.segId h) s with size := t.size + 1 } := by
  rw [insertNew] at hins
  split at hins
  · cases hins
  · cases hins
  · rename_i s pos hs
    cases hins
    exact ⟨s, pos, hs, rfl⟩

theorem reinsert_numSegments {items : List (K × V × UInt64)} (h : reinsert t items = some t') :
    t'.numSegments = t.numSegments := by
  induction items generalizing t with
  | nil =>
    cases h
    rfl
  | cons e items ih =>
    obtain ⟨k, v, hk⟩ := e
    rw [reinsert] at h
    split at h
    · rename_i t1 hins
      obtain ⟨s, pos, _, rfl⟩ := insertNew_cases hins
      have hrest := ih h
      exact hrest
    · cases h

theorem grow_numSegments (h : grow hash t = some t') :
    t'.numSegments = t.numSegments * 2 := by
  rw [grow] at h
  split at h
  · cases h
  · exact reinsert_numSegments h

theorem reached_of_inserts [DecidableEq K] {kvs : List (K × V)} {outs : List (Option V)}
    (h : Reached hash t)
    (hrun : run (fun t (kv : K × V) => t.insert hash kv.1 kv.2) t kvs = some (t', outs)) :
    Reached hash t' := by
  induction kvs generalizing t outs with
  | nil =>
    cases hrun
    exact h
  | cons kv kvs ih =>
    obtain ⟨t1, o, os, h1, h2, _⟩ := run_cons_eq_some hrun
    exact ih (.insert h h1) h2

/-- Insert the keys, each as its own value, under the identity hash. -/
def filled (keys : List Nat) : Option (DashTable Nat Nat × List (Option Nat)) :=
  run (fun t (kv : Nat × Nat) => t.insert UInt64.ofNat kv.1 kv.2) withHasher
    (keys.map fun k => (k, k))

/-- A rebuild that returns has twice the segments and the same pairs, each found under its
key. Of the old table only the bitmaps and the size are assumed to be right. -/
theorem grow_reindexes [DecidableEq K] (hash : K → UInt64) (t t' : DashTable K V)
    (h : t.Initialised) (hsize : t.size = t.iter.length) (hkeys : (t.iter.map Prod.fst).Nodup)
    (hg : grow hash t = some t') : t'.numSegments = t.numSegments * 2 ∧ t'.iter.Perm t.iter ∧
      t'.size = t.size ∧ ∀ k v, (k, v) ∈ t.iter → t'.find hash k = some v := by
  obtain ⟨hwf, hreach, hcont⟩ := grow_spec h hg
  have hpairs : (t'.iter : Multiset (K × V)) = t.iter := by rw [hwf.iter_eq, hcont, h.iter_eq]
  have hperm : t'.iter.Perm t.iter := coe_eq_coe.mp hpairs
  obtain ⟨m, hm⟩ := exists_pairs_eq (s := (t.iter : Multiset (K × V))) (coe_nodup.mpr hkeys)
  have hrep : t'.Represents hash m := ⟨hwf, by rw [← hwf.iter_eq, hpairs, hm]⟩
  refine ⟨grow_numSegments hg, hperm, ?_, fun k v hmem => ?_⟩
  · rw [hwf.size, ← hwf.iter_eq, coe_card, hperm.length_eq, hsize]
  · rw [hrep.find_eq hreach, ← mem_pairs, hm]
    exact hmem

/-- One home bucket with all it can have: 72 items. -/
theorem grow_reindexes_oneHome : ∃ t t' : DashTable Nat Nat, t.size = 72 ∧
    grow UInt64.ofNat t = some t' ∧ t'.numSegments = 8 ∧ t'.size = 72 ∧
    ∀ k < 72, t'.find UInt64.ofNat k = some k := by
  have hrun : (filled (List.range 72)).any (fun r => r.1.numSegments == 4 &&
      decide (r.1.iter.Perm ((List.range 72).map fun k => (k, k))) &&
      (grow UInt64.ofNat r.1).isSome) = true := by decide +kernel
  obtain ⟨⟨t, outs⟩, hfilled, hrun⟩ := (Option.any_eq_true _ _).mp hrun
  simp only [Bool.and_eq_true, beq_iff_eq, decide_eq_true_eq] at hrun
  obtain ⟨⟨hnum, hperm⟩, hsome⟩ := hrun
  obtain ⟨t', hg⟩ := Option.isSome_iff_exists.mp hsome
  have hexact := (reached_of_inserts .new hfilled).exact
  have hsize : t.size = t.iter.length := by rw [hexact.size, ← hexact.iter_eq, coe_card]
  have hkeys : (t.iter.map Prod.fst).Nodup := by
    rw [(hperm.map Prod.fst).nodup_iff, List.map_map]
    exact List.nodup_range.map injective_id
  obtain ⟨hdouble, _, hsame, hfind⟩ :=
    grow_reindexes UInt64.ofNat t t' hexact.initialised hsize hkeys hg
  have h72 : t.size = 72 := by rw [hsize, hperm.length_eq, List.length_map, List.length_range]
  refine ⟨t, t', h72, hg, by rw [hdouble, hnum], by rw [hsame, h72], fun k hk => ?_⟩
  exact hfind k k (hperm.mem_iff.mpr (List.mem_map.mpr ⟨k, List.mem_range.mpr hk, rfl⟩))

/-! ## Growth that completes -/

/-- The entries among `items` that a table of `n` segments keeps in segment `sid`. -/
def share (hash : K → UInt64) (items : Multiset (K × V)) (n sid : Nat) : Multiset (K × V) :=
  items.filter fun kv => (hash kv.1 >>> 48).toNat % n = sid

/-- The entries fit segment by segment into a table of twice the segments. -/
def Roomy (hash : K → UInt64) (t : DashTable K V) : Prop :=
  ∀ sid < t.numSegments * 2,
  Fits hash (share hash (t.iter : Multiset (K × V)) (t.numSegments * 2) sid)

/-- A segment has its share of the pairs. -/
theorem WF.contents_le_share (h : t.WF hash) (k : K) (v : V) {items : Multiset (K × V)}
    (hle : (k, v) ::ₘ t.contents ≤ items) :
    (k, v) ::ₘ (t.segments (t.segId (hash k))).contents ≤
      share hash items t.numSegments (t.segId (hash k)).val := by
  rw [share, le_filter]
  constructor
  · refine le_trans (cons_le_cons _ ?_) hle
    rw [contents_eq t (t.segId (hash k))]
    exact le_add_right _ _
  · intro kv hmem
    rcases mem_cons.mp hmem with rfl | hmem
    · rfl
    · exact congrArg Fin.val (h.keys_routed _ kv hmem)

theorem reinsert_isSome (h : t.WF hash) (hst : ∀ sid, (t.segments sid).Stacked hash)
    {items : List (K × V × UInt64)} (hh : ∀ e ∈ items, e.2.2 = hash e.1) {all : Multiset (K × V)}
    (hle : unhashed items + t.contents ≤ all)
    (hfits : ∀ sid < t.numSegments, Fits hash (share hash all t.numSegments sid)) :
    (reinsert t items).isSome = true := by
  induction items generalizing t with
  | nil => rfl
  | cons e items ih =>
    obtain ⟨k, v, hk⟩ := e
    obtain rfl : hk = hash k := hh _ (List.mem_cons_self ..)
    have hcons : unhashed ((k, v, hash k) :: items) = (k, v) ::ₘ unhashed items := rfl
    rw [hcons] at hle
    have hstored : (k, v) ::ₘ t.contents ≤ all := by
      refine le_trans ?_ hle
      rw [cons_add]
      exact cons_le_cons _ (le_add_left _ _)
    have hroom := (h.segment _).hasRoom (hst _) (hfits _ (t.segId (hash k)).isLt)
      (h.contents_le_share k v hstored)
    rw [reinsert]
    rcases insertNew_spec h k v with ⟨t1, hins, hwf, _, hc⟩ | herr
    · rw [hins]
      obtain ⟨s, pos, hs, rfl⟩ := insertNew_cases hins
      refine ih hwf ?_ (fun e he => hh e (List.mem_cons_of_mem _ he)) ?_ hfits
      · exact forall_setSegment (P := fun _ s => s.Stacked hash) hst _
          ((hst _).insertNew (h.segment _).toBucketsWF hs)
      · rw [hc, add_cons, ← cons_add]
        exact hle
    · exfalso
      rw [insertNew] at herr
      split at herr
      · cases herr
      · rename_i kv hseg
        cases herr
        exact hroom.insertNew_ne k v hseg
      · cases herr

theorem Initialised.grow_isSome (h : t.Initialised) (hroom : Roomy hash t) :
    (grow hash t).isSome = true := by
  obtain ⟨items, hm, hsum, hh⟩ := mapM_segItems t.segments h (List.finRange t.numSegments)
  have hall : unhashed items.flatten = t.contents := by
    rw [unhashed_flatten, hsum, contents, Fin.sum_univ_def]
  have hle : unhashed items.flatten + (fresh (t.numSegments * 2)
      (by have := t.numSegments_pos; omega) : DashTable K V).contents ≤
        (t.iter : Multiset (K × V)) := by
    rw [contents_fresh, add_zero, hall, h.iter_eq]
  rw [grow, hm]
  exact reinsert_isSome (wf_fresh _ _) (fun _ => Segment.stacked_new hash 1) hh hle hroom

variable [DecidableEq K]

variable (hash) in
/-- The tables that growth is called on in a run: those operations lead to, and those an
insertion that has already grown its table finds full again. -/
inductive Growing : DashTable K V → Prop
  | reached {t : DashTable K V} (h : Reached hash t) : Growing t
  | again {t t' : DashTable K V} (h : Growing t) (hg : grow hash t = some t') : Growing t'

theorem Growing.initialised (h : Growing hash t) : t.Initialised := by
  induction h with
  | reached h => exact h.exact.initialised
  | again _ hg ih => exact (grow_spec ih hg).1.initialised

/-- In every run, a growth of a table whose entries fit loses no item. -/
theorem grow_returns_of_roomy (hash : K → UInt64) (t : DashTable K V) (h : Growing hash t)
    (hroom : Roomy hash t) : ∃ t', grow hash t = some t' :=
  Option.isSome_iff_exists.mp (h.initialised.grow_isSome hroom)

/-- One home bucket with all it can have: 72 items, and no room for key 72. -/
theorem grow_returns_of_roomy_oneHome : ∃ t t' : DashTable Nat Nat, Reached UInt64.ofNat t ∧
    Roomy UInt64.ofNat t ∧ ¬ (t.segments (t.segId 72)).HasRoom 72 ∧
    grow UInt64.ofNat t = some t' := by
  have hrun : (filled (List.range 72)).any (fun r =>
      r.1.size == 72 && !decide ((r.1.segments (r.1.segId 72)).HasRoom 72)) =
        true := by decide +kernel
  obtain ⟨⟨t, outs⟩, hfilled, hrun⟩ := (Option.any_eq_true _ _).mp hrun
  simp only [Bool.and_eq_true, beq_iff_eq, Bool.not_eq_true', decide_eq_false_iff_not] at hrun
  have hreached := reached_of_inserts .new hfilled
  have hlen : t.iter.length = 72 := by
    rw [← coe_card, hreached.exact.iter_eq, ← hreached.exact.size, hrun.1]
  have hroomy : Roomy UInt64.ofNat t := by
    intro sid _
    exact fits_of_card_le (le_trans (card_le_card (filter_le _ _)) (le_of_eq hlen))
  obtain ⟨t', hg⟩ := grow_returns_of_roomy UInt64.ofNat t (.reached hreached) hroomy
  exact ⟨t, t', hreached, hroomy, hrun.2, hg⟩

/-! ## Growth that loses an item -/

/-- Twelve items of bucket 1 in their home and twelve in bucket 2, those of bucket 2 in
bucket 3, then twelve of bucket 0 in their home and forty-eight in the stash. -/
def chainedKeys : List Nat :=
  (List.range 24).map (256 + ·) ++ (List.range 12).map (512 + ·) ++ List.range 60

/-- Insertion of key 60 finds its segment full, and the growth it starts loses an item: the
stash items come first and take buckets 0 and 1, so the items of bucket 1 go to the stash,
and the stash is full before those of bucket 0 are placed. -/
theorem grow_loses_item : ∃ t : DashTable Nat Nat, Reached UInt64.ofNat t ∧
    t.locate UInt64.ofNat 60 = none ∧ t.insertNew 60 60 (UInt64.ofNat 60) = some (.error (60, 60)) ∧
      grow UInt64.ofNat t = none ∧ t.insert UInt64.ofNat 60 60 = none := by
  have hrun : (filled chainedKeys).any (fun r => (r.1.locate UInt64.ofNat 60).isNone &&
      (r.1.insertNew 60 60 (UInt64.ofNat 60)).any (fun e => !e.isOk) &&
      (grow UInt64.ofNat r.1).isNone) = true := by decide +kernel
  obtain ⟨⟨t, outs⟩, hfilled, hrun⟩ := (Option.any_eq_true _ _).mp hrun
  simp only [Bool.and_eq_true, Option.isNone_iff_eq_none] at hrun
  obtain ⟨⟨hloc, hfull⟩, hgrow⟩ := hrun
  have hreached := reached_of_inserts .new hfilled
  have herr : t.insertNew 60 60 (UInt64.ofNat 60) = some (.error (60, 60)) := by
    refine (insertNew_spec hreached.exact.toWF 60 60).resolve_left ?_
    rintro ⟨t', hok, _⟩
    rw [hok] at hfull
    exact Bool.false_ne_true hfull
  refine ⟨t, hreached, hloc, herr, hgrow, ?_⟩
  rw [insert, hloc]
  simp only [herr, hgrow]

end DashTable

end ShrikeDb.Dash
