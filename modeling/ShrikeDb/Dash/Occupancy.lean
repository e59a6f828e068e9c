import Mathlib.Algebra.Order.BigOperators.Group.Finset
import ShrikeDb.Dash.Refinement
import ShrikeDb.Lib.Listing

/-! The counters of a table are exact: the size field of every bucket, the item count
of every segment and the size of the table count the busy slots, in every table that
operations lead to. They stay exact although a removal can make another item invisible
to `find`, and no counter wraps around on the way, inside the rebuilds of `grow` either. -/

namespace ShrikeDb.Dash

open Function Multiset List

/-! ## Segments -/

namespace Segment

variable {K V : Type}

/-- Number of busy slots. -/
def busySlots (s : Segment K V) : Nat :=
  (Finset.univ.filter fun p : BucketIdx × Slot => (s.buckets p.1).slots.occupied p.2 = true).card

/-- No counter that an insertion may increment wraps: the four-bit size field of a bucket
with room, the eight-bit overflow count of a regular bucket, the item count. -/
structure InsertSafe (s : Segment K V) : Prop where
  size : ∀ i, (s.buckets i).slots.isFull = false → (s.buckets i).slots.size + 1 < 2 ^ 4
  overflow : ∀ b, (s.buckets (regular b)).overflow + 1 < 2 ^ 8
  itemCount : s.itemCount + 1 < 2 ^ 64

/-- No counter that a deletion at `pos` decrements is zero. The overflow count is compared
with zero by `unsetStashPtr` itself. -/
structure DeleteSafe (s : Segment K V) (pos : SegmentPos) : Prop where
  size : 0 < (s.buckets pos.bucketIdx).slots.size
  itemCount : 0 < s.itemCount

variable {s s' : Segment K V} {pos : SegmentPos}

theorem BucketsWF.card_contents (h : s.BucketsWF) :
    card s.contents = s.busySlots := by
  have hocc : ((fun pos => (s.item pos).isSome) ∘ fun p : BucketIdx × Slot => ⟨p.1, p.2⟩) =
      fun p => (s.buckets p.1).slots.occupied p.2 :=
    funext fun p => (h.slots p.1).item_isSome p.2
  have hall : ∀ p : BucketIdx × Slot, p ∈ finRange totalBuckets ×ˢ finRange numSlots :=
    fun p => pair_mem_product.mpr ⟨mem_finRange p.1, mem_finRange p.2⟩
  have hnodup : (finRange totalBuckets ×ˢ finRange numSlots).Nodup :=
    (nodup_finRange _).product (nodup_finRange _)
  rw [contents, coe_card, List.length_filterMap_eq_countP, allPositions, List.countP_map,
    hocc]
  exact Listing.countP_eq_card hnodup hall _

theorem length_allPositions : allPositions.length = totalBuckets * numSlots := by
  rw [allPositions, length_map, length_product, length_finRange, length_finRange]

theorem card_contents_le (s : Segment K V) : card s.contents ≤ totalBuckets * numSlots := by
  rw [contents, coe_card, ← length_allPositions]
  exact length_filterMap_le _ _

theorem insertAt_itemCount {i : BucketIdx} {key : K} {value : V} {fp : UInt8} {probing : Bool}
    (h : s.insertAt i key value fp probing = some (s', pos)) : s'.itemCount = s.itemCount + 1 := by
  rw [insertAt] at h
  split at h
  · cases h
  · cases h
    rfl

theorem insertNew_itemCount {key : K} {value : V} {h : UInt64}
    (hins : s.insertNew key value h = some (.ok (s', pos))) : s'.itemCount = s.itemCount + 1 := by
  obtain ⟨_, _, _, s1, _, hat, hcount, _⟩ := insertNew_insertAt hins
  rw [hcount, insertAt_itemCount hat]

theorem delete_itemCount {h : UInt64} {k : K} {v : V} (hdel : s.delete pos h = some (s', k, v)) :
    s'.itemCount = s.itemCount - 1 := by
  simp only [delete] at hdel
  split at hdel
  · cases hdel
  · cases hdel
    split <;> rfl

/-- The item count is the number of stored pairs. -/
structure Exact (hash : K → UInt64) (s : Segment K V) : Prop extends WF hash s where
  counted : s.itemCount = card s.contents

variable {hash : K → UInt64}

variable (hash) in
theorem exact_new (d : UInt8) : (new d : Segment K V).Exact hash :=
  ⟨wf_new d, by rw [contents_new]; rfl⟩

theorem Exact.insertSafe (h : s.Exact hash) : s.InsertSafe where
  size := fun i _ => by
    have := (h.slots i).slots.size_lt
    omega
  overflow := fun b => by
    have hle := (h.bounded b).card_le
    have hrefs := card_stashRefs_le hash s b
    have hover : (s.stashMeta b).overflow = (s.buckets (regular b)).overflow := rfl
    omega
  itemCount := by
    have hle := s.card_contents_le
    rw [← h.counted] at hle
    calc s.itemCount + 1 ≤ totalBuckets * numSlots + 1 := Nat.succ_le_succ hle
      _ < 2 ^ 64 := by decide

theorem Exact.insertNew (h : s.Exact hash) {k : K} {v : V}
    (hins : s.insertNew k v (hash k) = some (.ok (s', pos))) : s'.Exact hash := by
  have hcount := insertNew_itemCount hins
  rcases insertNew_spec h.toWF k v with ⟨s1, pos1, hins1, hwf, _, hc⟩ | herr
  · rw [hins1] at hins
    cases hins
    exact ⟨hwf, by rw [hcount, h.counted, hc, card_cons]⟩
  · rw [herr] at hins
    cases hins

/-- Deletion of a stored item with the hash of its key. -/
theorem Exact.delete (h : s.Exact hash) {k : K} {v : V} (hi : s.item pos = some (k, v)) :
    s.DeleteSafe pos ∧
      ∃ s', s.delete pos (hash k) = some (s', k, v) ∧ s'.Exact hash ∧ s.Empties pos s' := by
  obtain ⟨s', hdel, hwf, he⟩ := DashTable.delete_spec h.toWF hi
  have hc := he.contents hi
  have hcount : s.itemCount = card s'.contents + 1 := by
    rw [h.counted, hc, card_cons]
  have hocc : (s.buckets pos.bucketIdx).slots.occupied pos.slotIdx = true := by
    rw [← (h.slots _).item_isSome]
    exact Option.isSome_iff_exists.mpr ⟨_, hi⟩
  refine ⟨⟨(h.slots _).slots.size_pos hocc, by omega⟩, s', hdel, ⟨hwf, ?_⟩, he⟩
  rw [delete_itemCount hdel, hcount, Nat.add_sub_cancel]

theorem Exact.setValue (h : s.Exact hash) {k : K} {v : V} (hi : s.item pos = some (k, v))
    (value : V) :
    (s.modifyBucket pos.bucketIdx fun b => b.setValue pos.slotIdx value).Exact hash ∧
      card (s.modifyBucket pos.bucketIdx fun b => b.setValue pos.slotIdx value).contents =
        card s.contents := by
  obtain ⟨hwf, _, rest, hc, hc'⟩ := setValue_spec h.toWF hi value rfl
  have hcard := congrArg card hc'
  rw [card_cons, ← card_cons (k, v), ← hc] at hcard
  exact ⟨⟨hwf, h.counted.trans hcard.symm⟩, hcard⟩

end Segment

/-! ## Tables -/

namespace DashTable

variable {K V : Type}

/-- The slots of the table can be addressed: each has at least its fingerprint byte, and an
allocation has at most `isize::MAX` bytes. -/
def Addressable (t : DashTable K V) : Prop := t.numSegments * (totalBuckets * numSlots) < 2 ^ 63

/-- An insertion into the segment of `h` neither fails on an `unwrap` nor makes a counter wrap. -/
structure InsertSafe (t : DashTable K V) (key : K) (value : V) (h : UInt64) : Prop where
  segment : (t.segments (t.segId h)).InsertSafe
  unwraps : t.insertNew key value h ≠ none
  size : t.Addressable → t.size + 1 < 2 ^ 64

/-! The counter updates of each operation, in the order the operation makes them. -/

def DrainSafe (s : Segment K V) : List (SegmentPos × UInt64) → Prop
  | [] => True
  | (pos, h) :: rest =>
    if (s.buckets pos.bucketIdx).slots.busy.getLsbD pos.slotIdx.val = false then DrainSafe s rest
    else s.DeleteSafe pos ∧ ∀ s' k v, s.delete pos h = some (s', k, v) → DrainSafe s' rest

def ReinsertSafe (t : DashTable K V) : List (K × V × UInt64) → Prop
  | [] => True
  | (k, v, h) :: rest =>
    t.InsertSafe k v h ∧ ∀ t', t.insertNew k v h = some (.ok t') → ReinsertSafe t' rest

section Hashed

variable (hash : K → UInt64)

def GrowSafe (t : DashTable K V) : Prop :=
  (∀ sid, DrainSafe (t.segments sid) ((found hash (t.segments sid)).insertionSort DescLe)) ∧
    ∀ items, ((finRange t.numSegments).mapM fun sid => segItems hash (t.segments sid)) =
      some items → ReinsertSafe
        (fresh (t.numSegments * 2) (Nat.mul_pos t.numSegments_pos Nat.two_pos)) items.flatten

def InsertNoDupSafe (t : DashTable K V) (key : K) (value : V) : Nat → Prop
  | 0 => True
  | fuel + 1 =>
    t.InsertSafe key value (hash key) ∧
      (t.insertNew key value (hash key) = some (.error (key, value)) →
        GrowSafe hash t ∧ ∀ t', grow hash t = some t' → InsertNoDupSafe t' key value fuel)

section Retain

variable {σ : Type} (pred : σ → K → V → Bool × V × σ)

def RetainLoopSafe (t : DashTable K V) (st : σ) : List (Nat × SegmentPos × UInt64) → Prop
  | [] => True
  | (sid, pos, h) :: rest => ∀ hs : sid < t.numSegments,
    let bucket := (t.segments ⟨sid, hs⟩).buckets pos.bucketIdx
    if bucket.slots.busy.getLsbD pos.slotIdx.val = false then RetainLoopSafe t st rest
    else ∀ k v, bucket.item pos.slotIdx = some (k, v) →
      let r := pred st k v
      let s := (t.segments ⟨sid, hs⟩).modifyBucket pos.bucketIdx
        fun b => b.setValue pos.slotIdx r.2.1
      if r.1 then RetainLoopSafe (t.setSegment ⟨sid, hs⟩ s) r.2.2 rest
      else s.DeleteSafe pos ∧ 0 < t.size ∧ ∀ s' k v, s.delete pos h = some (s', k, v) →
        RetainLoopSafe { t.setSegment ⟨sid, hs⟩ s' with size := t.size - 1 } r.2.2 rest

end Retain

variable [DecidableEq K]

def InsertOpSafe (t : DashTable K V) (key : K) (value : V) : Prop :=
  t.locate hash key = none → InsertNoDupSafe hash t key value 11

def RemoveSafe (t : DashTable K V) (key : K) : Prop :=
  ∀ pos, t.locate hash key = some pos →
    (t.segments (t.segId (hash key))).DeleteSafe pos ∧ 0 < t.size

end Hashed

/-! ## The invariant -/

structure Exact (hash : K → UInt64) (t : DashTable K V) : Prop extends WF hash t where
  counted : ∀ sid, (t.segments sid).itemCount = card (t.segments sid).contents

variable {hash : K → UInt64}

variable {t t' : DashTable K V} {sid : Fin t.numSegments} {s : Segment K V} {k : K} {v : V}
  {pos : SegmentPos}

theorem Exact.segmentExact (h : t.Exact hash) (sid : Fin t.numSegments) :
    (t.segments sid).Exact hash :=
  ⟨h.segment sid, h.counted sid⟩

variable (hash) in
theorem exact_fresh (n : Nat) (hn : 0 < n) : (fresh n hn : DashTable K V).Exact hash :=
  ⟨wf_fresh n hn, fun _ => (Segment.exact_new hash 1).counted⟩

theorem Exact.setSegment (h : t.Exact hash) (hs : s.Exact hash)
    (hkeys : ∀ kv ∈ s.contents, t.segId (hash kv.1) = sid) {n : Nat}
    (hn : n = card (s.contents + t.others sid)) :
    ({ t.setSegment sid s with size := n } : DashTable K V).Exact hash :=
  ⟨h.toWF.setSegment hs.toWF hkeys hn, forall_setSegment
    (P := fun _ s => s.itemCount = card s.contents) h.counted sid hs.counted⟩

theorem Exact.sum_itemCount (h : t.Exact hash) :
    t.size = ∑ sid, (t.segments sid).itemCount := by
  rw [h.size, contents, card_sum]
  exact Finset.sum_congr rfl fun sid _ => (h.counted sid).symm

theorem Exact.size_le (h : t.Exact hash) :
    t.size ≤ t.numSegments * (totalBuckets * numSlots) := by
  have hle := Finset.sum_le_card_nsmul Finset.univ (fun sid => (t.segments sid).itemCount)
    (totalBuckets * numSlots) fun sid _ => by
      rw [h.counted sid]
      exact Segment.card_contents_le _
  rw [h.sum_itemCount]
  simpa using hle

theorem Exact.insertSafe (h : t.Exact hash) (k : K) (v : V) :
    t.InsertSafe k v (hash k) where
  segment := (h.segmentExact _).insertSafe
  unwraps := by
    rcases insertNew_spec h.toWF k v with ⟨t', hins, _⟩ | herr
    · rw [hins]
      exact Option.some_ne_none _
    · rw [herr]
      exact Option.some_ne_none _
  size := fun hmem => by
    have hle := h.size_le
    rw [Addressable] at hmem
    omega

theorem Exact.insertNew (h : t.Exact hash) (hins : t.insertNew k v (hash k) = some (.ok t')) :
    t'.Exact hash := by
  rcases insertNew_spec h.toWF k v with ⟨t1, hins1, hwf, _⟩ | herr
  · rw [hins] at hins1
    cases hins1
    rw [DashTable.insertNew] at hins
    split at hins
    · cases hins
    · cases hins
    · rename_i s pos hs
      cases hins
      exact ⟨hwf, forall_setSegment (P := fun _ s => s.itemCount = card s.contents)
        h.counted _ ((h.segmentExact _).insertNew hs).counted⟩
  · rw [hins] at herr
    cases herr

/-! ## Growth -/

theorem busy_of_item (h : s.BucketsWF) {kv : K × V} (hi : s.item pos = some kv) :
    (s.buckets pos.bucketIdx).slots.busy.getLsbD pos.slotIdx.val = true :=
  ((h.slots pos.bucketIdx).item_isSome pos.slotIdx).symm.trans
    (Option.isSome_iff_exists.mpr ⟨_, hi⟩)

theorem drainSafe_of_exact (h : s.Exact hash) {l : List (SegmentPos × UInt64)}
    (hnodup : (l.map Prod.fst).Nodup)
    (hstored : ∀ e ∈ l, ∃ k v, s.item e.1 = some (k, v) ∧ e.2 = hash k) : DrainSafe s l := by
  induction l generalizing s with
  | nil => trivial
  | cons e l ih =>
    obtain ⟨pos, hh⟩ := e
    obtain ⟨k, v, hi, rfl⟩ := hstored (pos, hh) (mem_cons_self ..)
    rw [List.map_cons, List.nodup_cons] at hnodup
    obtain ⟨hsafe, s1, hdel, hexact, he⟩ := h.delete hi
    rw [DrainSafe, if_neg (by rw [busy_of_item h.toBucketsWF hi]; decide)]
    refine ⟨hsafe, fun s' k' v' hdel' => ?_⟩
    rw [hdel] at hdel'
    cases hdel'
    refine ih hexact hnodup.2 fun e hmem => ?_
    obtain ⟨k', v', hi', hh'⟩ := hstored e (mem_cons_of_mem _ hmem)
    have hne : e.1 ≠ pos := fun heq => hnodup.1 (mem_map.mpr ⟨e, hmem, heq⟩)
    exact ⟨k', v', by rw [he.item, update_of_ne hne]; exact hi', hh'⟩

theorem reinsertSafe_of_exact (h : t.Exact hash) {items : List (K × V × UInt64)}
    (hh : ∀ e ∈ items, e.2.2 = hash e.1) : ReinsertSafe t items ∧
      ∀ t', reinsert t items = some t' → t'.Exact hash := by
  induction items generalizing t with
  | nil => exact ⟨trivial, fun t' ht => by cases ht; exact h⟩
  | cons e items ih =>
    obtain ⟨k, v, hk⟩ := e
    obtain rfl : hk = hash k := hh _ (mem_cons_self ..)
    have hrest : ∀ t1, t.insertNew k v (hash k) = some (.ok t1) → _ := fun t1 hins =>
      ih (h.insertNew hins) fun e he => hh e (mem_cons_of_mem _ he)
    refine ⟨⟨h.insertSafe k v, fun t1 hins => (hrest t1 hins).1⟩, fun t' hrun => ?_⟩
    rw [reinsert] at hrun
    split at hrun
    · rename_i t1 hins
      exact (hrest t1 hins).2 t' hrun
    · cases hrun

theorem growSafe_of_exact (h : t.Exact hash) : GrowSafe hash t ∧
    ∀ t', grow hash t = some t' → t'.Exact hash := by
  obtain ⟨items, hm, _, hh⟩ := mapM_segItems t.segments h.initialised (finRange t.numSegments)
  have hre := reinsertSafe_of_exact
    (exact_fresh hash (t.numSegments * 2) (by have := t.numSegments_pos; omega)) hh
  refine ⟨⟨fun sid => ?_, fun items' hm' => ?_⟩, fun t' hg => ?_⟩
  · exact drainSafe_of_exact (h.segmentExact sid) (nodup_sorted_found (h.initialised sid))
      fun e he => (mem_sorted_found (h.initialised sid)).mp he
  · rw [hm] at hm'
    cases hm'
    exact hre.1
  · rw [grow, hm] at hg
    exact hre.2 t' hg

theorem insertNoDupSafe_of_exact (h : t.Exact hash) (k : K) (v : V) (fuel : Nat) :
    InsertNoDupSafe hash t k v fuel ∧ ∀ t', insertNoDup hash t k v fuel = some t' →
    t'.Exact hash := by
  induction fuel generalizing t with
  | zero => exact ⟨trivial, fun t' ht => by cases ht⟩
  | succ fuel ih =>
    obtain ⟨hsafe, hgrown⟩ := growSafe_of_exact h
    refine ⟨⟨h.insertSafe k v, fun _ => ⟨hsafe, fun t1 hg => (ih (hgrown t1 hg)).1⟩⟩,
      fun t' hrun => ?_⟩
    rw [insertNoDup] at hrun
    split at hrun
    · cases hrun
    · rename_i t1 hins
      cases hrun
      exact h.insertNew hins
    · split at hrun
      · cases hrun
      · rename_i t1 hg
        exact (ih (hgrown t1 hg)).2 t' hrun

/-! ## Deletion in a table -/

theorem Exact.size_eq (h : t.Exact hash) (sid : Fin t.numSegments) :
    t.size = card (t.segments sid).contents + card (t.others sid) := by
  rw [h.size, contents_eq t sid, card_add]

theorem Exact.setValue (h : t.Exact hash) (hi : (t.segments sid).item pos = some (k, v))
    (value : V) : (t.setValue sid pos value).Exact hash := by
  obtain ⟨hs, hcard⟩ := (h.segmentExact sid).setValue hi value
  refine h.setSegment hs ?_ (by rw [card_add, hcard]; exact h.size_eq sid)
  intro kv hmem
  obtain ⟨p, hp⟩ := Segment.mem_contents.mp hmem
  rw [Segment.setValue_item (h.segment sid).toBucketsWF hi] at hp
  by_cases e : p = pos
  · subst e
    rw [update_self] at hp
    cases hp
    exact h.routed sid p k v hi
  · rw [update_of_ne e] at hp
    exact h.routed sid p kv.1 kv.2 hp

/-- Deletion of a stored item with the hash of its key. -/
theorem Exact.delete (h : t.Exact hash) (hi : (t.segments sid).item pos = some (k, v)) :
    (t.segments sid).DeleteSafe pos ∧ 0 < t.size ∧
      ∃ s', (t.segments sid).delete pos (hash k) = some (s', k, v) ∧
        ({ t.setSegment sid s' with size := t.size - 1 } : DashTable K V).Exact hash ∧
        (t.segments sid).Empties pos s' := by
  obtain ⟨hsafe, s', hdel, hs, he⟩ := (h.segmentExact sid).delete hi
  have hc := he.contents hi
  have hsize := h.size_eq sid
  rw [hc, card_cons] at hsize
  refine ⟨hsafe, by omega, s', hdel, h.setSegment hs (fun kv hmem => ?_) ?_, he⟩
  · exact h.keys_routed sid kv (by rw [hc]; exact mem_cons_of_mem hmem)
  · rw [card_add]
    omega

/-! ## Selective removal -/

/-- The listed position holds a key with the listed hash. -/
def Holds (hash : K → UInt64) (t : DashTable K V) (e : Nat × SegmentPos × UInt64) : Prop :=
  ∃ (hs : e.1 < t.numSegments) (k : K) (v : V),
    (t.segments ⟨e.1, hs⟩).item e.2.1 = some (k, v) ∧ e.2.2 = hash k

theorem hashedItems_eq (t : DashTable K V) : t.hashedItems hash =
    (finRange t.numSegments).flatMap fun sid =>
      (found hash (t.segments sid)).map fun e => (sid.val, e) := by
  simp only [hashedItems, found, List.map_filterMap, Option.map_map]
  rfl

theorem holds_hashedItems (h : t.WF hash) :
    ∀ e ∈ t.hashedItems hash, Holds hash t e := by
  intro e hmem
  rw [hashedItems_eq, mem_flatMap] at hmem
  obtain ⟨sid, _, hmem⟩ := hmem
  obtain ⟨e', hmem', rfl⟩ := mem_map.mp hmem
  exact ⟨sid.isLt, (mem_found (h.initialised sid)).mp hmem'⟩

theorem nodup_hashedItems (h : t.WF hash) :
    ((t.hashedItems hash).map fun e => (e.1, e.2.1)).Nodup := by
  rw [hashedItems_eq, map_flatMap, nodup_flatMap]
  constructor
  · intro sid _
    have hpair : ((found hash (t.segments sid)).map fun e => (sid.val, e)).map
        (fun e => (e.1, e.2.1)) =
        ((found hash (t.segments sid)).map Prod.fst).map (Prod.mk sid.val) := by
      simp only [List.map_map]
      rfl
    rw [hpair]
    exact (nodup_found (h.initialised sid)).map (Prod.mk_right_injective _)
  · refine (nodup_finRange _).imp fun {a b} hne e ha hb => hne ?_
    obtain ⟨x, hx, rfl⟩ := mem_map.mp ha
    obtain ⟨y, hy, heq⟩ := mem_map.mp hb
    obtain ⟨_, _, rfl⟩ := mem_map.mp hx
    obtain ⟨_, _, rfl⟩ := mem_map.mp hy
    exact Fin.ext (Prod.mk.inj heq).1.symm

/-- Replacing the item of a segment at one position leaves the other listed positions alone. -/
theorem Holds.setSegment {e : Nat × SegmentPos × UInt64} (h : Holds hash t e) {sid : Nat}
    {hs : sid < t.numSegments} {o : Option (K × V)}
    (hitem : s.item = update (t.segments ⟨sid, hs⟩).item pos o) (hne : (e.1, e.2.1) ≠ (sid, pos))
    (n : Nat) : Holds hash { t.setSegment ⟨sid, hs⟩ s with size := n } e := by
  obtain ⟨hs', k, v, hi, hh⟩ := h
  refine ⟨hs', k, v, ?_, hh⟩
  simp only [DashTable.setSegment]
  by_cases heq : (⟨e.1, hs'⟩ : Fin t.numSegments) = ⟨sid, hs⟩
  · have hpos : e.2.1 ≠ pos := fun hp => hne (Prod.ext (Fin.mk.inj heq) hp)
    rw [heq] at hi
    rw [heq, update_self, hitem, update_of_ne hpos]
    exact hi
  · rw [update_of_ne heq]
    exact hi

/-- What `retain` does to a rejected item: the value is written, then the item deleted. -/
theorem Exact.reject (h : t.Exact hash) (hi : (t.segments sid).item pos = some (k, v)) (v' : V) :
    ((t.segments sid).modifyBucket pos.bucketIdx fun b => b.setValue pos.slotIdx v').DeleteSafe
      pos ∧ 0 < t.size ∧ ∃ s', ((t.segments sid).modifyBucket pos.bucketIdx fun b =>
          b.setValue pos.slotIdx v').delete pos (hash k) = some (s', k, v') ∧
        ({ t.setSegment sid s' with size := t.size - 1 } : DashTable K V).Exact hash ∧
        s'.item = update (t.segments sid).item pos none := by
  have hitem := Segment.setValue_item (h.segment sid).toBucketsWF hi v'
  have hseg : (t.setValue sid pos v').segments sid = (t.segments sid).modifyBucket
      pos.bucketIdx fun b => b.setValue pos.slotIdx v' := update_self ..
  have hat : ((t.setValue sid pos v').segments sid).item pos = some (k, v') := by
    rw [hseg, hitem, update_self]
  obtain ⟨hdsafe, hpos, s', hdel, hexact, he⟩ := (h.setValue hi v').delete hat
  rw [hseg] at hdsafe hdel he
  have hset : ({ (t.setValue sid pos v').setSegment sid s' with
      size := (t.setValue sid pos v').size - 1 } : DashTable K V) =
      { t.setSegment sid s' with size := t.size - 1 } := by
    simp only [DashTable.setValue, DashTable.setSegment, update_idem]
  rw [hset] at hexact
  exact ⟨hdsafe, hpos, s', hdel, hexact, by rw [he.item, hitem, update_idem]⟩

section Retain

variable {σ : Type} (pred : σ → K → V → Bool × V × σ)

theorem retainLoop_spec {t : DashTable K V} (h : t.Exact hash) (st : σ) (removed : Nat)
    {l : List (Nat × SegmentPos × UInt64)} (hnodup : (l.map fun e => (e.1, e.2.1)).Nodup)
    (hstored : ∀ e ∈ l, Holds hash t e) : RetainLoopSafe pred t st l ∧
      ∃ t' r, retainLoop pred t st removed l = some (t', r) ∧ t'.Exact hash := by
  induction l generalizing t st removed with
  | nil => exact ⟨trivial, t, (removed, st), rfl, h⟩
  | cons e l ih =>
    obtain ⟨sid, pos, hh⟩ := e
    obtain ⟨hs, k, v, hi, rfl⟩ := hstored _ (mem_cons_self ..)
    rw [List.map_cons, List.nodup_cons] at hnodup
    have hbusy := busy_of_item (h.segment ⟨sid, hs⟩).toBucketsWF hi
    have hi' : ((t.segments ⟨sid, hs⟩).buckets pos.bucketIdx).item pos.slotIdx = some (k, v) := hi
    rcases hp : pred st k v with ⟨keep, v', st'⟩
    -- the table after the predicate has written the value
    have hwritten := h.setValue hi v'
    have hitem := Segment.setValue_item (h.segment ⟨sid, hs⟩).toBucketsWF hi v'
    have hrest : ∀ e ∈ l, (e.1, e.2.1) ≠ (sid, pos) := fun e hmem heq =>
      hnodup.1 (mem_map.mpr ⟨e, hmem, heq⟩)
    cases keep with
    | true =>
      obtain ⟨hsafe, hrun⟩ := ih hwritten st' removed hnodup.2 fun e hmem =>
        (hstored e (mem_cons_of_mem _ hmem)).setSegment hitem (hrest e hmem) t.size
      constructor
      · intro hs'
        simp only [hbusy, hi', Bool.true_eq_false, if_false]
        intro k1 v1 h1
        cases h1
        simp only [hp, if_true]
        exact hsafe
      · simp only [retainLoop, hs, dif_pos, hbusy, hi', hp, Bool.true_eq_false, if_false, if_true]
        exact hrun
    | false =>
      obtain ⟨hdsafe, hpos, s', hdel, hexact, hitem'⟩ := h.reject hi v'
      obtain ⟨hsafe, hrun⟩ := ih hexact st' (removed + 1) hnodup.2 fun e hmem =>
        (hstored e (mem_cons_of_mem _ hmem)).setSegment hitem' (hrest e hmem) (t.size - 1)
      constructor
      · intro hs'
        simp only [hbusy, hi', Bool.true_eq_false, if_false]
        intro k1 v1 h1
        cases h1
        simp only [hp, Bool.false_eq_true, if_false]
        refine ⟨hdsafe, hpos, fun s1 k1 v1 hdel1 => ?_⟩
        rw [hdel] at hdel1
        cases hdel1
        exact hsafe
      · simp only [retainLoop, hs, dif_pos, hbusy, hi', hp, Bool.true_eq_false, Bool.false_eq_true,
          if_false, hdel]
        exact hrun

theorem retain_spec {t : DashTable K V} (h : t.Exact hash) (st : σ) :
    RetainLoopSafe pred t st (t.hashedItems hash).reverse ∧
      ∃ t' n, retain hash pred t st = some (t', n) ∧ t'.Exact hash := by
  have hnodup : ((t.hashedItems hash).reverse.map fun e => (e.1, e.2.1)).Nodup := by
    rw [map_reverse, nodup_reverse]
    exact nodup_hashedItems h.toWF
  obtain ⟨hsafe, t', r, hrun, hexact⟩ := retainLoop_spec pred h st 0 hnodup fun e hmem =>
    holds_hashedItems h.toWF e (mem_reverse.mp hmem)
  exact ⟨hsafe, t', r.1, by rw [retain, hrun]; rfl, hexact⟩

end Retain

/-! ## Runs -/

variable [DecidableEq K]

theorem Exact.item_of_locate (h : t.Exact hash) (hloc : t.locate hash k = some pos) :
    ∃ v, (t.segments (t.segId (hash k))).item pos = some (k, v) := by
  obtain ⟨⟨k', v, hi, heq⟩, _⟩ := Segment.find_some (h.segment _).toBucketsWF hloc
  obtain rfl : k' = k := beq_iff_eq.mp heq
  exact ⟨v, hi⟩

variable {old : Option V}

/-- Insertion of an absent key is a first insertion that may be followed by ten more. -/
theorem insert_of_absent (hloc : t.locate hash k = none)
    (hins : t.insert hash k v = some (t', old)) : insertNoDup hash t k v 11 = some t' := by
  rw [insert, hloc] at hins
  rw [insertNoDup]
  simp only at hins
  split at hins
  · cases hins
  · cases hins
    rfl
  · split at hins
    · cases hins
    · obtain ⟨t1, hrun, heq⟩ := Option.map_eq_some_iff.mp hins
      cases heq
      exact hrun

theorem Exact.insert (h : t.Exact hash) (hins : t.insert hash k v = some (t', old)) :
    t'.Exact hash := by
  cases hloc : t.locate hash k with
  | none => exact (insertNoDupSafe_of_exact h k v 11).2 t' (insert_of_absent hloc hins)
  | some pos =>
    obtain ⟨v0, hi⟩ := h.item_of_locate hloc
    rw [DashTable.insert, hloc] at hins
    cases hins
    exact h.setValue hi v

theorem Exact.remove (h : t.Exact hash) (hrem : t.remove hash k = some (t', old)) :
    t'.Exact hash := by
  rw [DashTable.remove] at hrem
  split at hrem
  · cases hrem
    exact h
  · rename_i pos hloc
    obtain ⟨v, hi⟩ := h.item_of_locate hloc
    obtain ⟨_, _, s', hdel, hexact, _⟩ := h.delete hi
    rw [hdel] at hrem
    cases hrem
    exact hexact

theorem Exact.removeSafe (h : t.Exact hash) (k : K) : RemoveSafe hash t k := by
  intro pos hloc
  obtain ⟨v, hi⟩ := h.item_of_locate hloc
  obtain ⟨hsafe, hpos, _⟩ := h.delete hi
  exact ⟨hsafe, hpos⟩

/-- The tables that runs of operations lead to. A run ends at a panic. -/
inductive Reached (hash : K → UInt64) : DashTable K V → Prop
  | new : Reached hash withHasher
  | insert {t t' : DashTable K V} {k : K} {v : V} {old : Option V} (h : Reached hash t)
      (hins : t.insert hash k v = some (t', old)) : Reached hash t'
  | remove {t t' : DashTable K V} {k : K} {old : Option V} (h : Reached hash t)
      (hrem : t.remove hash k = some (t', old)) : Reached hash t'
  | retain {t t' : DashTable K V} {σ : Type} {pred : σ → K → V → Bool × V × σ} {st : σ} {n : Nat}
      (h : Reached hash t) (hret : t.retain hash pred st = some (t', n)) : Reached hash t'
  | clear {t : DashTable K V} (h : Reached hash t) : Reached hash t.clear

theorem Reached.exact (h : Reached hash t) : t.Exact hash := by
  induction h with
  | new => exact exact_fresh hash _ _
  | insert _ hins ih => exact ih.insert hins
  | remove _ hrem ih => exact ih.remove hrem
  | retain _ hret ih =>
    obtain ⟨_, t1, n1, hrun, hexact⟩ := retain_spec _ ih _
    rw [hrun] at hret
    cases hret
    exact hexact
  | clear _ _ => exact exact_fresh hash _ _

/-- No counter update of any operation on `t`, with the growths it causes, wraps around,
and no insertion fails on an `unwrap`. -/
structure NextSafe (hash : K → UInt64) (t : DashTable K V) : Prop where
  insert : ∀ k v, InsertOpSafe hash t k v
  remove : ∀ k, RemoveSafe hash t k
  retain : ∀ (σ : Type) (pred : σ → K → V → Bool × V × σ) (st : σ),
    RetainLoopSafe pred t st (t.hashedItems hash).reverse

theorem Exact.nextSafe (h : t.Exact hash) : NextSafe hash t where
  insert := fun k v _ => (insertNoDupSafe_of_exact h k v 11).1
  remove := h.removeSafe
  retain := fun _ pred st => (retain_spec pred h st).1

/-- In every table a run leads to, the bitmaps are well formed, a bucket is full exactly when
it has no free slot, every counter is the number of busy slots it stands for, and no
operation makes one wrap. -/
theorem occupancy_exact (hash : K → UInt64) (t : DashTable K V) (h : Reached hash t) :
    (∀ sid i, ((t.segments sid).buckets i).slots.WF ∧
      (((t.segments sid).buckets i).slots.isFull = true ↔
        ((t.segments sid).buckets i).slots.findEmpty = none)) ∧
      (∀ sid, (t.segments sid).itemCount = (t.segments sid).busySlots) ∧
      t.size = ∑ sid, (t.segments sid).itemCount ∧ t.size = t.iter.length ∧
      NextSafe hash t := by
  have hexact := h.exact
  refine ⟨fun sid i => ?_, fun sid => ?_, hexact.sum_itemCount, ?_, hexact.nextSafe⟩
  · have hwf := ((hexact.segment sid).slots i).slots
    exact ⟨hwf, hwf.isFull_iff_findEmpty⟩
  · rw [hexact.counted sid, (hexact.segment sid).toBucketsWF.card_contents]
  · rw [hexact.size, ← hexact.iter_eq, coe_card]

theorem occupancy_exact_removed : ∃ t : DashTable Nat Nat, Reached UInt64.ofNat t ∧
    t.size = 1 ∧ t.iter.length = 1 ∧ NextSafe UInt64.ofNat t := by
  have hrun : ((((withHasher : DashTable Nat Nat).insert UInt64.ofNat 1 10).bind fun r =>
      r.1.insert UInt64.ofNat 2 20).bind fun r => r.1.remove UInt64.ofNat 1).map
      (fun r => r.1.size) = some 1 := by decide
  obtain ⟨⟨t, old⟩, hrun, hsize⟩ := Option.map_eq_some_iff.mp hrun
  obtain ⟨⟨t2, old2⟩, hrun, hrem⟩ := Option.bind_eq_some_iff.mp hrun
  obtain ⟨⟨t1, old1⟩, hins, hins2⟩ := Option.bind_eq_some_iff.mp hrun
  have hreached := ((Reached.new.insert hins).insert hins2).remove hrem
  obtain ⟨_, _, _, hlen, hsafe⟩ := occupancy_exact UInt64.ofNat t hreached
  exact ⟨t, hreached, hsize, hlen.symm.trans hsize, hsafe⟩

end DashTable

end ShrikeDb.Dash
