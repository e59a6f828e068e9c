import ShrikeDb.Dash.Placement

/-! The invariant of a segment and its preservation by insertion, deletion and
value writes. Insertion keeps every item visible to `find`; deletion keeps the
invariant, and what it does to the metadata of the two buckets it touches is
stated exactly, because that is where other items can become invisible. -/

namespace ShrikeDb.Dash

open Function

/-- Where an item with this hash may sit, and with which tag. -/
def Placed (hash : UInt64) (i : BucketIdx) (tag : UInt8 × Bool) : Prop :=
  (i = regular (homeBucket hash) ∧ tag = (fingerprint hash, false)) ∨
  (i = regular (nextBucket (homeBucket hash)) ∧ tag = (fingerprint hash, true)) ∨
  ((∃ j, i = stash j) ∧ tag = (fingerprint hash, false))

namespace Segment

variable {K V : Type}

/-! ## One position changes -/

/-- `s'` is `s` with a pair written to a free position. -/
structure Fills (s : Segment K V) (pos : SegmentPos) (kv : K × V) (tag : UInt8 × Bool)
    (s' : Segment K V) : Prop where
  wf : s'.BucketsWF
  free : s.item pos = none
  item : s'.item = update s.item pos (some kv)
  tag : s'.tag = update s.tag pos tag

variable {i : BucketIdx} {b : Bucket K V} {s : Segment K V}

/-- A bucket that changes in one slot is a segment that changes in one position. -/
theorem view_update {α : Type} (view : Bucket K V → Slot → α) (buckets : BucketIdx → Bucket K V)
    {slot : Slot} {x : α} (hb : view b = update (view (buckets i)) slot x) :
    (fun pos : SegmentPos => view (update buckets i b pos.bucketIdx) pos.slotIdx) =
      update (fun pos : SegmentPos => view (buckets pos.bucketIdx) pos.slotIdx) ⟨i, slot⟩ x := by
  funext ⟨i', slot'⟩
  by_cases e : i' = i
  · subst e
    by_cases e' : slot' = slot
    · subst e'
      simp [hb]
    · have hne : (⟨i', slot'⟩ : SegmentPos) ≠ ⟨i', slot⟩ := fun h => e' (SegmentPos.mk.inj h).2
      simp [hb, e', hne]
  · have hne : (⟨i', slot'⟩ : SegmentPos) ≠ ⟨i, slot⟩ := fun h => e (SegmentPos.mk.inj h).1
    simp [e, hne]

/-- A property of every bucket survives the change of one. -/
theorem forall_update {P : Bucket K V → Prop} {buckets : BucketIdx → Bucket K V}
    (h : ∀ i, P (buckets i)) (i : BucketIdx) (hb : P b) (j : BucketIdx) :
    P (update buckets i b j) := by
  by_cases e : j = i
  · subst e
    simpa using hb
  · simpa [e] using h j

theorem stashMeta_update (s : Segment K V) (hb : b.stashMeta = (s.buckets i).stashMeta)
    (home : Fin numBuckets) :
    (update s.buckets i b (regular home)).stashMeta = s.stashMeta home := by
  by_cases e : regular home = i
  · subst e
    simpa [Segment.stashMeta] using hb
  · simp [Segment.stashMeta, e]

theorem insertAt_spec (h : s.BucketsWF) (hf : (s.buckets i).slots.isFull = false) (key : K)
    (value : V) (fp : UInt8) (probing : Bool) :
    ∃ s' slot, s.insertAt i key value fp probing = some (s', ⟨i, slot⟩) ∧
      s.Fills ⟨i, slot⟩ (key, value) (fp, probing) s' ∧ s'.stashMeta = s.stashMeta := by
  obtain ⟨slot, hfree, hins⟩ := (h.slots i).tryInsert hf key value fp probing
  obtain ⟨hwf, hitem, hprobe⟩ := (h.slots i).place hfree key value fp probing
  have hst := h.stash i
  have htag : ((s.buckets i).place slot key value fp probing).tag =
      update (s.buckets i).tag slot (fp, probing) := by
    funext j
    rw [Bucket.tag, hprobe]
    by_cases e : j = slot
    · subst e
      simp [Bucket.place]
    · simp [Bucket.tag, Bucket.place, e]
  refine ⟨_, slot, by rw [insertAt, hins], ⟨⟨forall_update h.slots i hwf, ?_⟩, ?_, ?_, ?_⟩, ?_⟩
  · exact forall_update h.stash i ⟨hst.flag, hst.owned⟩
  · exact (h.slots i).item_eq_none.mpr hfree
  · exact view_update Bucket.item s.buckets hitem
  · exact view_update Bucket.tag s.buckets htag
  · exact funext (stashMeta_update s rfl)

theorem item_modifyBucket (s : Segment K V) {f : Bucket K V → Bucket K V}
    (hsame : Bucket.SameSlots (s.buckets i) (f (s.buckets i))) :
    (s.modifyBucket i f).item = s.item := by
  funext ⟨j, slot⟩
  by_cases e : j = i
  · subst e
    simp [Segment.item, modifyBucket, hsame.item]
  · simp [Segment.item, modifyBucket, e]

/-- A change of one bucket's stash metadata moves no item. -/
theorem modifyBucket_spec (h : s.BucketsWF) {b : Fin numBuckets} {f : Bucket K V → Bucket K V}
    (hsame : Bucket.SameSlots (s.buckets (regular b)) (f (s.buckets (regular b))))
    (hst : (f (s.buckets (regular b))).StashWF) :
    (s.modifyBucket (regular b) f).BucketsWF ∧ (s.modifyBucket (regular b) f).item = s.item ∧
      (s.modifyBucket (regular b) f).tag = s.tag ∧ (s.modifyBucket (regular b) f).stashMeta =
        update s.stashMeta b (f (s.buckets (regular b))).stashMeta := by
  refine ⟨⟨forall_update h.slots _ (hsame.wf (h.slots _)), forall_update h.stash _ hst⟩,
    item_modifyBucket s hsame, ?_, ?_⟩
  · funext ⟨i, slot⟩
    by_cases e : i = regular b
    · subst e
      simp [Segment.tag, Bucket.tag, modifyBucket, hsame.slots, hsame.fingerprints]
    · simp [Segment.tag, modifyBucket, e]
  · funext b'
    by_cases e : b' = b
    · subst e
      simp [Segment.stashMeta, modifyBucket]
    · have hne : regular b' ≠ regular b := fun h => e (regular_injective h)
      simp [Segment.stashMeta, modifyBucket, e, hne]

theorem contents_fill {f g : SegmentPos → Option (K × V)} (pos : SegmentPos) {kv : K × V}
    (hfree : f pos = none) (hg : g = update f pos (some kv)) :
    ((allPositions.filterMap g : List _) : Multiset (K × V)) = kv ::ₘ
    (allPositions.filterMap f : List _) := by
  subst hg
  refine Multiset.coe_eq_coe.mpr (IndexedLists.filterMap_perm_cons nodup_allPositions
    (mem_allPositions pos) (fun j _ e => ?_) hfree ?_)
  · simp [e]
  · simp

theorem Fills.contents {s' : Segment K V} {pos : SegmentPos} {kv : K × V} {tag : UInt8 × Bool}
    (h : s.Fills pos kv tag s') : s'.contents = kv ::ₘ s.contents :=
  contents_fill pos h.free h.item

/-! ## The invariant -/

section Hashed

variable (hash : K → UInt64)

/-- The reference that home bucket `b` should hold for an item of stash bucket `i`. -/
def refOf (b : Fin numBuckets) (i : StashId) : Option (K × V) → Option StashRef
  | some (k, _) => if homeBucket (hash k) = b then some (fingerprint (hash k), i) else none
  | none => none

/-- The references of all stash items whose home bucket is `b`. -/
def stashRefs (s : Segment K V) (b : Fin numBuckets) : Multiset StashRef :=
  ((List.finRange numStash ×ˢ List.finRange numSlots).filterMap fun p =>
    refOf hash b p.1 (s.item ⟨stash p.1, p.2⟩) : List _)

structure WF (s : Segment K V) : Prop extends BucketsWF s where
  placed : ∀ pos k v, s.item pos = some (k, v) → Placed (hash k) pos.bucketIdx (s.tag pos)
  bounded : ∀ b, (s.stashMeta b).Bounded (s.stashRefs hash b)

/-- Every stash item is recorded in its home bucket. -/
def Reachable (s : Segment K V) : Prop :=
  ∀ b, ∀ r ∈ s.stashRefs hash b, (s.stashMeta b).Covers r

variable {hash}

/-- A reference depends on the key only. -/
theorem refOf_congr (b : Fin numBuckets) (i : StashId) {x y : Option (K × V)}
    (h : x.map Prod.fst = y.map Prod.fst) : refOf hash b i x = refOf hash b i y := by
  rcases x with _ | ⟨k, v⟩ <;> rcases y with _ | ⟨k', v'⟩
  · rfl
  · cases h
  · cases h
  · cases h
    rfl

variable {s s' : Segment K V} {b : Fin numBuckets} {i : StashId} {k : K} {v : V} {pos : SegmentPos}
  {slot : Slot}

theorem mem_stashRefs {r : StashRef} :
    r ∈ s.stashRefs hash b ↔ ∃ slot k v, s.item ⟨stash r.2, slot⟩ = some (k, v) ∧
      homeBucket (hash k) = b ∧ fingerprint (hash k) = r.1 := by
  simp only [stashRefs, Multiset.mem_coe, List.mem_filterMap]
  constructor
  · rintro ⟨⟨i, slot⟩, _, hr⟩
    cases hi : s.item ⟨stash i, slot⟩ with
    | none => simp [hi, refOf] at hr
    | some kv =>
      simp only [hi, refOf] at hr
      split at hr
      · rename_i hb
        cases hr
        exact ⟨slot, kv.1, kv.2, hi, hb, rfl⟩
      · cases hr
  · rintro ⟨slot, k, v, hi, hb, hfp⟩
    refine ⟨(r.2, slot), by simp, ?_⟩
    simp [hi, refOf, hb, hfp]

variable (hash) in
theorem card_stashRefs_le (s : Segment K V) (b : Fin numBuckets) :
    Multiset.card (s.stashRefs hash b) ≤ 48 := by
  rw [stashRefs, Multiset.coe_card]
  refine (List.length_filterMap_le _ _).trans ?_
  rw [List.length_product, List.length_finRange, List.length_finRange]
  decide

theorem stashRefs_congr (h : ∀ i slot, s'.item ⟨stash i, slot⟩ = s.item ⟨stash i, slot⟩)
    (b : Fin numBuckets) : s'.stashRefs hash b = s.stashRefs hash b := by
  simp only [stashRefs, h]

/-- A pair that moves into a free stash slot adds its reference at its home only. -/
theorem stashRefs_fill (slot : Slot) (hfree : s.item ⟨stash i, slot⟩ = none)
    (hitem : s'.item = update s.item ⟨stash i, slot⟩ (some (k, v))) (b : Fin numBuckets) :
    s'.stashRefs hash b = if homeBucket (hash k) =
    b then (fingerprint (hash k), i) ::ₘ s.stashRefs hash b
      else s.stashRefs hash b := by
  have hother : ∀ p : StashId × Slot, p ≠ (i, slot) →
      s'.item ⟨stash p.1, p.2⟩ = s.item ⟨stash p.1, p.2⟩ := by
    rintro ⟨i', slot'⟩ e
    have hne : (⟨stash i', slot'⟩ : SegmentPos) ≠ ⟨stash i, slot⟩ := by
      intro h
      obtain ⟨h1, h2⟩ := SegmentPos.mk.inj h
      exact e (Prod.ext (stash_injective h1) h2)
    rw [hitem, update_of_ne hne]
  have hself : s'.item ⟨stash i, slot⟩ = some (k, v) := by rw [hitem, update_self]
  split
  · rename_i hb
    refine Multiset.coe_eq_coe.mpr (IndexedLists.filterMap_perm_cons (i := (i, slot))
      ((List.nodup_finRange _).product (List.nodup_finRange _)) (by simp) (fun p _ e => ?_) ?_ ?_)
    · simp only [hother p e]
    · simp [hfree, refOf]
    · simp [hself, refOf, hb]
  · rename_i hb
    simp only [stashRefs]
    congr 2
    funext p
    by_cases e : p = (i, slot)
    · subst e
      simp [hself, hfree, refOf, hb]
    · rw [hother p e]

theorem wf_new (d : UInt8) : (new d : Segment K V).WF hash where
  toBucketsWF := bucketsWF_new d
  placed := by
    intro pos k v h
    simp [Segment.item, new, Bucket.new, Bucket.item] at h
  bounded := by
    intro b
    have hz : (new d : Segment K V).stashMeta b = ⟨0, 0⟩ := by
      have hr : (Bucket.new : Bucket K V).refs = 0 := by simp [Bucket.refs, Bucket.ptr, Bucket.new]
      exact StashMeta.ext hr rfl
    rw [hz]
    exact ⟨Multiset.zero_le _, Nat.zero_le _⟩

theorem reachable_new (d : UInt8) : (new d : Segment K V).Reachable hash := by
  intro b r hr
  obtain ⟨slot, k, v, hi, _⟩ := mem_stashRefs.mp hr
  simp [Segment.item, new, Bucket.new, Bucket.item] at hi

/-! ## Insertion -/

theorem Fills.placed (h : s.WF hash) {tag : UInt8 × Bool} (hfill : s.Fills pos (k, v) tag s')
    (hp : Placed (hash k) pos.bucketIdx tag) :
    ∀ pos' k' v', s'.item pos' = some (k', v') → Placed (hash k') pos'.bucketIdx (s'.tag pos') := by
  intro pos' k' v' hi
  rw [hfill.item] at hi
  rw [hfill.tag]
  by_cases e : pos' = pos
  · subst e
    rw [update_self] at hi ⊢
    cases hi
    exact hp
  · rw [update_of_ne e] at hi ⊢
    exact h.placed _ _ _ hi

/-- Insertion into a regular bucket touches no stash item and no metadata. -/
theorem Fills.regular (h : s.WF hash) {tag : UInt8 × Bool}
    (hfill : s.Fills ⟨regular b, slot⟩ (k, v) tag s') (hp : Placed (hash k) (Dash.regular b) tag)
    (hm : s'.stashMeta = s.stashMeta) : s'.WF hash ∧ (s.Reachable hash → s'.Reachable hash) := by
  have hrefs : ∀ b', s'.stashRefs hash b' = s.stashRefs hash b' := by
    apply stashRefs_congr
    intro i slot'
    rw [hfill.item, update_of_ne]
    intro e
    exact regular_ne_stash b i (SegmentPos.mk.inj e).1.symm
  refine ⟨⟨hfill.wf, hfill.placed h hp, ?_⟩, ?_⟩
  · intro b'
    rw [hm, hrefs]
    exact h.bounded b'
  · intro hr b' r hmem
    rw [hrefs] at hmem
    rw [hm]
    exact hr b' r hmem

/-- Insertion into a stash bucket followed by the note in the home bucket. -/
theorem Fills.stash (h : s.WF hash)
    (hfill : s.Fills ⟨stash i, slot⟩ (k, v) (fingerprint (hash k), false) s')
    (hm : s'.stashMeta = s.stashMeta) {s'' : Segment K V}
    (hs'' : s'' = s'.modifyBucket (Dash.regular (homeBucket (hash k))) fun b =>
      b.setStashPtr (BitVec.ofNat 8 i.val) (fingerprint (hash k)) false) :
    s''.WF hash ∧ (s.Reachable hash → s''.Reachable hash) ∧
    s''.contents = (k, v) ::ₘ s.contents := by
  have hover : (s'.buckets (Dash.regular (homeBucket (hash k)))).overflow < 255 := by
    have hb := (h.bounded (homeBucket (hash k))).card_le
    have hc := card_stashRefs_le hash s (homeBucket (hash k))
    have he := congrArg StashMeta.overflow (congrFun hm (homeBucket (hash k)))
    have he' : (s'.stashMeta (homeBucket (hash k))).overflow =
        (s'.buckets (Dash.regular (homeBucket (hash k)))).overflow := rfl
    omega
  obtain ⟨hst, hadds⟩ := Bucket.setStashPtr_spec (hfill.wf.stash _) hover (fingerprint (hash k)) i
  obtain ⟨hwf, hitem, htag, hmeta⟩ := modifyBucket_spec hfill.wf
    (f := fun b => b.setStashPtr (BitVec.ofNat 8 i.val) (fingerprint (hash k)) false)
    (Bucket.setStashPtr_sameSlots _ _ _ _) hst
  rw [← hs''] at hwf hitem htag hmeta
  have hrefs : ∀ b, s''.stashRefs hash b = if homeBucket (hash k) = b then
      (fingerprint (hash k), i) ::ₘ s.stashRefs hash b else s.stashRefs hash b :=
    stashRefs_fill slot hfill.free (hitem.trans hfill.item)
  have hplaced := hfill.placed h (Or.inr (Or.inr ⟨⟨i, rfl⟩, rfl⟩))
  have hadds' : (s.stashMeta (homeBucket (hash k))).Adds (fingerprint (hash k), i)
      (s''.stashMeta (homeBucket (hash k))) := by
    rw [hmeta, update_self, ← hm]
    exact hadds
  have hsame : ∀ b, homeBucket (hash k) ≠ b → s''.stashMeta b = s.stashMeta b := by
    intro b e
    rw [hmeta, update_of_ne (Ne.symm e), hm]
  refine ⟨⟨hwf, ?_, ?_⟩, ?_, ?_⟩
  · rw [hitem, htag]
    exact hplaced
  · intro b
    rw [hrefs]
    split
    · rename_i e
      subst e
      exact hadds'.bounded (h.bounded _)
    · rename_i e
      rw [hsame b e]
      exact h.bounded b
  · intro hr b r hmem
    rw [hrefs] at hmem
    split at hmem
    · rename_i e
      subst e
      rcases Multiset.mem_cons.mp hmem with rfl | hmem
      · exact hadds'.covers_new
      · exact hadds'.covers (hr _ r hmem)
    · rename_i e
      rw [hsame b e]
      exact hr b r hmem
  · rw [← hfill.contents, Segment.contents, hitem]
    rfl

/-- `insertNew` never fails on its own `unwrap`s: it adds the pair or gives it back. -/
theorem insertNew_spec (h : s.WF hash) (k : K) (v : V) :
    (∃ s' pos, s.insertNew k v (hash k) = some (.ok (s', pos)) ∧ s'.WF hash ∧
      (s.Reachable hash → s'.Reachable hash) ∧ s'.contents = (k, v) ::ₘ s.contents) ∨
        s.insertNew k v (hash k) = some (.error (k, v)) := by
  cases hhome : (s.buckets (Dash.regular (homeBucket (hash k)))).slots.isFull with
  | false =>
    obtain ⟨s', slot, hins, hfill, hm⟩ :=
      insertAt_spec h.toBucketsWF hhome k v (fingerprint (hash k)) false
    obtain ⟨hwf, hr'⟩ := hfill.regular h (Or.inl ⟨rfl, rfl⟩) hm
    left
    exact ⟨s', ⟨Dash.regular _, slot⟩,
      by simp [insertNew, hhome, hins]; rfl, hwf, hr', hfill.contents⟩
  | true =>
    cases hnext : (s.buckets (Dash.regular (nextBucket (homeBucket (hash k))))).slots.isFull with
    | false =>
      obtain ⟨s', slot, hins, hfill, hm⟩ :=
        insertAt_spec h.toBucketsWF hnext k v (fingerprint (hash k)) true
      obtain ⟨hwf, hr'⟩ := hfill.regular h (Or.inr (Or.inl ⟨rfl, rfl⟩)) hm
      left
      exact ⟨s', ⟨Dash.regular _, slot⟩,
        by simp [insertNew, hhome, hnext, hins]; rfl, hwf, hr', hfill.contents⟩
    | true =>
      rcases hfind :
        (List.finRange numStash).find? (fun i => !(s.buckets (Dash.stash i)).slots.isFull)
        with _ | i
      · right
        simp [insertNew, hhome, hnext, hfind]
      · have hfree := List.find?_some hfind
        rw [Bool.not_eq_true'] at hfree
        obtain ⟨s', slot, hins, hfill, hm⟩ :=
          insertAt_spec h.toBucketsWF hfree k v (fingerprint (hash k)) false
        obtain ⟨hwf, hr', hc⟩ := hfill.stash h hm rfl
        left
        exact ⟨_, ⟨Dash.stash i, slot⟩,
          by simp [insertNew, hhome, hnext, hfind, hins], hwf, hr', hc⟩

/-- A successful insertion is an insertion into one bucket with room; what follows in the
stash metadata moves no item. -/
theorem insertNew_insertAt {h : UInt64} (hins : s.insertNew k v h = some (.ok (s', pos))) :
    ∃ i fp probing s1,
      (s.buckets i).slots.isFull = false ∧ s.insertAt i k v fp probing = some (s1, pos) ∧
      s'.itemCount = s1.itemCount ∧ s'.item = s1.item := by
  simp only [insertNew] at hins
  split at hins
  · rename_i hfree
    rw [Bool.not_eq_true'] at hfree
    obtain ⟨⟨s1, _⟩, hat, heq⟩ := Option.map_eq_some_iff.mp hins
    cases heq
    exact ⟨_, _, _, s', hfree, hat, rfl, rfl⟩
  · split at hins
    · rename_i hfree
      rw [Bool.not_eq_true'] at hfree
      obtain ⟨⟨s1, _⟩, hat, heq⟩ := Option.map_eq_some_iff.mp hins
      cases heq
      exact ⟨_, _, _, s', hfree, hat, rfl, rfl⟩
    · split at hins
      · rename_i i hfind
        obtain ⟨⟨s1, _⟩, hat, heq⟩ := Option.map_eq_some_iff.mp hins
        cases heq
        have hfree := List.find?_some hfind
        rw [Bool.not_eq_true'] at hfree
        exact ⟨_, _, _, s1, hfree, hat, rfl,
          item_modifyBucket s1 (Bucket.setStashPtr_sameSlots _ _ _ _)⟩
      · cases hins

/-- Some bucket an item with this hash may be placed in is not full. -/
def HasRoom (s : Segment K V) (h : UInt64) : Prop :=
  (s.buckets (regular (homeBucket h))).slots.isFull = false ∨
    (s.buckets (regular (nextBucket (homeBucket h)))).slots.isFull = false ∨
    ∃ i, (s.buckets (stash i)).slots.isFull = false

instance decidableHasRoom (s : Segment K V) (h : UInt64) : Decidable (s.HasRoom h) := by
  unfold HasRoom
  infer_instance

theorem HasRoom.insertNew_ne {h : UInt64} (hroom : s.HasRoom h) (k : K) (v : V) :
    s.insertNew k v h ≠ some (.error (k, v)) := by
  intro herr
  simp only [insertNew] at herr
  split at herr
  · obtain ⟨_, _, heq⟩ := Option.map_eq_some_iff.mp herr
    cases heq
  · rename_i hhome
    split at herr
    · obtain ⟨_, _, heq⟩ := Option.map_eq_some_iff.mp herr
      cases heq
    · rename_i hnext
      split at herr
      · obtain ⟨_, _, heq⟩ := Option.map_eq_some_iff.mp herr
        cases heq
      · rename_i hfind
        rw [List.find?_eq_none] at hfind
        rcases hroom with h1 | h1 | ⟨i, h1⟩
        · exact hhome (by rw [h1]; rfl)
        · exact hnext (by rw [h1]; rfl)
        · exact hfind i (List.mem_finRange i) (by rw [h1]; rfl)

/-- A successful insertion writes one free position. -/
theorem insertNew_item (h : s.BucketsWF) {hk : UInt64}
    (hins : s.insertNew k v hk = some (.ok (s', pos))) :
    s.item pos = none ∧ s'.item = update s.item pos (some (k, v)) := by
  obtain ⟨i, fp, probing, s1, hfree, hat, _, hitem⟩ := insertNew_insertAt hins
  obtain ⟨s2, slot, hat2, hfill, _⟩ := insertAt_spec h hfree k v fp probing
  rw [hat] at hat2
  cases hat2
  exact ⟨hfill.free, hitem.trans hfill.item⟩

/-! ## Deletion -/

/-- The metadata of the home bucket and of the one after it when the stash item
with reference `r` and home bucket `home` is deleted. -/
def giveUp (m : Fin numBuckets → StashMeta) (home : Fin numBuckets) (r : StashRef) :
    Fin numBuckets → StashMeta :=
  fun b => if b = home ∨ b = nextBucket home then (m b).take r else m b

/-- `s'` is `s` with the pair at `pos` taken out. -/
structure Empties (s : Segment K V) (pos : SegmentPos) (s' : Segment K V) : Prop where
  wf : s'.BucketsWF
  item : s'.item = update s.item pos none
  tag : ∀ p, p ≠ pos → s'.tag p = s.tag p

theorem vacate_empties (h : s.BucketsWF) {kv : K × V} (hi : s.item pos = some kv) (s' : Segment K V)
    (hs' : s'.buckets =
      update s.buckets pos.bucketIdx ((s.buckets pos.bucketIdx).vacate pos.slotIdx)) :
    s.Empties pos s' ∧ s'.stashMeta = s.stashMeta := by
  have hocc : (s.buckets pos.bucketIdx).slots.occupied pos.slotIdx = true := by
    rw [← (h.slots _).item_isSome]
    exact Option.isSome_iff_exists.mpr ⟨_, hi⟩
  obtain ⟨hwf, hitem, hprobe⟩ := (h.slots pos.bucketIdx).vacate hocc
  have hst := h.stash pos.bucketIdx
  refine ⟨⟨⟨?_, ?_⟩, ?_, ?_⟩, ?_⟩
  · rw [hs']
    exact forall_update h.slots _ hwf
  · rw [hs']
    exact forall_update h.stash _ ⟨hst.flag, hst.owned⟩
  · have hv := view_update Bucket.item s.buckets hitem
    rw [← hs'] at hv
    exact hv
  · rintro ⟨i, slot⟩ hne
    rw [Segment.tag, Segment.tag, hs']
    by_cases e : i = pos.bucketIdx
    · subst e
      have hslot : slot ≠ pos.slotIdx := fun e => hne (by rw [e])
      simp only [update_self, Bucket.tag, hprobe slot hslot]
      rfl
    · simp [e]
  · funext b
    rw [Segment.stashMeta, hs']
    exact stashMeta_update s (b := (s.buckets pos.bucketIdx).vacate pos.slotIdx) rfl b

theorem Empties.contents {kv : K × V} (h : s.Empties pos s') (hi : s.item pos = some kv) :
    s.contents = kv ::ₘ s'.contents := by
  refine contents_fill pos ?_ ?_
  · rw [h.item, update_self]
  · rw [h.item, update_idem, ← hi, update_eq_self]

theorem Empties.placed (h : s.WF hash) (he : s.Empties pos s') :
    ∀ p k v, s'.item p = some (k, v) → Placed (hash k) p.bucketIdx (s'.tag p) := by
  intro p k v hp
  by_cases e : p = pos
  · subst e
    rw [he.item, update_self] at hp
    cases hp
  · rw [he.item, update_of_ne e] at hp
    rw [he.tag p e]
    exact h.placed p k v hp

theorem stash_id_of_pos (i : StashId) :
    BitVec.ofNat 8 ((stash i).val - numBuckets) = BitVec.ofNat 8 i.val := by
  have hv : (stash i).val - numBuckets = i.val := by simp [stash]
  rw [hv]

/-- Whatever the metadata says, deletion takes the pair out and nothing else. -/
theorem delete_item (h : ∀ i, (s.buckets i).WF) (hi : s.item pos = some (k, v)) (h' : UInt64) :
    ∃ s', s.delete pos h' = some (s', k, v) ∧
      (∀ i, (s'.buckets i).WF) ∧ s'.item = update s.item pos none := by
  have hocc : (s.buckets pos.bucketIdx).slots.occupied pos.slotIdx = true := by
    rw [← (h _).item_isSome]
    exact Option.isSome_iff_exists.mpr ⟨_, hi⟩
  obtain ⟨hwf, hitem, -⟩ := (h pos.bucketIdx).vacate hocc
  -- taking back a stash reference touches no slot
  have hunset : ∀ (s1 : Segment K V) (b : Fin numBuckets) (fp : UInt8) (id : BitVec 8),
      (∀ i, (s1.buckets i).WF) →
      (∀ i, ((s1.modifyBucket (regular b) fun x => (x.unsetStashPtr fp id).1).buckets i).WF) ∧
        (s1.modifyBucket (regular b) fun x => (x.unsetStashPtr fp id).1).item = s1.item := by
    intro s1 b fp id h1
    have hsame := Bucket.unsetStashPtr_sameSlots (s1.buckets (regular b)) fp id
    exact ⟨forall_update h1 _ (hsame.wf (h1 _)), item_modifyBucket s1 hsame⟩
  let s1 : Segment K V := { s with
    buckets := update s.buckets pos.bucketIdx ((s.buckets pos.bucketIdx).vacate pos.slotIdx) }
  have hslots : ∀ i, (s1.buckets i).WF := forall_update h _ hwf
  have hview : s1.item = update s.item pos none := view_update Bucket.item s.buckets hitem
  rw [delete, Bucket.delete_of_item hi]
  refine ⟨_, rfl, ?_⟩
  dsimp only
  split
  · obtain ⟨h2, hitem2⟩ := hunset s1 (homeBucket h') (fingerprint h')
      (BitVec.ofNat 8 (pos.bucketIdx.val - numBuckets)) hslots
    obtain ⟨h3, hitem3⟩ := hunset _ (nextBucket (homeBucket h')) (fingerprint h')
      (BitVec.ofNat 8 (pos.bucketIdx.val - numBuckets)) h2
    exact ⟨h3, hitem3.trans (hitem2.trans hview)⟩
  · exact ⟨hslots, hview⟩

/-- Deletion from a regular bucket takes the pair out and leaves the metadata alone. -/
theorem delete_regular (h : s.WF hash) (hi : s.item ⟨regular b, slot⟩ = some (k, v)) (h' : UInt64) :
    ∃ s', s.delete ⟨regular b, slot⟩ h' = some (s', k, v) ∧ s'.WF hash ∧
      s.Empties ⟨regular b, slot⟩ s' ∧ s'.stashMeta = s.stashMeta ∧
      ∀ b', s'.stashRefs hash b' = s.stashRefs hash b' := by
  have hlt : ¬ numBuckets ≤ (Dash.regular b).val := by
    have := b.isLt
    simp only [Dash.regular, Fin.val_castAdd]
    omega
  have hdel := Bucket.delete_of_item hi
  refine ⟨_, by simp only [delete, hdel, hlt, if_false]; rfl, ?_⟩
  obtain ⟨he, hm⟩ := vacate_empties h.toBucketsWF hi ({ s with
    buckets := update s.buckets (Dash.regular b) ((s.buckets (Dash.regular b)).vacate slot)
    itemCount := s.itemCount - 1 }) rfl
  have hrefs : ∀ b', ({ s with
      buckets := update s.buckets (Dash.regular b) ((s.buckets (Dash.regular b)).vacate slot)
      itemCount := s.itemCount - 1 } : Segment K V).stashRefs hash b' = s.stashRefs hash b' := by
    apply stashRefs_congr
    intro i slot'
    rw [he.item, update_of_ne]
    intro e
    exact regular_ne_stash b i (SegmentPos.mk.inj e).1.symm
  refine ⟨⟨he.wf, he.placed h, ?_⟩, he, hm, hrefs⟩
  intro b'
  rw [hm, hrefs]
  exact h.bounded b'

theorem modifyBucket_unset (h : s.BucketsWF) (b : Fin numBuckets) (r : StashRef) :
    (s.modifyBucket (regular b) fun x =>
      (x.unsetStashPtr r.1 (BitVec.ofNat 8 r.2.val)).1).BucketsWF ∧
      (s.modifyBucket (regular b) fun x => (x.unsetStashPtr r.1 (BitVec.ofNat 8 r.2.val)).1).item =
      s.item ∧ (s.modifyBucket (regular b) fun x =>
        (x.unsetStashPtr r.1 (BitVec.ofNat 8 r.2.val)).1).tag = s.tag ∧
      (s.modifyBucket (regular b) fun x =>
        (x.unsetStashPtr r.1 (BitVec.ofNat 8 r.2.val)).1).stashMeta =
        update s.stashMeta b ((s.stashMeta b).take r) := by
  obtain ⟨hst, hm⟩ := Bucket.unsetStashPtr_spec (h.stash (regular b)) r.1 r.2
  obtain ⟨hwf, hitem, htag, hmeta⟩ := modifyBucket_spec h
    (f := fun x => (x.unsetStashPtr r.1 (BitVec.ofNat 8 r.2.val)).1)
    (Bucket.unsetStashPtr_sameSlots _ _ _) hst
  exact ⟨hwf, hitem, htag, by rw [hmeta, hm]; rfl⟩

/-- Deletion of a stash item takes a reference from its home bucket and, whether
or not it has one of this item, from the bucket after it. -/
theorem delete_stash (h : s.WF hash) (hi : s.item ⟨stash i, slot⟩ = some (k, v)) :
    ∃ s', s.delete ⟨stash i, slot⟩ (hash k) = some (s', k, v) ∧ s'.WF hash ∧
      s.Empties ⟨stash i, slot⟩ s' ∧
      s'.stashMeta = giveUp s.stashMeta (homeBucket (hash k)) (fingerprint (hash k), i) ∧
      ∀ b, s.stashRefs hash b = if homeBucket (hash k) = b then
        (fingerprint (hash k), i) ::ₘ s'.stashRefs hash b else s'.stashRefs hash b := by
  have hge : numBuckets ≤ (Dash.stash i).val := by simp [Dash.stash]
  have hdel := Bucket.delete_of_item hi
  obtain ⟨he, hm⟩ := vacate_empties h.toBucketsWF hi ({ s with
    buckets := update s.buckets (Dash.stash i) ((s.buckets (Dash.stash i)).vacate slot) }) rfl
  generalize hs1 : ({ s with
    buckets := update s.buckets (Dash.stash i) ((s.buckets (Dash.stash i)).vacate slot) } :
      Segment K V) = s1 at he hm
  obtain ⟨hwf2, hitem2, htag2, hmeta2⟩ :=
    modifyBucket_unset he.wf (homeBucket (hash k)) (fingerprint (hash k), i)
  generalize hs2 : (s1.modifyBucket (Dash.regular (homeBucket (hash k))) fun x =>
    (x.unsetStashPtr (fingerprint (hash k)) (BitVec.ofNat 8 i.val)).1) =
      s2 at hwf2 hitem2 htag2 hmeta2
  obtain ⟨hwf3, hitem3, htag3, hmeta3⟩ := modifyBucket_unset hwf2 (nextBucket (homeBucket (hash k)))
    (fingerprint (hash k), i)
  generalize hs3 : (s2.modifyBucket (Dash.regular (nextBucket (homeBucket (hash k)))) fun x =>
    (x.unsetStashPtr (fingerprint (hash k)) (BitVec.ofNat 8 i.val)).1) =
      s3 at hwf3 hitem3 htag3 hmeta3
  have he3 : s.Empties ⟨stash i, slot⟩ s3 :=
    ⟨hwf3, by rw [hitem3, hitem2, he.item], fun p e => by rw [htag3, htag2, he.tag p e]⟩
  have hmeta : s3.stashMeta =
      giveUp s.stashMeta (homeBucket (hash k)) (fingerprint (hash k), i) := by
    have hne := nextBucket_ne (homeBucket (hash k))
    funext b
    rw [hmeta3, hmeta2, hm, giveUp]
    by_cases e1 : b = homeBucket (hash k)
    · subst e1
      simp [Ne.symm hne]
    · by_cases e2 : b = nextBucket (homeBucket (hash k))
      · subst e2
        simp [hne]
      · simp [e1, e2]
  have hrefs : ∀ b, s.stashRefs hash b = if homeBucket (hash k) = b then
      (fingerprint (hash k), i) ::ₘ s3.stashRefs hash b else s3.stashRefs hash b := by
    refine stashRefs_fill slot (v := v) ?_ ?_
    · rw [he3.item, update_self]
    · rw [he3.item, update_idem, ← hi, update_eq_self]
  have hwf : s3.WF hash := by
    refine ⟨hwf3, he3.placed h, ?_⟩
    intro b
    have hb := h.bounded b
    rw [hrefs] at hb
    rw [hmeta, giveUp]
    by_cases e1 : homeBucket (hash k) = b
    · rw [if_pos e1] at hb
      rw [if_pos (Or.inl e1.symm)]
      exact hb.take_cons
    · rw [if_neg e1] at hb
      split
      · exact hb.take _
      · exact hb
  refine ⟨{ s3 with itemCount := s3.itemCount - 1 }, ?_,
    ⟨⟨hwf.slots, hwf.stash⟩, hwf.placed, hwf.bounded⟩, ⟨⟨hwf.slots, hwf.stash⟩, he3.item, he3.tag⟩,
    hmeta, hrefs⟩
  rw [← hs3, ← hs2, ← hs1]
  simp only [delete, hdel, hge, if_true, stash_id_of_pos]

/-! ## Value writes -/

theorem setValue_item (h : s.BucketsWF) (hi : s.item pos = some (k, v)) (value : V) :
    (s.modifyBucket pos.bucketIdx fun b => b.setValue pos.slotIdx value).item =
      update s.item pos (some (k, value)) :=
  view_update Bucket.item s.buckets ((h.slots pos.bucketIdx).setValue hi value).2

/-- A write through a reference to the value at `pos`. -/
theorem setValue_spec (h : s.WF hash) (hi : s.item pos = some (k, v)) (value : V)
    (hs' : s' = s.modifyBucket pos.bucketIdx fun b => b.setValue pos.slotIdx value) :
    s'.WF hash ∧ (s.Reachable hash → s'.Reachable hash) ∧
      ∃ rest, s.contents = (k, v) ::ₘ rest ∧ s'.contents = (k, value) ::ₘ rest := by
  have hwf := ((h.slots pos.bucketIdx).setValue hi value).1
  have hst := h.stash pos.bucketIdx
  have hbuckets : s'.buckets = update s.buckets pos.bucketIdx
      ((s.buckets pos.bucketIdx).setValue pos.slotIdx value) := by rw [hs']; rfl
  have hitem' : s'.item = update s.item pos (some (k, value)) := by
    rw [hs', setValue_item h.toBucketsWF hi]
  have htag : s'.tag = s.tag := by
    funext ⟨i, slot⟩
    rw [Segment.tag, hbuckets]
    by_cases e : i = pos.bucketIdx
    · subst e
      simp only [update_self]
      rfl
    · simp [Segment.tag, e]
  have hmeta : s'.stashMeta = s.stashMeta := by
    funext b
    rw [Segment.stashMeta, hbuckets]
    exact stashMeta_update s (b := (s.buckets pos.bucketIdx).setValue pos.slotIdx value) rfl b
  have hkey : ∀ p, (s'.item p).map Prod.fst = (s.item p).map Prod.fst := by
    intro p
    rw [hitem']
    by_cases e : p = pos
    · subst e
      simp [hi]
    · simp [e]
  have hrefs : ∀ b, s'.stashRefs hash b = s.stashRefs hash b := by
    intro b
    simp only [stashRefs]
    congr 2
    funext p
    exact refOf_congr b p.1 (hkey ⟨stash p.1, p.2⟩)
  refine ⟨⟨⟨?_, ?_⟩, ?_, ?_⟩, ?_, ?_⟩
  · rw [hbuckets]
    exact forall_update h.slots _ hwf
  · rw [hbuckets]
    exact forall_update h.stash _ ⟨hst.flag, hst.owned⟩
  · intro p k' v' hp
    have hk := hkey p
    rw [hp] at hk
    obtain ⟨⟨k'', v''⟩, h1, h2⟩ := Option.map_eq_some_iff.mp hk.symm
    cases h2
    rw [htag]
    exact h.placed p _ v'' h1
  · intro b
    rw [hmeta, hrefs]
    exact h.bounded b
  · intro hr b r hmem
    rw [hrefs] at hmem
    rw [hmeta]
    exact hr b r hmem
  · refine ⟨(allPositions.filterMap (update s.item pos none) : List _), ?_, ?_⟩
    · refine contents_fill pos (update_self ..) ?_
      rw [update_idem, ← hi, update_eq_self]
    · refine contents_fill pos (update_self ..) ?_
      rw [hitem', update_idem]

end Hashed

end Segment

end ShrikeDb.Dash
