import ShrikeDb.Dash.Runs

/-! `remove` and the other keys. Deletion of a stash item takes a reference from
its home bucket and from the bucket after it, although only the home bucket
records the item; the second bucket may lose the reference of an item of its
own. The condition under which no other key disappears is stated on the table
before the removal and is exact. -/

namespace ShrikeDb.Dash

open Function

/-- One reference equal to `r`, or one of the count, can be taken from `m` and
`r'` is still covered. -/
def StashMeta.Spares (m : StashMeta) (r r' : StashRef) : Prop :=
  (r ∈ m.refs → 0 < m.overflow ∨ r' ∈ m.refs.erase r) ∧ (r ∉ m.refs → 1 < m.overflow ∨ r' ∈ m.refs)

theorem StashMeta.take_covers {m : StashMeta} {r r' : StashRef} :
    (m.take r).Covers r' ↔ m.Spares r r' := by
  unfold Spares Covers StashMeta.take
  by_cases hr : r ∈ m.refs
  · simp [hr, or_comm]
  · have hsub : 0 < m.overflow - 1 ↔ 1 < m.overflow := by omega
    simp [hr, hsub, or_comm]

namespace DashTable

open FinmapPairs Refine

variable {K V : Type} [DecidableEq K]

section Hashed

variable (hash : K → UInt64)

variable (t : DashTable K V)

/-- Every stored key is found with its last written value. -/
def AllFound (m : Finmap fun _ : K => V) : Prop :=
  ∀ k v, m.lookup k = some v → t.find hash k = some v

/-- What a removal should do: return what `find` returns, and change the
answer of `find` for the removed key only. -/
def RemovesOnly (k : K) : Prop :=
  ∃ t', t.remove hash k = some (t', t.find hash k) ∧ t'.find hash k = none ∧
    ∀ k', k' ≠ k → t'.find hash k' = t.find hash k'

/-- If `k` sits in a stash bucket, every other stash item whose home is the home
bucket of `k` or the bucket after it stays covered when that bucket gives up
one reference to `k`. -/
def StashSpared (k : K) : Prop :=
  ∀ slot i, t.locate hash k = some ⟨stash i, slot⟩ →
    ∀ slot' i' k' v', (t.segments (t.segId (hash k))).item ⟨stash i', slot'⟩ = some (k', v') →
      k' ≠ k → homeBucket (hash k') = homeBucket (hash k) ∨
        homeBucket (hash k') = nextBucket (homeBucket (hash k)) →
      ((t.segments (t.segId (hash k))).stashMeta (homeBucket (hash k'))).Spares
        (fingerprint (hash k), i) (fingerprint (hash k'), i')

variable {hash}

variable {t : DashTable K V} {m : Finmap fun _ : K => V}

omit [DecidableEq K] in
/-- A key is stored at one position only. -/
theorem Represents.pos_unique (h : t.Represents hash m) {sid : Fin t.numSegments}
    {pos pos' : SegmentPos} {k : K} {v v' : V} (hi : (t.segments sid).item pos = some (k, v))
    (hi' : (t.segments sid).item pos' = some (k, v')) : pos' = pos := by
  by_contra hne
  have hnodup := nodup_keys_pairs m
  rw [← h.contents, contents_eq t sid, Segment.contents] at hnodup
  have hitem : (t.segments sid).item =
      update (update (t.segments sid).item pos none) pos (some (k, v)) := by
    rw [update_idem, ← hi, update_eq_self]
  have hfill := Segment.contents_fill pos (update_self ..) hitem
  rw [hfill, Multiset.cons_add, Multiset.map_cons, Multiset.nodup_cons] at hnodup
  refine hnodup.1 (Multiset.mem_map.mpr ⟨(k, v'), Multiset.mem_add.mpr (Or.inl ?_), rfl⟩)
  rw [Multiset.mem_coe, List.mem_filterMap]
  exact ⟨pos', Segment.mem_allPositions pos', by rw [update_of_ne hne, hi']⟩

/-- Keys are found exactly when no stash item is without a record. -/
theorem Represents.reachable_iff (h : t.Represents hash m) :
    t.Reachable hash ↔ AllFound hash t m := by
  constructor
  · intro hr k v hl
    rw [h.find_eq hr, hl]
  · intro hfound sid b r hmem
    obtain ⟨slot, k, v, hi, hb, hfp⟩ := Segment.mem_stashRefs.mp hmem
    obtain rfl := h.routed sid _ k v hi
    have hfind := hfound k v (h.lookup_of_item hi)
    rw [find] at hfind
    obtain ⟨pos, hloc, _⟩ := Option.bind_eq_some_iff.mp hfind
    obtain ⟨v', hi', _⟩ := h.locate_some hloc
    obtain rfl := h.pos_unique hi hi'
    obtain ⟨_, hcov⟩ := Segment.find_some (h.segment _).toBucketsWF hloc
    have := hcov r.2 rfl
    rw [hb, hfp] at this
    exact this

theorem Represents.find_none (h : t.Represents hash m) {k : K} (hl : m.lookup k = none) :
    t.find hash k = none := by
  rw [find]
  cases hloc : t.locate hash k with
  | none => rfl
  | some pos =>
    obtain ⟨v, _, hv⟩ := h.locate_some hloc
    rw [hl] at hv
    cases hv

/-- Replacing a segment by one that lacks a stored pair erases the key. -/
theorem Represents.erase_segment (h : t.Represents hash m) {pos : SegmentPos} {k : K} {v : V}
    (hi : (t.segments (t.segId (hash k))).item pos = some (k, v)) {s' : Segment K V}
    (hwf : s'.WF hash) (he : (t.segments (t.segId (hash k))).Empties pos s') :
    ({ t.setSegment (t.segId (hash k)) s' with size := t.size - 1 } : DashTable K V).Represents hash
      (m.erase k) := by
  have hc := he.contents hi
  have hcont := contents_eq t (t.segId (hash k))
  have hpairs := pairs_of_lookup (h.lookup_of_item hi)
  have hrest : s'.contents + t.others (t.segId (hash k)) = pairs (m.erase k) := by
    rw [← h.contents, hcont, hc, Multiset.cons_add, Multiset.cons_inj_right] at hpairs
    exact hpairs
  refine ⟨h.toWF.setSegment hwf ?_ ?_, (contents_setSegment t _ s').trans hrest⟩
  · intro kv hmem
    exact h.keys_routed _ kv (by rw [hc]; exact Multiset.mem_cons_of_mem hmem)
  · rw [h.size, hcont, hc, Multiset.cons_add, Multiset.card_cons, Nat.add_sub_cancel]

omit [DecidableEq K] in
/-- A table with one segment replaced is reachable when that segment is. -/
theorem Reachable.setSegment_iff (h : t.Reachable hash) {sid : Fin t.numSegments} {s : Segment K V}
    (n : Nat) :
    ({ t.setSegment sid s with size := n } : DashTable K V).Reachable hash ↔ s.Reachable hash := by
  constructor
  · intro hr
    have hs : (update t.segments sid s sid).Reachable hash := hr sid
    rwa [update_self] at hs
  · intro hs
    exact h.setSegment hs n

/-- After the deletion of a stash item the segment is reachable exactly when the
two buckets that gave up a reference could spare it. -/
theorem Represents.stash_reachable_iff (h : t.Represents hash m) (hr : t.Reachable hash)
    {i : StashId} {slot : Slot} {k : K} {v : V} (hloc : t.locate hash k = some ⟨stash i, slot⟩)
    (hi : (t.segments (t.segId (hash k))).item ⟨stash i, slot⟩ = some (k, v)) {s' : Segment K V}
    (he : (t.segments (t.segId (hash k))).Empties ⟨stash i, slot⟩ s')
    (hm : s'.stashMeta =
      Segment.giveUp (t.segments (t.segId (hash k))).stashMeta (homeBucket (hash k))
        (fingerprint (hash k), i)) :
    s'.Reachable hash ↔ StashSpared hash t k := by
  constructor
  · intro hs slot0 i0 hloc0 slot' i' k' v' hi' hne hb
    rw [hloc] at hloc0
    obtain ⟨hstash, _⟩ := SegmentPos.mk.inj (Option.some.inj hloc0)
    obtain rfl := stash_injective hstash
    have hpos : (⟨stash i', slot'⟩ : SegmentPos) ≠ ⟨stash i, slot⟩ := by
      intro e
      rw [e, hi] at hi'
      cases hi'
      exact hne rfl
    have hmem : (fingerprint (hash k'), i') ∈ s'.stashRefs hash (homeBucket (hash k')) := by
      refine Segment.mem_stashRefs.mpr ⟨slot', k', v', ?_, rfl, rfl⟩
      rw [he.item, update_of_ne hpos]
      exact hi'
    have hcov := hs _ _ hmem
    rw [hm, Segment.giveUp, if_pos hb, StashMeta.take_covers] at hcov
    exact hcov
  · intro hspare b r hmem
    obtain ⟨slot', k', v', hi', rfl, hfp⟩ := Segment.mem_stashRefs.mp hmem
    have hpos : (⟨stash r.2, slot'⟩ : SegmentPos) ≠ ⟨stash i, slot⟩ := by
      intro e
      rw [he.item, e, update_self] at hi'
      cases hi'
    rw [he.item, update_of_ne hpos] at hi'
    have hne : k' ≠ k := by
      rintro rfl
      exact hpos (h.pos_unique hi hi')
    rw [hm, Segment.giveUp]
    split
    · rename_i hb
      have hs := hspare slot i hloc slot' r.2 k' v' hi' hne hb
      rw [hfp] at hs
      exact StashMeta.take_covers.mpr hs
    · refine hr _ _ _ (Segment.mem_stashRefs.mpr ⟨slot', k', v', hi', rfl, hfp⟩)

/-- `remove` takes the key out of the map and returns its value; the rest stays
reachable exactly under `StashSpared`. -/
theorem Represents.remove (h : t.Represents hash m) (hr : t.Reachable hash) (k : K) :
    ∃ t', t.remove hash k = some (t', m.lookup k) ∧
      t'.Represents hash (m.erase k) ∧ (t'.Reachable hash ↔ StashSpared hash t k) := by
  cases hloc : t.locate hash k with
  | none =>
    have hl := h.locate_none hr hloc
    have herase : m.erase k = m := by
      apply Finmap.ext_lookup
      intro k'
      by_cases e : k' = k
      · subst e
        rw [Finmap.lookup_erase, hl]
      · rw [Finmap.lookup_erase_ne e]
    refine ⟨t, by rw [DashTable.remove, hloc, hl], by rw [herase]; exact h, iff_of_true hr ?_⟩
    intro slot i hl'
    rw [hloc] at hl'
    cases hl'
  | some pos =>
    obtain ⟨v, hi, hl⟩ := h.locate_some hloc
    obtain ⟨b, slot⟩ := pos
    rw [hl]
    -- a regular bucket keeps all metadata; a stash bucket makes two buckets give up a reference
    have hregular : ∀ b0, b = regular b0 → ∃ t', t.remove hash k = some (t', some v) ∧
        t'.Represents hash (m.erase k) ∧ (t'.Reachable hash ↔ StashSpared hash t k) := by
      rintro b0 rfl
      obtain ⟨s', hdel, hwf, he, hm, hrefs⟩ := Segment.delete_regular (h.segment _) hi (hash k)
      refine ⟨_, by rw [DashTable.remove, hloc]; simp only [hdel], h.erase_segment hi hwf he, ?_⟩
      refine iff_of_true (hr.setSegment ?_ _) ?_
      · intro b' r hmem
        rw [hrefs] at hmem
        rw [hm]
        exact hr _ b' r hmem
      · intro slot' i hl'
        rw [hloc] at hl'
        exact absurd (SegmentPos.mk.inj (Option.some.inj hl')).1 (regular_ne_stash b0 i)
    rcases (h.segment _).placed _ _ _ hi with ⟨hb, _⟩ | ⟨hb, _⟩ | ⟨⟨i, hb⟩, _⟩
    · exact hregular _ hb
    · exact hregular _ hb
    · simp only at hb
      subst hb
      obtain ⟨s', hdel, hwf, he, hm, _⟩ := Segment.delete_stash (h.segment _) hi
      refine ⟨_, by rw [DashTable.remove, hloc]; simp only [hdel], h.erase_segment hi hwf he, ?_⟩
      rw [hr.setSegment_iff]
      exact h.stash_reachable_iff hr hloc hi he hm

theorem Represents.removesOnly_iff (h : t.Represents hash m) (hr : t.Reachable hash) (k : K) :
    RemovesOnly hash t k ↔ StashSpared hash t k := by
  obtain ⟨t', hrem, hrep, hiff⟩ := h.remove hr k
  rw [← hiff, hrep.reachable_iff]
  have hfind := h.find_eq hr
  constructor
  · rintro ⟨t'', hrem', _, hother⟩ k' v hl
    rw [hrem] at hrem'
    obtain ⟨rfl, _⟩ := Prod.mk.inj (Option.some.inj hrem')
    by_cases e : k' = k
    · subst e
      rw [Finmap.lookup_erase] at hl
      cases hl
    · rw [Finmap.lookup_erase_ne e] at hl
      rw [hother k' e, hfind, hl]
  · intro hall
    refine ⟨t', by rw [hrem, hfind], hrep.find_none (Finmap.lookup_erase k m), ?_⟩
    intro k' e
    rw [hrep.find_eq (hrep.reachable_iff.mpr hall), hfind, Finmap.lookup_erase_ne e]

/-! ## Runs with removals -/

/-- All operations that change a table. -/
inductive Op (K V : Type)
  | write (w : Write K V)
  | remove (k : K)

variable (hash) in
def applyOp (t : DashTable K V) : Op K V → Option (DashTable K V × Option V)
  | .write w => applyWrite hash t w
  | .remove k => t.remove hash k

/-- The map after an operation. -/
def specOp (m : Finmap fun _ : K => V) : Op K V → Finmap fun _ : K => V
  | .write w => (specWrite m w).1
  | .remove k => m.erase k

variable (hash) in
/-- Tables reached from an empty one, with the map last written, by operations
after each of which every stored key is found. -/
inductive FoundRun : DashTable K V → (Finmap fun _ : K => V) → Prop
  | empty : FoundRun withHasher ∅
  | step {t t' : DashTable K V} {m : Finmap fun _ : K => V} {op : Op K V} {out : Option V}
      (run : FoundRun t m) (apply : applyOp hash t op = some (t', out))
      (found : AllFound hash t' (specOp m op)) : FoundRun t' (specOp m op)

theorem FoundRun.represents (h : FoundRun hash t m) :
    t.Represents hash m ∧ t.Reachable hash := by
  induction h with
  | empty => exact ⟨represents_fresh _ _, reachable_fresh _ _⟩
  | step _ happly hfound ih =>
    rename_i op _ _
    cases op with
    | write w => exact (applyWrite_spec ih happly).1
    | remove k =>
      obtain ⟨t', hrem, hrep, _⟩ := ih.1.remove ih.2 k
      obtain ⟨rfl, _⟩ := Prod.mk.inj (Option.some.inj (hrem.symm.trans happly))
      exact ⟨hrep, hrep.reachable_iff.mpr hfound⟩

variable (hash) in
/-- Runs in which every removal can spare the references it takes. -/
inductive SparedRun : DashTable K V → (Finmap fun _ : K => V) → Prop
  | empty : SparedRun withHasher ∅
  | write {t t' : DashTable K V} {m : Finmap fun _ : K => V} {w : Write K V} {out : Option V}
      (run : SparedRun t m) (apply : applyWrite hash t w = some (t', out)) :
      SparedRun t' (specWrite m w).1
  | remove {t t' : DashTable K V} {m : Finmap fun _ : K => V} {k : K} {out : Option V}
      (run : SparedRun t m) (spared : StashSpared hash t k)
      (apply : t.remove hash k = some (t', out)) : SparedRun t' (m.erase k)

/-- No key is ever lost in such a run. -/
theorem SparedRun.foundRun (h : SparedRun hash t m) :
    FoundRun hash t m := by
  induction h with
  | empty => exact .empty
  | @write t t' m w out _ happly ih =>
    have hrep := (applyWrite_spec ih.represents happly).1
    have happly' : applyOp hash t (.write w) = some (t', out) := happly
    exact .step ih happly' (hrep.1.reachable_iff.mp hrep.2)
  | @remove t t' m k out _ hspared happly ih =>
    obtain ⟨t1, hrem, hrep, hiff⟩ := ih.represents.1.remove ih.represents.2 k
    obtain ⟨rfl, _⟩ := Prod.mk.inj (Option.some.inj (hrem.symm.trans happly))
    have happly' : applyOp hash t (.remove k) = some (t1, out) := happly
    exact .step ih happly' (hrep.reachable_iff.mp (hiff.mpr hspared))

/-- In every table reached by a run in which all keys stayed findable, `remove`
changes nothing but its own key exactly when the stash references it takes can
be spared; and in every run whose removals all meet that condition, all keys
stay findable in every table reached. -/
theorem remove_frame_iff_stashSpared (hash : K → UInt64) :
    (∀ (t : DashTable K V) (m : Finmap fun _ : K => V), FoundRun hash t m →
      ∀ k, RemovesOnly hash t k ↔ StashSpared hash t k) ∧
    (∀ (t : DashTable K V) (m : Finmap fun _ : K => V), SparedRun hash t m →
      AllFound hash t m ∧ ∀ k, RemovesOnly hash t k ↔ StashSpared hash t k) := by
  have hiff : ∀ (t : DashTable K V) (m : Finmap fun _ : K => V), FoundRun hash t m →
      ∀ k, RemovesOnly hash t k ↔ StashSpared hash t k := by
    intro t m h k
    obtain ⟨hrep, hr⟩ := h.represents
    exact hrep.removesOnly_iff hr k
  refine ⟨hiff, ?_⟩
  intro t m h
  obtain ⟨hrep, hr⟩ := h.foundRun.represents
  exact ⟨hrep.reachable_iff.mp hr, hiff t m h.foundRun⟩

theorem sparedRun_of_writes {ws : List (Write K V)} {t' : DashTable K V} {outs : List (Option V)}
    (h : SparedRun hash t m) (hrun : run (applyWrite hash) t ws = some (t', outs)) :
    SparedRun hash t' (specRun specWrite m ws).1 := by
  induction ws generalizing t m outs with
  | nil =>
    cases hrun
    exact h
  | cons w ws ih =>
    obtain ⟨t1, o, os, h1, h2, _⟩ := run_cons_eq_some hrun
    exact ih (.write h h1) h2

end Hashed

/-! ## Two neighbouring buckets that overflow -/

/-- Keys that fill the buckets 0, 1 and 2 of a segment under the identity hash,
then one stash item at home in bucket 0 and one in bucket 1, with one
fingerprint. -/
def crowdedWrites : List (Write Nat Nat) :=
  ((List.range 12 ++ (List.range 12).map (256 + ·) ++ (List.range 12).map (512 + ·)) ++
    [12, 268]).map fun k => .insert k k

theorem crowded_remove : (run (applyWrite UInt64.ofNat) withHasher crowdedWrites).any (fun r =>
    r.1.find UInt64.ofNat 268 == some 268 &&
      (r.1.remove UInt64.ofNat 12).any fun r' => r'.1.find UInt64.ofNat 268 == none) = true := by
  decide +kernel

theorem exists_crowded : ∃ (t : DashTable Nat Nat) (m : Finmap fun _ : Nat => Nat),
    FoundRun UInt64.ofNat t m ∧ t.find UInt64.ofNat 268 = some 268 ∧
      ∃ t' out, t.remove UInt64.ofNat 12 = some (t', out) ∧ t'.find UInt64.ofNat 268 = none := by
  obtain ⟨⟨t, outs⟩, hrun, h⟩ := (Option.any_eq_true _ _).mp crowded_remove
  rw [Bool.and_eq_true, beq_iff_eq] at h
  obtain ⟨⟨t', out⟩, hrem, hlost⟩ := (Option.any_eq_true _ _).mp h.2
  exact ⟨t, _, (sparedRun_of_writes .empty hrun).foundRun, h.1, t', out, hrem, beq_iff_eq.mp hlost⟩

/-- Removing key 12 makes key 268 invisible: the reference taken from the bucket
after the home of 12 was that of 268. -/
theorem remove_loses_neighbour : ∃ (t : DashTable Nat Nat) (m : Finmap fun _ : Nat => Nat),
    FoundRun UInt64.ofNat t m ∧ ¬ RemovesOnly UInt64.ofNat t 12 := by
  obtain ⟨t, m, hfound, hfind, t', out, hrem, hlost⟩ := exists_crowded
  refine ⟨t, m, hfound, ?_⟩
  rintro ⟨t'', hrem', _, hother⟩
  obtain ⟨rfl, _⟩ := Prod.mk.inj (Option.some.inj (hrem.symm.trans hrem'))
  have := hother 268 (by decide)
  rw [hlost, hfind] at this
  cases this

theorem remove_frame_iff_crowded : ∃ (t : DashTable Nat Nat) (m : Finmap fun _ : Nat => Nat),
    FoundRun UInt64.ofNat t m ∧
    (RemovesOnly UInt64.ofNat t 12 ↔ StashSpared UInt64.ofNat t 12) := by
  obtain ⟨t, m, hfound, _⟩ := exists_crowded
  exact ⟨t, m, hfound, (remove_frame_iff_stashSpared UInt64.ofNat).1 t m hfound 12⟩

end DashTable

end ShrikeDb.Dash
