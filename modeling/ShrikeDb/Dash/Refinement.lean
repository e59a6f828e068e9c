import Mathlib.Algebra.BigOperators.Fin
import Mathlib.Algebra.Order.Group.Multiset
import ShrikeDb.Dash.Invariant
import ShrikeDb.Dash.Table
import ShrikeDb.Lib.FinmapPairs

/-! A `DashTable` refines a finite map. The invariant of the table is that of
its segments together with the routing of keys to segments; the abstraction is
the multiset of stored pairs. Insertion, growth, value writes and `clear` keep
every stored key visible to `find`. -/

namespace ShrikeDb.Dash

namespace DashTable

open FinmapPairs Function Multiset

variable {K V : Type}

/-! ## Contents -/

variable (t : DashTable K V)

/-- All stored pairs. -/
def contents : Multiset (K × V) := ∑ sid, (t.segments sid).contents

variable (sid : Fin t.numSegments)

/-- The pairs of all segments but one. -/
def others : Multiset (K × V) :=
  ∑ i ∈ Finset.univ.erase sid, (t.segments i).contents

theorem contents_eq :
    t.contents = (t.segments sid).contents + t.others sid :=
  (Finset.add_sum_erase _ _ (Finset.mem_univ sid)).symm

theorem contents_setSegment (s : Segment K V) :
    (t.setSegment sid s).contents = s.contents + t.others sid := by
  rw [contents_eq (t.setSegment sid s) sid]
  congr 1
  · simp [setSegment]
  · refine Finset.sum_congr rfl fun (i : Fin t.numSegments) hi => ?_
    have hne : i ≠ sid := Finset.ne_of_mem_erase hi
    have hseg : update t.segments sid s i = t.segments i := update_of_ne hne _ _
    exact congrArg Segment.contents hseg

theorem mem_contents {t : DashTable K V} {kv : K × V} :
    kv ∈ t.contents ↔ ∃ sid pos, (t.segments sid).item pos = some kv := by
  simp only [contents, mem_sum, Finset.mem_univ, true_and, Segment.mem_contents]

theorem coe_flatMap {ι α : Type} (l : List ι) (f : ι → List α) :
    ((l.flatMap f : List α) : Multiset α) = (l.map fun i => (f i : Multiset α)).sum := by
  induction l with
  | nil => rfl
  | cons i l ih => rw [List.flatMap_cons, ← coe_add, ih, List.map_cons, List.sum_cons]

section Hashed

variable (hash : K → UInt64)

structure WF (t : DashTable K V) : Prop where
  segment : ∀ sid, (t.segments sid).WF hash
  routed : ∀ sid pos k v, (t.segments sid).item pos = some (k, v) → t.segId (hash k) = sid
  size : t.size = card t.contents

/-- No stash item of any segment is lost to `find`. -/
def Reachable : Prop := ∀ sid, (t.segments sid).Reachable hash

variable {hash}

/-- Every bucket's bitmap tells which of its slots are initialised; nothing is said of
where the items sit and of the stash metadata. -/
def Initialised : Prop := ∀ sid i, ((t.segments sid).buckets i).WF

variable {t t' : DashTable K V} {s : Segment K V} {sid : Fin t.numSegments} {pos : SegmentPos}
  {k : K} {v : V}

theorem WF.initialised (h : t.WF hash) : t.Initialised :=
  fun sid => (h.segment sid).slots

theorem Initialised.iter_eq (h : t.Initialised) :
    (t.iter : Multiset (K × V)) = t.contents := by
  have hseg : ∀ sid,
      ((t.segments sid).positions.filterMap (t.segments sid).item : Multiset (K × V)) =
      (t.segments sid).contents := by
    intro sid
    rw [Segment.filterMap_positions (h sid)]
    rfl
  rw [contents, Fin.sum_univ_def]
  simp only [← hseg]
  exact coe_flatMap _ _

theorem WF.iter_eq (h : t.WF hash) : (t.iter : Multiset (K × V)) = t.contents :=
  h.initialised.iter_eq

theorem contents_fresh (n : Nat) (hn : 0 < n) : (fresh n hn : DashTable K V).contents = 0 := by
  rw [contents]
  exact Finset.sum_eq_zero fun _ _ => Segment.contents_new 1

theorem wf_fresh (n : Nat) (hn : 0 < n) : (fresh n hn : DashTable K V).WF hash where
  segment := fun _ => Segment.wf_new 1
  routed := by
    intro sid pos k v h
    simp [fresh, Segment.item, Segment.new, Bucket.new, Bucket.item] at h
  size := by rw [contents_fresh]; rfl

theorem reachable_fresh (n : Nat) (hn : 0 < n) : (fresh n hn : DashTable K V).Reachable hash :=
  fun _ => Segment.reachable_new 1

/-! ## One segment changes -/

theorem forall_setSegment {P : Fin t.numSegments → Segment K V → Prop} (h : ∀ i, P i (t.segments i))
    (sid : Fin t.numSegments) (hs : P sid s) (i : Fin t.numSegments) :
    P i (update t.segments sid s i) := by
  by_cases e : i = sid
  · subst e
    simpa using hs
  · simpa [e] using h i

/-- Replacing the segment a hash is routed to by one whose keys are routed there. -/
theorem WF.setSegment (h : t.WF hash) (hs : s.WF hash)
    (hkeys : ∀ kv ∈ s.contents, t.segId (hash kv.1) = sid) {n : Nat}
    (hn : n = card (s.contents + t.others sid)) :
    ({ t.setSegment sid s with size := n } : DashTable K V).WF hash := by
  have hrouted := forall_setSegment (t := t) (s := s) (P := fun i s => ∀ pos k v,
    s.item pos = some (k, v) → t.segId (hash k) = i) h.routed sid
    (fun pos k v hi => hkeys (k, v) (Segment.mem_contents.mpr ⟨pos, hi⟩))
  refine ⟨forall_setSegment (P := fun _ s => s.WF hash) h.segment sid hs, hrouted, ?_⟩
  rw [hn, ← contents_setSegment]
  rfl

theorem Reachable.setSegment (h : t.Reachable hash) (hs : s.Reachable hash) (n : Nat) :
    ({ t.setSegment sid s with size := n } : DashTable K V).Reachable hash :=
  forall_setSegment (P := fun _ s => s.Reachable hash) h sid hs

theorem WF.keys_routed (h : t.WF hash) (sid : Fin t.numSegments) :
    ∀ kv ∈ (t.segments sid).contents, t.segId (hash kv.1) = sid := by
  intro kv hmem
  obtain ⟨pos, hpos⟩ := Segment.mem_contents.mp hmem
  exact h.routed sid pos kv.1 kv.2 hpos

theorem insertNew_spec (h : t.WF hash) (k : K) (v : V) :
    (∃ t', t.insertNew k v (hash k) = some (.ok t') ∧ t'.WF hash ∧
      (t.Reachable hash → t'.Reachable hash) ∧ t'.contents = (k, v) ::ₘ t.contents) ∨
        t.insertNew k v (hash k) = some (.error (k, v)) := by
  have hc := contents_eq t (t.segId (hash k))
  rcases Segment.insertNew_spec (h.segment (t.segId (hash k))) k v with
    ⟨s, pos, hins, hwf, hreach, hcont⟩ | herr
  · left
    refine ⟨_, by rw [insertNew, hins], h.setSegment hwf ?_ ?_,
      fun hr => hr.setSegment (hreach (hr _)) _, ?_⟩
    · intro kv hmem
      rw [hcont] at hmem
      rcases mem_cons.mp hmem with rfl | hmem
      · rfl
      · exact h.keys_routed _ kv hmem
    · rw [h.size, hc, hcont, cons_add, card_cons]
    · exact (contents_setSegment t _ s).trans (by rw [hcont, hc, cons_add])
  · right
    rw [insertNew, herr]

/-! ## Growth -/

/-- Deletion of any stored item, wherever it sits. -/
theorem delete_spec (h : s.WF hash) (hi : s.item pos = some (k, v)) :
    ∃ s', s.delete pos (hash k) = some (s', k, v) ∧ s'.WF hash ∧
      s.Empties pos s' := by
  obtain ⟨i, slot⟩ := pos
  rcases h.placed _ _ _ hi with ⟨hb, _⟩ | ⟨hb, _⟩ | ⟨⟨j, hb⟩, _⟩
  · cases hb
    obtain ⟨s', hdel, hwf, he, _⟩ := Segment.delete_regular h hi (hash k)
    exact ⟨s', hdel, hwf, he⟩
  · cases hb
    obtain ⟨s', hdel, hwf, he, _⟩ := Segment.delete_regular h hi (hash k)
    exact ⟨s', hdel, hwf, he⟩
  · cases hb
    obtain ⟨s', hdel, hwf, he, _⟩ := Segment.delete_stash h hi
    exact ⟨s', hdel, hwf, he⟩

/-- The pairs of collected triples. -/
def unhashed (items : List (K × V × UInt64)) : Multiset (K × V) :=
  (items.map fun e => (e.1, e.2.1) : List _)

theorem contents_eq_zero (h : ∀ pos, s.item pos = none) : s.contents = 0 := by
  rw [Segment.contents, coe_eq_zero, List.filterMap_eq_nil_iff]
  exact fun pos _ => h pos

/-- Draining positions that hold exactly the items of a segment collects them all. -/
theorem drain_spec (h : ∀ i, (s.buckets i).WF) {l : List (SegmentPos × UInt64)}
    (hnodup : (l.map Prod.fst).Nodup)
    (hstored : ∀ e ∈ l, ∃ k v, s.item e.1 = some (k, v) ∧ e.2 = hash k)
    (hall : ∀ pos, s.item pos ≠ none → pos ∈ l.map Prod.fst) :
    ∃ items, drain s l = some items ∧ unhashed items = s.contents ∧ ∀ e ∈ items,
    e.2.2 = hash e.1 := by
  induction l generalizing s with
  | nil =>
    refine ⟨[], rfl, ?_, by simp⟩
    refine (contents_eq_zero fun pos => ?_).symm
    by_contra hne
    simpa using hall pos hne
  | cons e l ih =>
    obtain ⟨pos, hh⟩ := e
    obtain ⟨k, v, hi, rfl⟩ := hstored (pos, hh) (List.mem_cons_self ..)
    rw [List.map_cons, List.nodup_cons] at hnodup
    obtain ⟨s', hdel, hwf, hitem⟩ := Segment.delete_item h hi (hash k)
    have hbusy : (s.buckets pos.bucketIdx).slots.busy.getLsbD pos.slotIdx.val = true := by
      have hocc := (h pos.bucketIdx).item_isSome pos.slotIdx
      exact hocc.symm.trans (Option.isSome_iff_exists.mpr ⟨_, hi⟩)
    obtain ⟨items, hd, hc, hh⟩ := ih hwf hnodup.2 (by
      intro e hmem
      obtain ⟨k', v', hi', hh'⟩ := hstored e (List.mem_cons_of_mem _ hmem)
      have hne : e.1 ≠ pos := fun heq => hnodup.1 (List.mem_map.mpr ⟨e, hmem, heq⟩)
      exact ⟨k', v', by rw [hitem, update_of_ne hne]; exact hi', hh'⟩) (by
      intro p hp
      rw [hitem] at hp
      by_cases heq : p = pos
      · subst heq
        rw [update_self] at hp
        exact absurd rfl hp
      · rw [update_of_ne heq] at hp
        exact (List.mem_cons.mp (hall p hp)).resolve_left heq)
    refine ⟨(k, v, hash k) :: items, ?_, ?_, ?_⟩
    · rw [drain, hbusy, if_neg (by decide), hdel]
      simp only
      rw [hd]
      rfl
    · have hcons : s.contents = (k, v) ::ₘ s'.contents := by
        refine Segment.contents_fill pos (by rw [hitem, update_self]) ?_
        rw [hitem, update_idem, ← hi, update_eq_self]
      rw [hcons, ← hc]
      rfl
    · intro e hmem
      rcases List.mem_cons.mp hmem with rfl | hmem
      · rfl
      · exact hh e hmem

/-- The positions `segItems` drains, before they are sorted. -/
def found (hash : K → UInt64) (s : Segment K V) : List (SegmentPos × UInt64) :=
  s.positions.filterMap fun pos =>
    ((s.buckets pos.bucketIdx).keys pos.slotIdx).map fun k => (pos, hash k)

theorem mem_found (h : ∀ i, (s.buckets i).WF) {e : SegmentPos × UInt64} :
    e ∈ found hash s ↔ ∃ k v, s.item e.1 = some (k, v) ∧ e.2 = hash k := by
  have hkey : ∀ pos : SegmentPos,
      (s.buckets pos.bucketIdx).keys pos.slotIdx = (s.item pos).map Prod.fst :=
    fun pos => (h _).keys_eq_item _
  obtain ⟨pos, hh⟩ := e
  simp only [found, hkey, List.mem_filterMap, Option.map_map, Option.map_eq_some_iff,
    comp_apply]
  constructor
  · rintro ⟨p, _, ⟨k, v⟩, hkv, heq⟩
    cases heq
    exact ⟨k, v, hkv, rfl⟩
  · rintro ⟨k, v, hkv, rfl⟩
    refine ⟨pos, ?_, (k, v), hkv, rfl⟩
    rw [Segment.positions_eq h, List.mem_filter]
    exact ⟨Segment.mem_allPositions pos, Option.isSome_iff_exists.mpr ⟨_, hkv⟩⟩

theorem nodup_found (h : ∀ i, (s.buckets i).WF) : ((found hash s).map Prod.fst).Nodup := by
  rw [found, List.map_filterMap]
  refine List.Nodup.filterMap ?_
    (by rw [Segment.positions_eq h]; exact Segment.nodup_allPositions.filter _)
  intro p p' q hp hp'
  simp only [Option.map_map, Option.mem_def, Option.map_eq_some_iff, comp_apply] at hp hp'
  obtain ⟨_, _, rfl⟩ := hp
  obtain ⟨_, _, rfl⟩ := hp'
  rfl

theorem nodup_sorted_found (h : ∀ i, (s.buckets i).WF) :
    (((found hash s).insertionSort DescLe).map Prod.fst).Nodup :=
  ((List.perm_insertionSort DescLe _).map Prod.fst).nodup_iff.mpr (nodup_found h)

theorem mem_sorted_found (h : ∀ i, (s.buckets i).WF) {e : SegmentPos × UInt64} :
    e ∈ (found hash s).insertionSort DescLe ↔ ∃ k v, s.item e.1 = some (k, v) ∧ e.2 = hash k :=
  (List.perm_insertionSort DescLe _).mem_iff.trans (mem_found h)

theorem segItems_spec (h : ∀ i, (s.buckets i).WF) :
    ∃ items, segItems hash s = some items ∧ unhashed items = s.contents ∧ ∀ e ∈ items,
    e.2.2 = hash e.1 := by
  refine drain_spec h (nodup_sorted_found h) (fun e he => (mem_sorted_found h).mp he) ?_
  intro pos hpos
  obtain ⟨⟨k, v⟩, hkv⟩ := Option.ne_none_iff_exists'.mp hpos
  exact List.mem_map.mpr ⟨(pos, hash k), (mem_sorted_found h).mpr ⟨k, v, hkv, rfl⟩, rfl⟩

theorem reinsert_spec (h : t.WF hash) {items : List (K × V × UInt64)}
    (hh : ∀ e ∈ items, e.2.2 = hash e.1) (hrun : reinsert t items = some t') :
    t'.WF hash ∧ (t.Reachable hash → t'.Reachable hash) ∧
      t'.contents = unhashed items + t.contents := by
  induction items generalizing t with
  | nil =>
    cases hrun
    exact ⟨h, id, (zero_add _).symm⟩
  | cons e items ih =>
    obtain ⟨k, v, hk⟩ := e
    obtain rfl : hk = hash k := hh _ (List.mem_cons_self ..)
    rw [reinsert] at hrun
    rcases insertNew_spec h k v with ⟨t1, hins, hwf, hreach, hc⟩ | herr
    · rw [hins] at hrun
      obtain ⟨hwf', hr', hc'⟩ := ih hwf (fun e he => hh e (List.mem_cons_of_mem _ he)) hrun
      refine ⟨hwf', fun hr => hr' (hreach hr), ?_⟩
      rw [hc', hc, add_cons, ← cons_add]
      rfl
    · rw [herr] at hrun
      cases hrun

theorem unhashed_flatten (ls : List (List (K × V × UInt64))) :
    unhashed ls.flatten = (ls.map unhashed).sum := by
  induction ls with
  | nil => rfl
  | cons l ls ih =>
    rw [List.flatten_cons, List.map_cons, List.sum_cons, ← ih, unhashed, List.map_append,
      ← coe_add]
    rfl

/-- Collecting from several segments collects from each. -/
theorem mapM_segItems {α : Type} (f : α → Segment K V) (h : ∀ a i, ((f a).buckets i).WF)
    (l : List α) :
    ∃ items, (l.mapM fun a => segItems hash (f a)) = some items ∧
      (items.map unhashed).sum = (l.map fun a => (f a).contents).sum ∧
      ∀ e ∈ items.flatten, e.2.2 = hash e.1 := by
  induction l with
  | nil => exact ⟨[], rfl, rfl, by simp⟩
  | cons a l ih =>
    obtain ⟨items, hm, hsum, hh⟩ := ih
    obtain ⟨first, hf, hc, hh'⟩ := segItems_spec (h a)
    refine ⟨first :: items, ?_, ?_, ?_⟩
    · rw [List.mapM_cons, hf, hm]
      rfl
    · rw [List.map_cons, List.map_cons, List.sum_cons, List.sum_cons, hc, hsum]
    · intro e he
      rw [List.flatten_cons, List.mem_append] at he
      exact he.elim (hh' e) (hh e)

/-- Growth keeps the pairs, and after it every key is visible again. -/
theorem grow_spec (h : t.Initialised) (hg : grow hash t = some t') :
    t'.WF hash ∧ t'.Reachable hash ∧ t'.contents = t.contents := by
  obtain ⟨items, hm, hsum, hh⟩ := mapM_segItems t.segments h (List.finRange t.numSegments)
  rw [grow, hm] at hg
  obtain ⟨hwf, hr, hc⟩ := reinsert_spec (wf_fresh _ _) hh hg
  refine ⟨hwf, hr (reachable_fresh _ _), ?_⟩
  rw [hc, contents_fresh, add_zero, unhashed_flatten, hsum, contents, Fin.sum_univ_def]

theorem insertNoDup_spec (h : t.WF hash) {fuel : Nat}
    (hrun : insertNoDup hash t k v fuel = some t') :
    t'.WF hash ∧ (t.Reachable hash → t'.Reachable hash) ∧ t'.contents = (k, v) ::ₘ t.contents := by
  induction fuel generalizing t with
  | zero => cases hrun
  | succ fuel ih =>
    rw [insertNoDup] at hrun
    rcases insertNew_spec h k v with ⟨t1, hins, hwf, hreach, hc⟩ | herr
    · rw [hins] at hrun
      cases hrun
      exact ⟨hwf, hreach, hc⟩
    · rw [herr] at hrun
      simp only at hrun
      cases hg : grow hash t with
      | none =>
        rw [hg] at hrun
        cases hrun
      | some t1 =>
        rw [hg] at hrun
        obtain ⟨hwf, hreach, hc⟩ := grow_spec h.initialised hg
        obtain ⟨hwf', hreach', hc'⟩ := ih hwf hrun
        exact ⟨hwf', fun _ => hreach' hreach, by rw [hc', hc]⟩

/-! ## Operations -/

theorem WF.values_eq (h : t.WF hash) (hi : (t.segments sid).item pos = some (k, v)) :
    ((t.segments sid).buckets pos.bucketIdx).values pos.slotIdx = some v := by
  rw [((h.segment sid).slots pos.bucketIdx).values_eq_item]
  exact congrArg (Option.map Prod.snd) hi

/-- `t` represents `m`: the stored pairs are those of the map. -/
structure Represents (hash : K → UInt64) (t : DashTable K V) (m : Finmap fun _ : K => V) : Prop
    extends WF hash t where
  contents : t.contents = pairs m

theorem represents_fresh (n : Nat) (hn : 0 < n) : (fresh n hn : DashTable K V).Represents hash ∅ :=
  ⟨wf_fresh n hn, contents_fresh n hn⟩

variable [DecidableEq K]

variable {m : Finmap fun _ : K => V}

theorem Represents.lookup_of_item (h : t.Represents hash m)
    (hi : (t.segments sid).item pos = some (k, v)) : m.lookup k = some v := by
  rw [← mem_pairs, ← h.contents]
  exact mem_contents.mpr ⟨sid, pos, hi⟩

theorem Represents.item_of_lookup (h : t.Represents hash m) (hl : m.lookup k = some v) :
    ∃ pos, (t.segments (t.segId (hash k))).item pos = some (k, v) := by
  rw [← mem_pairs, ← h.contents] at hl
  obtain ⟨sid, pos, hi⟩ := mem_contents.mp hl
  obtain rfl := h.routed sid pos k v hi
  exact ⟨pos, hi⟩

theorem Represents.locate_some (h : t.Represents hash m) (hloc : t.locate hash k = some pos) :
    ∃ v, (t.segments (t.segId (hash k))).item pos = some (k, v) ∧ m.lookup k = some v := by
  obtain ⟨⟨k', v, hi, heq⟩, _⟩ := Segment.find_some (h.segment _).toBucketsWF hloc
  obtain rfl : k' = k := beq_iff_eq.mp heq
  exact ⟨v, hi, h.lookup_of_item hi⟩

/-- A reachable table finds every key it stores. -/
theorem Represents.locate_isSome (h : t.Represents hash m) (hr : t.Reachable hash)
    (hl : m.lookup k = some v) : (t.locate hash k).isSome = true := by
  obtain ⟨pos, hi⟩ := h.item_of_lookup hl
  have hp := (h.segment (t.segId (hash k))).placed pos k v hi
  refine Segment.find_isSome (h.segment _).toBucketsWF hi (beq_self_eq_true k) ?_
  rcases hp with hp | hp | ⟨⟨i, hb⟩, htag⟩
  · exact Or.inl hp
  · exact Or.inr (Or.inl hp)
  · refine Or.inr (Or.inr ⟨i, hb, htag, ?_⟩)
    obtain ⟨b, slot⟩ := pos
    cases hb
    exact hr _ _ _ (Segment.mem_stashRefs.mpr ⟨slot, k, v, hi, rfl, rfl⟩)

theorem Represents.locate_none (h : t.Represents hash m) (hr : t.Reachable hash)
    (hloc : t.locate hash k = none) : m.lookup k = none := by
  by_contra hne
  obtain ⟨v, hv⟩ := Option.ne_none_iff_exists'.mp hne
  have hsome := h.locate_isSome hr hv
  rw [hloc] at hsome
  cases hsome

theorem Represents.find_eq (h : t.Represents hash m) (hr : t.Reachable hash) (k : K) :
    t.find hash k = m.lookup k := by
  rw [find]
  cases hloc : t.locate hash k with
  | none => rw [h.locate_none hr hloc, Option.bind_none]
  | some pos =>
    obtain ⟨v, hi, hl⟩ := h.locate_some hloc
    rw [hl, Option.bind_some, h.values_eq hi]

/-- A write to the value of a stored key is an update of the map. -/
theorem Represents.setValue (h : t.Represents hash m) (hr : t.Reachable hash)
    (hi : (t.segments (t.segId (hash k))).item pos = some (k, v)) (value : V) :
    (t.setValue (t.segId (hash k)) pos value).Represents hash (m.insert k value) ∧
      (t.setValue (t.segId (hash k)) pos value).Reachable hash := by
  obtain ⟨hwf, hreach, rest, hc, hc'⟩ := Segment.setValue_spec (h.segment _) hi value rfl
  have hcont := contents_eq t (t.segId (hash k))
  have hpairs := pairs_of_lookup (h.lookup_of_item hi)
  have hrest : rest + t.others (t.segId (hash k)) = pairs (m.erase k) := by
    rw [← h.contents, hcont, hc, cons_add, cons_inj_right] at hpairs
    exact hpairs
  have hnew : (t.setValue (t.segId (hash k)) pos value).contents = pairs (m.insert k value) := by
    rw [DashTable.setValue, contents_setSegment, hc', pairs_replace, cons_add, hrest]
  refine ⟨⟨h.toWF.setSegment (n := t.size) hwf ?_ ?_, hnew⟩, hr.setSegment (hreach (hr _)) t.size⟩
  · intro kv hmem
    rw [hc'] at hmem
    rcases mem_cons.mp hmem with rfl | hmem
    · rfl
    · exact h.keys_routed _ kv (by rw [hc]; exact mem_cons_of_mem hmem)
  · rw [h.size, hcont, hc, hc', cons_add, cons_add, card_cons,
      card_cons]

/-- The abstract effect of `find_mut` and a write: the old value is replaced. -/
def adjust (m : Finmap fun _ : K => V) (k : K) (f : V → V) : Finmap fun _ : K => V :=
  match m.lookup k with
  | some old => m.insert k (f old)
  | none => m

theorem Represents.findMut (h : t.Represents hash m) (hr : t.Reachable hash) (k : K) (f : V → V) :
    (t.findMut hash k f).1.Represents hash (adjust m k f) ∧ (t.findMut hash k f).1.Reachable hash ∧
      (t.findMut hash k f).2 = m.lookup k := by
  rw [DashTable.findMut, adjust]
  cases hloc : t.locate hash k with
  | none =>
    have hl := h.locate_none hr hloc
    rw [hl]
    exact ⟨h, hr, rfl⟩
  | some pos =>
    obtain ⟨v, hi, hl⟩ := h.locate_some hloc
    obtain ⟨hrep, hreach⟩ := h.setValue hr hi (f v)
    simp only [h.values_eq hi, hl]
    exact ⟨hrep, hreach, trivial⟩

theorem Represents.insert (h : t.Represents hash m) (hr : t.Reachable hash) {old : Option V}
    (hrun : t.insert hash k v = some (t', old)) :
    t'.Represents hash (m.insert k v) ∧ t'.Reachable hash ∧ old = m.lookup k := by
  rw [DashTable.insert] at hrun
  cases hloc : t.locate hash k with
  | some pos =>
    obtain ⟨v0, hi, hl⟩ := h.locate_some hloc
    rw [hloc] at hrun
    simp only [h.values_eq hi, Option.some.injEq, Prod.mk.injEq] at hrun
    obtain ⟨rfl, rfl⟩ := hrun
    obtain ⟨hrep, hreach⟩ := h.setValue hr hi v
    exact ⟨hrep, hreach, hl.symm⟩
  | none =>
    have hl := h.locate_none hr hloc
    rw [hloc] at hrun
    simp only at hrun
    -- a new key: whichever way it is stored, the pairs gain `(k, v)`
    have hdone : ∀ t1 : DashTable K V, t1.WF hash → t1.contents = (k, v) ::ₘ t.contents →
        t1.Represents hash (m.insert k v) := by
      intro t1 hwf hc
      exact ⟨hwf, by rw [hc, h.contents, pairs_insert hl]⟩
    rcases insertNew_spec h.toWF k v with ⟨t1, hins, hwf, hreach, hc⟩ | herr
    · rw [hins] at hrun
      cases hrun
      exact ⟨hdone _ hwf hc, hreach hr, hl.symm⟩
    · rw [herr] at hrun
      simp only at hrun
      cases hg : grow hash t with
      | none =>
        rw [hg] at hrun
        cases hrun
      | some t1 =>
        rw [hg] at hrun
        obtain ⟨t2, hnd, heq⟩ := Option.map_eq_some_iff.mp hrun
        cases heq
        obtain ⟨hwf1, hr1, hc1⟩ := grow_spec h.toWF.initialised hg
        obtain ⟨hwf2, hr2, hc2⟩ := insertNoDup_spec hwf1 hnd
        exact ⟨hdone _ hwf2 (by rw [hc2, hc1]), hr2 hr1, hl.symm⟩

end Hashed

end DashTable

end ShrikeDb.Dash
