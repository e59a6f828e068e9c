import ShrikeDb.Dash.Occupancy

/-! Splitting a segment (`Segment::split`). The items with the new bit are taken out one by
one and put into the other segment, or back where that is full. A position that is still to
be moved stays busy, so nothing is put there, and the slot an item was just taken from is one
it may be put back to: no item is dropped, whatever the stash metadata says. -/

namespace ShrikeDb.Dash

open Function

/-! ## The split -/

/-- The two segments while items are moved, and the items that found no place. -/
structure Halves (K V : Type) where
  source : Segment K V
  dest : Segment K V
  dropped : List (K × V)

/-- Whether a hash has the bit that a local depth adds. -/
def splitBit (depth : UInt8) (hash : UInt64) : Bool :=
  (hash >>> (64 - depth.toUInt32).toUInt64) &&& 1 == 1

namespace Halves

variable {K V : Type}

/-- Move the item at a position; `none` is a panic. -/
def moveItem (st : Halves K V) (pos : SegmentPos) (hash : UInt64) : Option (Halves K V) :=
  match st.source.delete pos hash with
  | none => none
  | some (source, k, v) =>
    match st.dest.insertNew k v hash with
    | none => none
    | some (.ok (dest, _)) => some { st with source, dest }
    | some (.error (k, v)) =>
      match source.insertNew k v hash with
      | none => none
      | some (.ok (source, _)) => some { st with source }
      | some (.error kv) => some { st with source, dropped := st.dropped ++ [kv] }

def moveItems (st : Halves K V) : List (SegmentPos × UInt64) → Option (Halves K V)
  | [] => some st
  | (pos, hash) :: rest => (st.moveItem pos hash).bind fun st => st.moveItems rest

end Halves

namespace Segment

variable {K V : Type} (hash : K → UInt64)

/-- The items with the bit that the local depth names, in the order they are found. -/
def toMove (s : Segment K V) : List (SegmentPos × UInt64) :=
  (DashTable.found hash s).filter fun e => splitBit s.localDepth e.2

/-- Move the items with the next bit to `dest`. At depth 64 there is no next bit, and
`64 - local_depth` is the panic. -/
def split (s dest : Segment K V) : Option (Halves K V) :=
  if 64 ≤ s.localDepth.toNat then none
  else
    let s := { s with localDepth := s.localDepth + 1 }
    let dest := { dest with localDepth := s.localDepth }
    Halves.moveItems ⟨s, dest, []⟩ ((s.toMove hash).insertionSort DashTable.DescLe)

variable {hash}

/-! ## Segments with exact counts -/

/-- Every bucket is consistent in its slots, and the items are counted. -/
structure Counted (s : Segment K V) : Prop where
  slots : ∀ i, (s.buckets i).WF
  counted : s.itemCount = Multiset.card s.contents

/-- The buckets an item with this hash may sit in. -/
def Seat (h : UInt64) (i : BucketIdx) : Prop :=
  i = regular (homeBucket h) ∨ i = regular (nextBucket (homeBucket h)) ∨ ∃ j, i = stash j

variable {s : Segment K V}

theorem Counted.delete (h : s.Counted) {pos : SegmentPos} {k : K} {v : V}
    (hi : s.item pos = some (k, v)) (h' : UInt64) :
    ∃ s', s.delete pos h' = some (s', k, v) ∧ s'.Counted ∧
      s'.item = update s.item pos none ∧ s.contents = (k, v) ::ₘ s'.contents := by
  obtain ⟨s', hdel, hslots, hitem⟩ := delete_item h.slots hi h'
  have hcontents : s.contents = (k, v) ::ₘ s'.contents := by
    refine contents_fill pos ?_ ?_
    · rw [hitem, update_self]
    · rw [hitem, update_idem, ← hi, update_eq_self]
  refine ⟨s', hdel, ⟨hslots, ?_⟩, hitem, hcontents⟩
  rw [delete_itemCount hdel, h.counted, hcontents, Multiset.card_cons, Nat.add_sub_cancel]

theorem insertAt_slots (h : ∀ i, (s.buckets i).WF) {i : BucketIdx}
    (hfree : (s.buckets i).slots.isFull = false) (key : K) (value : V) (fp : UInt8)
    (probing : Bool) :
    ∃ s' slot, s.insertAt i key value fp probing = some (s', ⟨i, slot⟩) ∧ (∀ j, (s'.buckets j).WF) ∧
      s.item ⟨i, slot⟩ = none ∧ s'.item = update s.item ⟨i, slot⟩ (some (key, value)) := by
  obtain ⟨slot, hslot, hins⟩ := (h i).tryInsert hfree key value fp probing
  obtain ⟨hwf, hitem, -⟩ := (h i).place hslot key value fp probing
  refine ⟨_, slot, by rw [insertAt, hins], ?_, ?_, ?_⟩
  · exact forall_update h i hwf
  · exact (h i).item_eq_none.mpr hslot
  · exact view_update Bucket.item s.buckets hitem

/-- An insertion writes to a free slot the item may sit in, or gives it back. -/
theorem insertNew_slots (h : ∀ i, (s.buckets i).WF) (k : K) (v : V) (hk : UInt64) :
    (∃ s' pos, s.insertNew k v hk = some (.ok (s', pos)) ∧ (∀ i, (s'.buckets i).WF) ∧
      Seat hk pos.bucketIdx ∧ s.item pos = none ∧ s'.item = update s.item pos (some (k, v))) ∨
    s.insertNew k v hk = some (.error (k, v)) := by
  cases hhome : (s.buckets (regular (homeBucket hk))).slots.isFull with
  | false =>
    obtain ⟨s', slot, hins, hs'⟩ := insertAt_slots h hhome k v (fingerprint hk) false
    exact .inl ⟨s', _, by simp [insertNew, hhome, hins], hs'.1, .inl rfl, hs'.2⟩
  | true =>
    cases hnext : (s.buckets (regular (nextBucket (homeBucket hk)))).slots.isFull with
    | false =>
      obtain ⟨s', slot, hins, hs'⟩ := insertAt_slots h hnext k v (fingerprint hk) true
      exact .inl ⟨s', _, by simp [insertNew, hhome, hnext, hins], hs'.1, .inr (.inl rfl), hs'.2⟩
    | true =>
      rcases hfind :
        (List.finRange numStash).find? (fun i => !(s.buckets (stash i)).slots.isFull) with _ | i
      · exact .inr (by simp [insertNew, hhome, hnext, hfind])
      · have hfree := List.find?_some hfind
        rw [Bool.not_eq_true'] at hfree
        obtain ⟨s', slot, hins, hwf, hnone, hitem⟩ :=
          insertAt_slots h hfree k v (fingerprint hk) false
        -- the reference in the home bucket touches no slot
        have hsame := Bucket.setStashPtr_sameSlots (s'.buckets (regular (homeBucket hk)))
          (BitVec.ofNat 8 i.val) (fingerprint hk) false
        refine .inl ⟨_, _, by simp only [insertNew, hhome, hnext, hfind, hins]; rfl, ?_,
          .inr (.inr ⟨i, rfl⟩), hnone, ?_⟩
        · exact forall_update hwf _ (hsame.wf (hwf _))
        · exact (item_modifyBucket s' hsame).trans hitem

theorem Counted.insertNew (h : s.Counted) (k : K) (v : V) (hk : UInt64) :
    (∃ s' pos, s.insertNew k v hk = some (.ok (s', pos)) ∧ s'.Counted ∧ Seat hk pos.bucketIdx ∧
      s.item pos = none ∧ s'.item = update s.item pos (some (k, v)) ∧
      s'.contents = (k, v) ::ₘ s.contents) ∨
    s.insertNew k v hk = some (.error (k, v)) := by
  rcases insertNew_slots h.slots k v hk with ⟨s', pos, hins, hwf, hseat, hnone, hitem⟩ | herr
  · have hcontents : s'.contents = (k, v) ::ₘ s.contents := contents_fill pos hnone hitem
    refine .inl ⟨s', pos, hins, ⟨hwf, ?_⟩, hseat, hnone, hitem, hcontents⟩
    rw [insertNew_itemCount hins, h.counted, hcontents, Multiset.card_cons]
  · exact .inr herr

/-- A free slot in a bucket the item may sit in is room for it. -/
theorem Seat.hasRoom (h : ∀ i, (s.buckets i).WF) {hk : UInt64} {pos : SegmentPos}
    (hseat : Seat hk pos.bucketIdx) (hnone : s.item pos = none) : s.HasRoom hk := by
  have hfree : (s.buckets pos.bucketIdx).slots.isFull = false := by
    rw [← Bool.not_eq_true, (h _).slots.isFull_iff]
    intro hall
    have hocc : (s.buckets pos.bucketIdx).slots.occupied pos.slotIdx = false :=
      (h _).item_eq_none.mp hnone
    rw [hall pos.slotIdx] at hocc
    cases hocc
  rcases hseat with e | e | ⟨j, e⟩
  · exact .inl (e ▸ hfree)
  · exact .inr (.inl (e ▸ hfree))
  · exact .inr (.inr ⟨j, e ▸ hfree⟩)

/-! ## Items that wait to be moved -/

section Waiting

variable {bit : UInt64 → Bool} {orig : SegmentPos → Option (K × V)}

/-- A segment some items are still to be moved from: those are where they were found, and
the items without the bit are where they were at first. -/
structure Waiting (hash : K → UInt64) (bit : UInt64 → Bool) (orig : SegmentPos → Option (K × V))
    (s : Segment K V) (todo : List (SegmentPos × UInt64)) : Prop extends Counted s where
  seated : ∀ pos k v, s.item pos = some (k, v) → Seat (hash k) pos.bucketIdx
  kept : ∀ pos k v, orig pos = some (k, v) → bit (hash k) = false → s.item pos = some (k, v)
  waiting : ∀ e ∈ todo, ∃ k v, s.item e.1 = some (k, v) ∧ e.2 = hash k ∧ bit (hash k) = true
  nodup : (todo.map Prod.fst).Nodup

/-- Taking out the next item leaves a slot it may be put back to. -/
theorem Waiting.delete {s : Segment K V} {pos : SegmentPos} {hk : UInt64}
    {rest : List (SegmentPos × UInt64)} (h : s.Waiting hash bit orig ((pos, hk) :: rest)) :
    ∃ s' k v, s.delete pos hk = some (s', k, v) ∧ hk = hash k ∧ s'.Waiting hash bit orig rest ∧
      s'.HasRoom hk ∧ s.contents = (k, v) ::ₘ s'.contents := by
  obtain ⟨k, v, hi, rfl, hbit⟩ := h.waiting _ (List.mem_cons_self ..)
  obtain ⟨hfresh, hnodup⟩ := List.nodup_cons.mp h.nodup
  obtain ⟨s', hdel, hs', hitem, hcontents⟩ := h.toCounted.delete hi (hash k)
  have hnone : s'.item pos = none := by rw [hitem, update_self]
  have hother : ∀ p, p ≠ pos → s'.item p = s.item p := fun p hne => by rw [hitem, update_of_ne hne]
  refine ⟨s', k, v, hdel, rfl, ⟨hs', ?_, ?_, ?_, hnodup⟩, ?_, hcontents⟩
  · intro p k' v' hp
    refine h.seated p k' v' ((hother p ?_).symm.trans hp)
    rintro rfl
    rw [hnone] at hp
    cases hp
  · intro p k' v' hp hbit'
    have hp' := h.kept p k' v' hp hbit'
    refine (hother p ?_).trans hp'
    -- the item taken out has the bit
    rintro rfl
    rw [hi] at hp'
    cases hp'
    rw [hbit] at hbit'
    cases hbit'
  · intro e he
    have hmem : e.1 ∈ rest.map Prod.fst := List.mem_map_of_mem he
    rw [hother e.1 fun heq => hfresh (heq ▸ hmem)]
    exact h.waiting e (List.mem_cons_of_mem _ he)
  · exact (h.seated pos k v hi).hasRoom hs'.slots hnone

/-- An item put back goes to a free slot, so none that waits is overwritten. -/
theorem Waiting.insertNew {s : Segment K V} {todo : List (SegmentPos × UInt64)}
    (h : s.Waiting hash bit orig todo) {k : K} (v : V) (hroom : s.HasRoom (hash k)) :
    ∃ s' pos, s.insertNew k v (hash k) = some (.ok (s', pos)) ∧ s'.Waiting hash bit orig todo ∧
      s'.contents = (k, v) ::ₘ s.contents := by
  rcases h.toCounted.insertNew k v (hash k) with ⟨s', pos, hins, hs', hseat, hnone, hitem,
    hcontents⟩ | herr
  · have hstays : ∀ p kv, s.item p = some kv → s'.item p = some kv := by
      intro p kv hp
      rw [hitem, update_of_ne, hp]
      rintro rfl
      rw [hnone] at hp
      cases hp
    refine ⟨s', pos, hins, ⟨hs', ?_, ?_, ?_, h.nodup⟩, hcontents⟩
    · intro p k' v' hp
      by_cases e : p = pos
      · rw [e, hitem, update_self] at hp
        cases hp
        exact e ▸ hseat
      · rw [hitem, update_of_ne e] at hp
        exact h.seated p k' v' hp
    · exact fun p k' v' hp hbit => hstays p _ (h.kept p k' v' hp hbit)
    · intro e he
      obtain ⟨k', v', hi, hh⟩ := h.waiting e he
      exact ⟨k', v', hstays _ _ hi, hh⟩
  · exact absurd herr (hroom.insertNew_ne k v)

end Waiting

end Segment

/-! ## Moving the items -/

namespace Halves

variable {K V : Type} {hash : K → UInt64} {bit : UInt64 → Bool} {orig : SegmentPos → Option (K × V)}
  {total : Multiset (K × V)}

/-- While items are moved, the two segments together hold the items of the start. -/
structure Moving (hash : K → UInt64) (bit : UInt64 → Bool) (orig : SegmentPos → Option (K × V))
    (total : Multiset (K × V)) (st : Halves K V) (todo : List (SegmentPos × UInt64)) : Prop where
  source : st.source.Waiting hash bit orig todo
  dest : st.dest.Counted
  contents : st.source.contents + st.dest.contents = total
  dropped : st.dropped = []

/-- The next item is moved, or put back where the other segment is full. -/
theorem Moving.moveItem {st : Halves K V} {pos : SegmentPos} {hk : UInt64}
    {rest : List (SegmentPos × UInt64)} (h : Moving hash bit orig total st ((pos, hk) :: rest)) :
    ∃ st', st.moveItem pos hk = some st' ∧ Moving hash bit orig total st' rest := by
  obtain ⟨s1, k, v, hdel, rfl, hs1, hroom, hcont⟩ := h.source.delete
  have htotal := h.contents
  rcases h.dest.insertNew k v (hash k) with ⟨d1, p, hins, hd1, -, -, -, hcont'⟩ | herr
  · refine ⟨{ st with source := s1, dest := d1 }, by simp only [Halves.moveItem, hdel, hins],
      hs1, hd1, ?_, h.dropped⟩
    rw [← htotal, hcont, hcont', Multiset.add_cons, Multiset.cons_add]
  · obtain ⟨s2, p, hins, hs2, hcont'⟩ := hs1.insertNew v hroom
    refine ⟨{ st with source := s2 }, by simp only [Halves.moveItem, hdel, herr, hins],
      hs2, h.dest, ?_, h.dropped⟩
    rw [← htotal, hcont, hcont']

theorem Moving.moveItems {st : Halves K V} {todo : List (SegmentPos × UInt64)}
    (h : Moving hash bit orig total st todo) :
    ∃ st', st.moveItems todo = some st' ∧ Moving hash bit orig total st' [] := by
  induction todo generalizing st with
  | nil => exact ⟨st, rfl, h⟩
  | cons e rest ih =>
    obtain ⟨st1, hmove, h1⟩ := h.moveItem
    obtain ⟨st', hrun, h'⟩ := ih h1
    exact ⟨st', by rw [Halves.moveItems, hmove]; exact hrun, h'⟩

end Halves

namespace Segment

variable {K V : Type}

/-- Splitting loses and doubles nothing, keeps the counts and leaves what has not the bit
where it was. -/
theorem split_keeps_items (hash : K → UInt64) {s dest : Segment K V} (hs : s.Counted)
    (hd : dest.Counted) (hdepth : s.localDepth.toNat < 64)
    (hseat : ∀ pos k v, s.item pos = some (k, v) → Seat (hash k) pos.bucketIdx) :
    ∃ source dest', split hash s dest = some ⟨source, dest', []⟩ ∧ source.Counted ∧ dest'.Counted ∧
      source.contents + dest'.contents = s.contents + dest.contents ∧
      ∀ pos k v, s.item pos = some (k, v) → splitBit (s.localDepth + 1) (hash k) = false →
        source.item pos = some (k, v) := by
  have hsorted : ∀ e, e ∈ (toMove hash { s with localDepth := s.localDepth + 1 }).insertionSort
      DashTable.DescLe ↔ (∃ k v, s.item e.1 = some (k, v) ∧ e.2 = hash k) ∧
        splitBit (s.localDepth + 1) e.2 = true := by
    intro e
    rw [(List.perm_insertionSort _ _).mem_iff, toMove, List.mem_filter,
      DashTable.mem_found (s := { s with localDepth := s.localDepth + 1 }) hs.slots]
    rfl
  have hstart : Halves.Moving hash (splitBit (s.localDepth + 1)) s.item (s.contents + dest.contents)
      ⟨{ s with localDepth := s.localDepth + 1 }, { dest with localDepth := s.localDepth + 1 }, []⟩
      ((toMove hash { s with localDepth := s.localDepth + 1 }).insertionSort DashTable.DescLe) := by
    refine ⟨⟨⟨hs.slots, hs.counted⟩, hseat, fun _ _ _ h _ => h, ?_, ?_⟩, ⟨hd.slots, hd.counted⟩,
      rfl, rfl⟩
    · intro e he
      obtain ⟨⟨k, v, hi, hh⟩, hbit⟩ := (hsorted e).mp he
      exact ⟨k, v, hi, hh, hh ▸ hbit⟩
    · rw [((List.perm_insertionSort _ _).map Prod.fst).nodup_iff]
      exact (DashTable.nodup_found (s := { s with localDepth := s.localDepth + 1 })
        hs.slots).sublist (List.filter_sublist.map _)
  obtain ⟨⟨source, dest', dropped⟩, hrun, h⟩ := hstart.moveItems
  obtain rfl : dropped = [] := h.dropped
  refine ⟨source, dest', ?_, h.source.toCounted, h.dest, h.contents, h.source.kept⟩
  rw [split, if_neg (Nat.not_le.mpr hdepth)]
  exact hrun

theorem waiting_new (hash : K → UInt64) (d : UInt8) :
    (new d : Segment K V).Waiting hash (fun _ => true) (fun _ => none) [] := by
  refine ⟨⟨(exact_new hash d).slots, (exact_new hash d).counted⟩, ?_, ?_, ?_, List.nodup_nil⟩
  · rintro pos k v ⟨⟩
  · rintro pos k v ⟨⟩
  · rintro e ⟨⟩

theorem split_keeps_items_pair : ∃ s dest source dest' : Segment Nat Nat,
    s.contents = {(1, 10)} ∧ dest.contents = {(2, 20)} ∧
      split (fun k => UInt64.ofNat k <<< 63) s dest = some ⟨source, dest', []⟩ ∧
      source.contents + dest'.contents = {(1, 10)} + {(2, 20)} := by
  obtain ⟨s, p, hs, hsw, hsc⟩ :=
    (waiting_new (fun k => UInt64.ofNat k <<< 63) 0).insertNew (k := 1) 10 (.inl rfl)
  obtain ⟨d, q, hd, hdw, hdc⟩ :=
    (waiting_new (fun k => UInt64.ofNat k <<< 63) 0).insertNew (k := 2) 20 (.inl rfl)
  rw [contents_new] at hsc hdc
  have hdepth : s.localDepth.toNat < 64 := by
    cases hs
    decide
  obtain ⟨source, dest', hsplit, -, -, hcont, -⟩ :=
    split_keeps_items (fun k => UInt64.ofNat k <<< 63) hsw.toCounted hdw.toCounted hdepth hsw.seated
  exact ⟨s, d, source, dest', hsc, hdc, hsplit, by rw [hcont, hsc, hdc]; rfl⟩

end Segment

end ShrikeDb.Dash
