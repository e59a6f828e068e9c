import ShrikeDb.Dash.Occupancy

/-! Cursor iterations over a table that changes between the pages. A cursor is an index
into the list of all entries, so the removal of an entry that was already returned moves
the rest one place towards the start, and a growth rearranges the list. As long as neither
happens, an iteration returns every key that stays. -/

namespace ShrikeDb.Dash

namespace DashTable

open IndexedLists Function List

variable {K V : Type}

/-! ## Iteration order -/

/-- The pair stored at a position of the table. -/
def itemAt (t : DashTable K V) (p : Fin t.numSegments × SegmentPos) : Option (K × V) :=
  (t.segments p.1).item p.2

variable {hash : K → UInt64}

variable {t : DashTable K V}

theorem WF.iter_filterMap (h : t.WF hash) :
    t.iter = (finRange t.numSegments ×ˢ Segment.allPositions).filterMap t.itemAt := by
  have hseg : ∀ sid, (t.segments sid).positions.filterMap (t.segments sid).item =
      Segment.allPositions.filterMap fun pos => t.itemAt (sid, pos) :=
    fun sid => Segment.filterMap_positions (h.segment sid).slots
  simp only [SProd.sprod, product, filterMap_flatMap, filterMap_map]
  exact flatMap_congr fun sid _ => hseg sid

theorem item_update_segment (t : DashTable K V) {sid : Fin t.numSegments} {s : Segment K V}
    {pos : SegmentPos} {o : Option (K × V)} (hitem : s.item = update (t.segments sid).item pos o) :
    (fun p : Fin t.numSegments × SegmentPos => (update t.segments sid s p.1).item p.2) =
      update t.itemAt (sid, pos) o := by
  funext ⟨sid', pos'⟩
  by_cases e : sid' = sid
  · subst e
    by_cases e' : pos' = pos
    · subst e'
      simp [hitem]
    · have hne : (sid', pos') ≠ (sid', pos) := fun h => e' (Prod.mk.inj h).2
      simp [itemAt, hitem, e', hne]
  · have hne : (sid', pos') ≠ (sid, pos) := fun h => e (Prod.mk.inj h).1
    simp [itemAt, e, hne]

/-- A table that changes in one position has the entries before and after it in place. -/
theorem WF.iter_update (h : t.WF hash) (sid : Fin t.numSegments) (pos : SegmentPos) :
    ∃ a b, t.iter = a ++ (((t.segments sid).item pos).toList ++ b) ∧
      ∀ (s : Segment K V) (o : Option (K × V)) (n : Nat),
        s.item = update (t.segments sid).item pos o →
        ({ t.setSegment sid s with size := n } : DashTable K V).WF hash →
        ({ t.setSegment sid s with size := n } : DashTable K V).iter = a ++ (o.toList ++ b) := by
  have hnodup : (finRange t.numSegments ×ˢ Segment.allPositions).Nodup :=
    (nodup_finRange _).product Segment.nodup_allPositions
  have hmem : (sid, pos) ∈ finRange t.numSegments ×ˢ Segment.allPositions :=
    pair_mem_product.mpr ⟨mem_finRange sid, Segment.mem_allPositions pos⟩
  obtain ⟨a, b, hab⟩ := filterMap_update hnodup hmem t.itemAt
  refine ⟨a, b, ?_, fun s o n hitem hwf => ?_⟩
  · have hself : update t.itemAt (sid, pos) ((t.segments sid).item pos) = t.itemAt :=
      update_eq_self ..
    rw [h.iter_filterMap, ← hab, hself]
  · rw [hwf.iter_filterMap, ← hab, ← item_update_segment t hitem]
    rfl

/-- The keys in iteration order. -/
def keys (t : DashTable K V) : List K := t.iter.map Prod.fst

theorem WF.mem_keys (h : t.WF hash) {k : K} :
    k ∈ t.keys ↔ ∃ v, (k, v) ∈ t.contents := by
  simp only [keys, mem_map, ← h.iter_eq, Multiset.mem_coe]
  constructor
  · rintro ⟨⟨_, v⟩, hmem, rfl⟩
    exact ⟨v, hmem⟩
  · rintro ⟨v, hmem⟩
    exact ⟨(k, v), hmem, rfl⟩

theorem Exact.keys_setValue (h : t.Exact hash) {sid : Fin t.numSegments} {pos : SegmentPos} {k : K}
    {v : V} (hi : (t.segments sid).item pos = some (k, v)) (value : V) :
    (t.setValue sid pos value).keys = t.keys := by
  obtain ⟨a, b, hiter, hnew⟩ := h.toWF.iter_update sid pos
  have hiter' := hnew _ _ t.size (Segment.setValue_item (h.segment sid).toBucketsWF hi value)
    (h.setValue hi value).toWF
  rw [hi] at hiter
  rw [keys, keys, hiter]
  exact (congrArg _ hiter').trans (by simp)

section Operations

variable [DecidableEq K]

variable {t t' : DashTable K V} {old : Option V}

/-- Overwriting moves nothing. -/
theorem Exact.keys_insert_located (h : t.Exact hash) {k : K} {v : V}
    (hloc : (t.locate hash k).isSome = true) (hins : t.insert hash k v = some (t', old)) :
    t'.keys = t.keys := by
  obtain ⟨pos, hpos⟩ := Option.isSome_iff_exists.mp hloc
  obtain ⟨v0, hi⟩ := h.item_of_locate hpos
  rw [DashTable.insert, hpos] at hins
  cases hins
  exact h.keys_setValue hi v

/-- Insertion without growth adds the key somewhere and keeps the order of the others. -/
theorem Exact.keys_insert_room (h : t.Exact hash) {k : K} {v : V} (hloc : t.locate hash k = none)
    (hroom : (t.segments (t.segId (hash k))).HasRoom (hash k))
    (hins : t.insert hash k v = some (t', old)) :
    ∃ a b, t.keys = a ++ b ∧ t'.keys = a ++ k :: b := by
  have hexact := h.insert hins
  rcases Segment.insertNew_spec (h.segment (t.segId (hash k))) k v with ⟨s, pos, hnew, _⟩ | herr
  · obtain ⟨hfree, hitem⟩ := Segment.insertNew_item (h.segment _).toBucketsWF hnew
    obtain ⟨a, b, hiter, hset⟩ := h.toWF.iter_update (t.segId (hash k)) pos
    rw [DashTable.insert, hloc, DashTable.insertNew, hnew] at hins
    cases hins
    refine ⟨a.map Prod.fst, b.map Prod.fst, ?_, ?_⟩
    · rw [keys, hiter, hfree]
      simp
    · rw [keys, hset s _ _ hitem hexact.toWF]
      simp
  · exact absurd herr (hroom.insertNew_ne k v)

theorem Exact.mem_keys_insert (h : t.Exact hash) {k : K} {v : V}
    (hins : t.insert hash k v = some (t', old)) {k' : K} (hmem : k' ∈ t.keys) : k' ∈ t'.keys := by
  cases hloc : t.locate hash k with
  | some pos =>
    rw [h.keys_insert_located (by rw [hloc]; rfl) hins]
    exact hmem
  | none =>
    obtain ⟨hwf, _, hc⟩ := insertNoDup_spec h.toWF (insert_of_absent hloc hins)
    obtain ⟨v', hv'⟩ := h.toWF.mem_keys.mp hmem
    exact hwf.mem_keys.mpr ⟨v', by rw [hc]; exact Multiset.mem_cons_of_mem hv'⟩

theorem Exact.keys_remove (h : t.Exact hash) {k : K} (hrem : t.remove hash k = some (t', old)) :
    t'.keys = t.keys ∨ ∃ a b, t.keys = a ++ k :: b ∧ t'.keys = a ++ b := by
  rw [DashTable.remove] at hrem
  split at hrem
  · cases hrem
    exact Or.inl rfl
  · rename_i pos hloc
    obtain ⟨v, hi⟩ := h.item_of_locate hloc
    obtain ⟨_, _, s, hdel, hexact, he⟩ := h.delete hi
    obtain ⟨a, b, hiter, hset⟩ := h.toWF.iter_update (t.segId (hash k)) pos
    rw [hdel] at hrem
    cases hrem
    refine Or.inr ⟨a.map Prod.fst, b.map Prod.fst, ?_, ?_⟩
    · rw [keys, hiter, hi]
      simp
    · rw [keys, hset s _ _ he.item hexact.toWF]
      simp

end Operations

/-! ## Pages -/

/-- A page that does not end before it starts has an entry. -/
theorem lt_add_toNat {c count : UInt64} (hpos : 0 < count) (h : c.toNat ≤ (c + count).toNat) :
    c.toNat < (c + count).toNat := by
  have hcount : 0 < count.toNat := UInt64.lt_iff_toNat_lt.mp hpos
  have hlt := count.toNat_lt
  rw [UInt64.toNat_add] at h ⊢
  omega

/-- A page and what its cursor leaves to come are what was to come. -/
theorem scan_covers {cursor next : Cursor} {count : UInt64} (hpos : 0 < count) {page : List (K × V)}
    (h : t.scan cursor count = some (page, next)) {k : K}
    (hk : k ∈ t.keys.drop cursor.value.toNat) : k ∈ page.map Prod.fst ∨
      (next.isDone = false ∧ k ∈ t.keys.drop next.value.toNat) := by
  simp only [scan] at h
  rw [keys, ← map_drop] at hk
  split at h
  · rename_i hend
    rw [drop_of_length_le hend] at hk
    cases hk
  · rename_i hlt
    split at h
    · cases h
    · rename_i hle
      cases h
      have hstop := lt_add_toNat hpos (c := cursor.value) (by omega)
      have hsize := (cursor.value + count).toNat_lt
      generalize hs : min (cursor.value + count).toNat t.iter.length = stop at hle ⊢
      rw [← take_append_drop (stop - cursor.value.toNat) (t.iter.drop cursor.value.toNat),
        map_append, drop_drop, Nat.add_sub_cancel' (by omega)] at hk
      rcases mem_append.mp hk with hk | hk
      · exact Or.inl hk
      · right
        split
        · rename_i hend
          rw [drop_of_length_le hend] at hk
          cases hk
        · have hval : (UInt64.ofNat stop).toNat = stop := UInt64.toNat_ofNat_of_lt' (by
            rw [UInt64.size]
            omega)
          have hnonzero : stop ≠ (0 : UInt64).toNat := by
            change stop ≠ 0
            omega
          refine ⟨?_, ?_⟩
          · rw [Cursor.isDone, beq_eq_false_iff_ne, ne_eq, ← UInt64.toNat_inj, hval]
            exact hnonzero
          · rw [hval, keys, ← map_drop]
            exact hk

/-! ## Iterations -/

/-- An iteration under way: the table, the cursor the last page returned, the entries
returned so far, and whether a page returned the cursor that ends the iteration. -/
structure Iteration (K V : Type) where
  table : DashTable K V
  cursor : Cursor
  returned : List (K × V)
  finished : Bool

inductive IterationStep (K V : Type)
  | scan (count : UInt64) (hpos : 0 < count)
  | insert (k : K) (v : V)
  | remove (k : K)

namespace Iteration

def start (t : DashTable K V) : Iteration K V := ⟨t, .done, [], false⟩

/-- Index of the first entry the next page returns. -/
def index (it : Iteration K V) : Nat := it.cursor.value.toNat

variable [DecidableEq K]

section Hashed

variable (hash : K → UInt64)

/-- One call. A page is asked for only while the iteration is not finished. -/
def step (it : Iteration K V) : IterationStep K V → Option (Iteration K V)
  | .scan count _ =>
    if it.finished then none
    else (it.table.scan it.cursor count).map fun (page, next) =>
      { it with cursor := next, returned := it.returned ++ page, finished := next.isDone }
  | .insert k v => (it.table.insert hash k v).map fun (t, _) => { it with table := t }
  | .remove k => (it.table.remove hash k).map fun (t, _) => { it with table := t }

def run (it : Iteration K V) (steps : List (IterationStep K V)) : Option (Iteration K V) :=
  steps.foldlM (step hash) it

/-- A call leaves the entries to come where the cursor finds them: it removes no entry before
the cursor, and once a page has been returned it makes the table grow no more. -/
def Keeps (it : Iteration K V) : IterationStep K V → Prop
  | .scan _ _ => True
  | .insert k _ => it.cursor = .done ∨ (it.table.locate hash k).isSome = true ∨
      (it.table.segments (it.table.segId (hash k))).HasRoom (hash k)
  | .remove k => k ∉ it.table.keys.take it.index

instance decidableKeeps (it : Iteration K V) (st : IterationStep K V) :
    Decidable (it.Keeps hash st) := by
  cases st <;> (unfold Keeps; infer_instance)

/-- Every call of a run keeps the entries to come. -/
def Steady (it : Iteration K V) : List (IterationStep K V) → Prop
  | [] => True
  | st :: rest => it.Keeps hash st ∧ ∀ it', it.step hash st = some it' → Steady it' rest

instance decidableSteady : (it : Iteration K V) → (steps : List (IterationStep K V)) →
    Decidable (it.Steady hash steps)
  | _, [] => isTrue trivial
  | it, st :: rest =>
    match h : it.step hash st with
    | none => decidable_of_iff (it.Keeps hash st) (by simp [Steady, h])
    | some it' =>
      have := decidableSteady it' rest
      decidable_of_iff (it.Keeps hash st ∧ it'.Steady hash rest) (by simp [Steady, h])

end Hashed

/-! ## Runs of an iteration -/

/-- The key has been returned or is still to come. -/
def Covers (it : Iteration K V) (k : K) : Prop :=
  k ∈ it.returned.map Prod.fst ∨ (it.finished = false ∧ k ∈ it.table.keys.drop it.index)

variable {hash : K → UInt64}

variable {it it' : Iteration K V} {k : K}

theorem step_exact {st : IterationStep K V} (h : it.table.Exact hash)
    (hstep : it.step hash st = some it') : it'.table.Exact hash := by
  cases st with
  | scan count hpos =>
    rw [step] at hstep
    split at hstep
    · cases hstep
    · obtain ⟨r, _, heq⟩ := Option.map_eq_some_iff.mp hstep
      cases heq
      exact h
  | insert k v =>
    obtain ⟨r, hins, heq⟩ := Option.map_eq_some_iff.mp hstep
    cases heq
    exact h.insert hins
  | remove k =>
    obtain ⟨r, hrem, heq⟩ := Option.map_eq_some_iff.mp hstep
    cases heq
    exact h.remove hrem

theorem step_covers_scan {count : UInt64} {hpos : 0 < count}
    (hstep : it.step hash (.scan count hpos) = some it') (hk : it.Covers k) : it'.Covers k := by
  rw [step] at hstep
  split at hstep
  · cases hstep
  · obtain ⟨⟨page, next⟩, hscan, heq⟩ := Option.map_eq_some_iff.mp hstep
    cases heq
    rw [Covers, map_append, mem_append]
    rcases hk with hk | ⟨_, hk⟩
    · exact Or.inl (Or.inl hk)
    · rcases scan_covers hpos hscan hk with hk | hk
      · exact Or.inl (Or.inr hk)
      · exact Or.inr hk

theorem step_covers_insert {v : V} (h : it.table.Exact hash) (hkeep : it.Keeps hash (.insert k v))
    (hstep : it.step hash (.insert k v) = some it') {k' : K} (hk : it.Covers k') :
    it'.Covers k' := by
  obtain ⟨⟨t, old⟩, hins, heq⟩ := Option.map_eq_some_iff.mp hstep
  cases heq
  refine hk.imp_right fun ⟨hfin, hmem⟩ => ⟨hfin, ?_⟩
  change k' ∈ t.keys.drop it.index
  cases hloc : it.table.locate hash k with
  | some pos =>
    rw [h.keys_insert_located (by rw [hloc]; rfl) hins]
    exact hmem
  | none =>
    rcases hkeep with hstart | hfound | hroom
    · rw [index, hstart] at hmem ⊢
      exact h.mem_keys_insert hins hmem
    · rw [hloc] at hfound
      cases hfound
    · obtain ⟨a, b, hkeys, hkeys'⟩ := h.keys_insert_room hloc hroom hins
      rw [hkeys] at hmem
      rw [hkeys']
      exact mem_drop_of_insert hmem

theorem step_covers_remove (h : it.table.Exact hash) (hkeep : it.Keeps hash (.remove k))
    (hstep : it.step hash (.remove k) = some it') {k' : K} (hne : k' ≠ k) (hk : it.Covers k') :
    it'.Covers k' := by
  obtain ⟨⟨t, old⟩, hrem, heq⟩ := Option.map_eq_some_iff.mp hstep
  cases heq
  refine hk.imp_right fun ⟨hfin, hmem⟩ => ⟨hfin, ?_⟩
  change k' ∈ t.keys.drop it.index
  rcases h.keys_remove hrem with hsame | ⟨a, b, hkeys, hkeys'⟩
  · rw [hsame]
    exact hmem
  · rw [Keeps, hkeys] at hkeep
    rw [hkeys] at hmem
    rw [hkeys']
    -- the removed entry is not one of the entries before the cursor
    have hle : it.index ≤ a.length := by
      by_contra hgt
      refine hkeep (mem_take_iff_getElem.mpr ⟨a.length, ?_, ?_⟩)
      · rw [length_append, length_cons]
        omega
      · simp
    exact mem_drop_of_erase hle hne hmem

theorem step_covers {st : IterationStep K V} (h : it.table.Exact hash) (hkeep : it.Keeps hash st)
    (hstep : it.step hash st = some it') (hstay : st ≠ .remove k) (hk : it.Covers k) :
    it'.Covers k := by
  cases st with
  | scan count hpos => exact step_covers_scan hstep hk
  | insert k1 v1 => exact step_covers_insert h hkeep hstep hk
  | remove k1 => exact step_covers_remove h hkeep hstep (fun e => hstay (by rw [e])) hk

theorem run_covers {steps : List (IterationStep K V)} (h : it.table.Exact hash)
    (hsteady : it.Steady hash steps) (hrun : it.run hash steps = some it')
    (hstay : .remove k ∉ steps) (hk : it.Covers k) : it'.Covers k := by
  induction steps generalizing it with
  | nil =>
    cases hrun
    exact hk
  | cons st steps ih =>
    rw [run, foldlM_cons] at hrun
    obtain ⟨it1, hstep, hrun⟩ := Option.bind_eq_some_iff.mp hrun
    rw [mem_cons, not_or] at hstay
    exact ih (step_exact h hstep) (hsteady.2 it1 hstep) hrun hstay.2
      (step_covers h hsteady.1 hstep (Ne.symm hstay.1) hk)

/-- A finished iteration whose calls keep the entries to come has returned every key that was
there at the start and was not removed. -/
theorem steady_iteration_complete (hash : K → UInt64) (t : DashTable K V) (ht : Reached hash t)
    (steps : List (IterationStep K V)) (it : Iteration K V)
    (hrun : (start t).run hash steps = some it) (hdone : it.finished = true)
    (hsteady : (start t).Steady hash steps) (k : K) (hk : k ∈ t.keys) (hstay : .remove k ∉ steps) :
    k ∈ it.returned.map Prod.fst := by
  have hcovers : it.Covers k := run_covers ht.exact hsteady hrun hstay (Or.inr ⟨rfl, hk⟩)
  rcases hcovers with hret | ⟨hopen, _⟩
  · exact hret
  · rw [hdone] at hopen
    cases hopen

/-- Two keys, of which the first is removed after the first page. -/
theorem removal_hides_key : ∃ (t : DashTable Nat Nat) (steps : List (IterationStep Nat Nat))
    (it : Iteration Nat Nat), Reached UInt64.ofNat t ∧ (start t).run UInt64.ofNat steps = some it ∧
      it.finished = true ∧ 2 ∈ t.keys ∧ IterationStep.remove 2 ∉ steps ∧
      2 ∉ it.returned.map Prod.fst := by
  have hrun : (((withHasher : DashTable Nat Nat).insert UInt64.ofNat 1 10).bind fun r =>
      r.1.insert UInt64.ofNat 2 20).map (fun r => (r.1.keys, ((start r.1).run UInt64.ofNat
        [.scan 1 (by decide), .remove 1, .scan 1 (by decide)]).map fun it =>
          (it.finished, it.returned))) = some ([1, 2], some (true, [(1, 10)])) := by decide +kernel
  obtain ⟨⟨t, old⟩, hins, hres⟩ := Option.map_eq_some_iff.mp hrun
  obtain ⟨⟨t1, old1⟩, hins1, hins2⟩ := Option.bind_eq_some_iff.mp hins
  obtain ⟨hkeys, hit⟩ := Prod.mk.inj hres
  obtain ⟨it, hit, hend⟩ := Option.map_eq_some_iff.mp hit
  obtain ⟨hdone, hret⟩ := Prod.mk.inj hend
  refine ⟨t, _, it, (Reached.new.insert hins1).insert hins2, hit, hdone, ?_, ?_, ?_⟩
  · rw [show t.keys = [1, 2] from hkeys]
    decide
  · simp
  · rw [hret]
    decide

/-- The second key is removed before its page and a third one is inserted. -/
theorem steady_iteration_complete_three : ∃ (t : DashTable Nat Nat) (it : Iteration Nat Nat),
    Reached UInt64.ofNat t ∧ (start t).run UInt64.ofNat [.scan 1 (by decide), .remove 2,
      .insert 3 30, .scan 1 (by decide), .scan 5 (by decide)] = some it ∧
      1 ∈ it.returned.map Prod.fst ∧ 4 ∈ it.returned.map Prod.fst := by
  have hrun : ((((withHasher : DashTable Nat Nat).insert UInt64.ofNat 1 10).bind fun r =>
      r.1.insert UInt64.ofNat 2 20).bind fun r => r.1.insert UInt64.ofNat 4 40).map (fun r =>
        (r.1.keys, decide ((start r.1).Steady UInt64.ofNat [.scan 1 (by decide), .remove 2,
          .insert 3 30, .scan 1 (by decide), .scan 5 (by decide)]),
        ((start r.1).run UInt64.ofNat [.scan 1 (by decide), .remove 2, .insert 3 30,
          .scan 1 (by decide), .scan 5 (by decide)]).map fun it => it.finished)) =
      some ([1, 2, 4], true, some true) := by decide +kernel
  obtain ⟨⟨t, old⟩, hins, hres⟩ := Option.map_eq_some_iff.mp hrun
  obtain ⟨⟨t2, old2⟩, hins, hins3⟩ := Option.bind_eq_some_iff.mp hins
  obtain ⟨⟨t1, old1⟩, hins1, hins2⟩ := Option.bind_eq_some_iff.mp hins
  obtain ⟨hkeys, hres⟩ := Prod.mk.inj hres
  obtain ⟨hsteady, hit⟩ := Prod.mk.inj hres
  obtain ⟨it, hit, hdone⟩ := Option.map_eq_some_iff.mp hit
  have hreached := ((Reached.new.insert hins1).insert hins2).insert hins3
  have hall := steady_iteration_complete UInt64.ofNat t hreached _ it hit hdone
    (of_decide_eq_true hsteady)
  have hkeys' : t.keys = [1, 2, 4] := hkeys
  refine ⟨t, it, hreached, hit, hall 1 ?_ (by simp), hall 4 ?_ (by simp)⟩
  · rw [hkeys']
    decide
  · rw [hkeys']
    decide

end Iteration

end DashTable

end ShrikeDb.Dash
