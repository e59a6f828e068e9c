import ShrikeDb.Persistence.Reload
import ShrikeDb.Server.Collections
import ShrikeDb.Server.StoreRefinement

/-! From the shards to the dump and back: `collect_snapshot` on every shard, `save_rdb` on
what was collected, and a later start that loads the file into any number of shards. Each
key comes back on its shard with the bytes of its value and its deadline, if it is a string
and has not lapsed by then, and no other key comes back. -/

namespace ShrikeDb

open Persistence Sharding EngineShardSet List

variable {F : Type}

/-! ## Collecting -/

namespace EngineShard

variable (sh : EngineShard F)

/-- The entries of one database, whose table is iterated in the order `ω`. -/
def snapshotDb (ω : Listing Bytes) (i : DbIndex) : List (SnapshotEntry F) :=
  (entriesOf ω (sh.dbSlice.dbs i).prime).map fun (key, value) =>
    ⟨UInt16.ofNat i.val, key, value, (sh.dbSlice.dbs i).expire.lookup key⟩

def collectSnapshot (ω : DbIndex → Listing Bytes) : ShardSnapshot F :=
  ⟨(finRange 16).flatMap fun i => sh.snapshotDb (ω i) i⟩

theorem mem_snapshotDb {sh : EngineShard F} {ω : Listing Bytes} {i : DbIndex}
    {e : SnapshotEntry F} :
    e ∈ sh.snapshotDb ω i ↔ e.dbIndex = UInt16.ofNat i.val ∧
      sh.dbSlice.cell (i, e.key) = (some e.value, e.expireMs) := by
  rw [snapshotDb, mem_map]
  constructor
  · rintro ⟨⟨key, value⟩, hmem, rfl⟩
    exact ⟨rfl, Prod.ext (Stored.mem_entriesOf ω hmem) rfl⟩
  · rintro ⟨hdb, hcell⟩
    obtain ⟨hvalue, hexpire⟩ := Prod.mk.inj hcell
    refine ⟨(e.key, e.value), ?_, ?_⟩
    · refine mem_filterMap.mpr ⟨e.key, (ω.mem_list _ _).mpr ?_, ?_⟩
      · exact Finmap.mem_keys.mpr (Finmap.mem_iff.mpr ⟨_, hvalue⟩)
      · exact congrArg (Option.map _) hvalue
    · obtain ⟨dbIndex, key, value, expireMs⟩ := e
      simp only at hdb hexpire
      rw [hdb, ← hexpire]

theorem map_key_snapshotDb (ω : Listing Bytes) (i : DbIndex) :
    (sh.snapshotDb ω i).map SnapshotEntry.key = ω.list (sh.dbSlice.dbs i).prime.keys := by
  rw [snapshotDb, map_map, ← Stored.map_fst_entriesOf]
  rfl

end EngineShard

/-- `collect_snapshots` from shards that all answer. -/
def Cluster.snapshots {n : Nat} (c : Cluster F n) (ω : Fin n → DbIndex → Listing Bytes) :
    List (ShardSnapshot F) :=
  (finRange n).map fun s => (c s).collectSnapshot (ω s)

/-- The entries can be written and read back: no length is out of bounds, and what is no string
has no deadline. -/
def Persistence.ShardSnapshot.Restorable (snap : ShardSnapshot F) :
    Prop := ∀ e ∈ snap.entries, e.Fits ∧ e.Clean

/-! ## What the file holds -/

theorem flatMap_single {α : Type} (i : DbIndex) (xs : List α) :
    ((finRange 16).flatMap fun j => if j = i then xs else []) = xs := by
  have hfilter : (finRange 16).filter (fun j => j = i) = [i] := by
    revert i
    decide
  have hblocks : ∀ l : List DbIndex, (l.flatMap fun j => if j = i then xs else []) =
      (l.filter fun j => j = i).flatMap fun _ => xs := by
    intro l
    induction l with
    | nil => rfl
    | cons j l ih =>
      rw [flatMap_cons, ih, filter_cons]
      by_cases hj : j = i <;> simp [hj]
  rw [hblocks, hfilter, flatMap_singleton]

section Collected

variable {n : Nat} {c : Cluster F n} {ω : Fin n → DbIndex → Listing Bytes}

theorem dbEntries_snapshots (i : DbIndex) : dbEntries (c.snapshots ω) (UInt16.ofNat i.val) =
    (finRange n).flatMap fun s => (c s).snapshotDb (ω s i) i := by
  have hinj : ∀ i j : DbIndex, UInt16.ofNat j.val = UInt16.ofNat i.val → j = i := by decide
  rw [dbEntries, Cluster.snapshots, flatMap_map]
  refine flatMap_congr fun s _ => ?_
  -- of the sixteen blocks only the one of the database is kept
  have hblock : ∀ j,
      (((c s).snapshotDb (ω s j) j).filter fun e => e.dbIndex == UInt16.ofNat i.val) =
      if j = i then (c s).snapshotDb (ω s i) i else [] := by
    intro j
    by_cases hj : j = i
    · subst hj
      rw [if_pos rfl, filter_eq_self]
      exact fun e he => beq_iff_eq.mpr (EngineShard.mem_snapshotDb.mp he).1
    · rw [if_neg hj, filter_eq_nil_iff]
      intro e he heq
      exact hj (hinj i j ((EngineShard.mem_snapshotDb.mp he).1.symm.trans (beq_iff_eq.mp heq)))
  rw [EngineShard.collectSnapshot, filter_flatMap]
  simp only [hblock]
  exact flatMap_single i _

/-- Database and key of an entry of the file. -/
def viewAddr (v : UInt32 × Bytes × Bytes × Option UInt64) :
    Addr := (Fin.ofNat 16 v.1.toUInt16.toNat, v.2.1)

theorem addr_ofRdb (e : RdbEntry F) : (LoadEntry.ofRdb e).addr = viewAddr e.view := rfl

theorem ofNat_index (i : DbIndex) :
    Fin.ofNat 16 (UInt16.ofNat i.val).toUInt32.toUInt16.toNat = i := by
  revert i
  decide

/-- The persisted entries, database by database and shard by shard. -/
theorem persisted_snapshots : persisted (c.snapshots ω) = (finRange 16).flatMap fun i =>
    persistedDb (UInt16.ofNat i.val) ((finRange n).flatMap fun s =>
      (c s).snapshotDb (ω s i) i) := by
  have hindices : dbIndices = (finRange 16).map fun i => UInt16.ofNat i.val := by decide
  rw [persisted, persistedOf, hindices, flatMap_map]
  exact flatMap_congr fun i _ => by rw [dbEntries_snapshots]

theorem mem_persisted {v : UInt32 × Bytes × Bytes × Option UInt64} : v ∈ persisted (c.snapshots ω) ↔
    ∃ (s : Fin n) (i : DbIndex) (value : PrimeValue F), value.isString = true ∧
      (c s).dbSlice.cell (i, v.2.1) = (some value, v.2.2.2) ∧
      v = ((UInt16.ofNat i.val).toUInt32, v.2.1, value.asBytes, v.2.2.2) := by
  simp only [persisted_snapshots, persistedDb, mem_flatMap, mem_map, mem_filter, mem_finRange,
    true_and, EngineShard.mem_snapshotDb]
  constructor
  · rintro ⟨i, e, ⟨⟨s, hdb, hcell⟩, hstring⟩, rfl⟩
    exact ⟨s, i, e.value, hstring, hcell, rfl⟩
  · rintro ⟨s, i, value, hstring, hcell, hv⟩
    exact ⟨i, ⟨UInt16.ofNat i.val, v.2.1, value, v.2.2.2⟩, ⟨⟨s, rfl, hcell⟩, hstring⟩, hv.symm⟩

theorem shard_of_cell [NeZero n] (hplaced : c.Placed) {s : Fin n} {a : Addr} {value : PrimeValue F}
    {expireMs : Option UInt64} (h : (c s).dbSlice.cell a = (some value, expireMs)) :
    shard a.2 n = s := by
  refine hplaced s a fun hempty => ?_
  rw [h] at hempty
  cases hempty

theorem shard_of_key [NeZero n] (hplaced : c.Placed) {s : Fin n} {i : DbIndex} {key : Bytes}
    (h : key ∈ ((c s).snapshotDb (ω s i) i).map SnapshotEntry.key) : shard key n = s := by
  obtain ⟨e, he, rfl⟩ := mem_map.mp h
  exact shard_of_cell (a := (i, e.key)) hplaced (EngineShard.mem_snapshotDb.mp he).2

/-- No key of a database is in the file twice. -/
theorem nodup_persisted [NeZero n] (hplaced : c.Placed) :
    ((persisted (c.snapshots ω)).map viewAddr).Nodup := by
  rw [persisted_snapshots, map_flatMap, nodup_flatMap]
  have hmap : ∀ (i : DbIndex) (es : List (SnapshotEntry F)),
      (persistedDb (UInt16.ofNat i.val) es).map viewAddr =
        ((es.filter fun e => e.value.isString).map SnapshotEntry.key).map (Prod.mk i) := by
    intro i es
    rw [persistedDb, map_map, map_map]
    exact map_congr_left fun e _ => congrArg (·, e.key) (ofNat_index i)
  simp only [hmap]
  refine ⟨fun i _ => (nodup_map_iff (Prod.mk_right_injective i)).mpr ?_, ?_⟩
  · refine List.Nodup.sublist (filter_sublist.map _) ?_
    rw [map_flatMap, nodup_flatMap]
    refine ⟨fun s _ => ?_, ?_⟩
    · rw [EngineShard.map_key_snapshotDb]
      exact (ω s i).nodup _
    · refine (nodup_finRange n).imp ?_
      intro s t hst key hs ht
      exact hst ((shard_of_key hplaced hs).symm.trans (shard_of_key hplaced ht))
  · refine (nodup_finRange 16).imp ?_
    intro i j hij a hi hj
    obtain ⟨_, -, rfl⟩ := mem_map.mp hi
    obtain ⟨_, -, heq⟩ := mem_map.mp hj
    exact hij (congrArg Prod.fst heq).symm

end Collected

/-! ## Saving and starting again -/

/-- What a load at time `now` makes of a cell that was saved: a string comes back with its
bytes and its deadline, unless it has lapsed. -/
def Cell.Reloads (now : UInt64) (c c' : Cell F) : Prop :=
  match c.1 with
  | some value =>
    if value.isString = true ∧ c.lapsed now = false then
      ∃ value', c' = (some value', c.2) ∧ value'.isString = true ∧ value'.asBytes = value.asBytes
    else c' = Cell.empty
  | none => c' = Cell.empty

section Restart

variable {n : Nat} [NeZero n] {c : Cluster F n} {ω : Fin n → DbIndex → Listing Bytes}
  {entries : List (RdbEntry F)} {now : UInt64}

/-- The entry of a cell that is in the file. -/
theorem keyspace_of_saved (hplaced : c.Placed)
    (hview : entries.map RdbEntry.view = persisted (c.snapshots ω)) {s : Fin n} {a : Addr}
    {value : PrimeValue F} {expireMs : Option UInt64}
    (hcell : (c s).dbSlice.cell a = (some value, expireMs)) (hstring : value.isString = true)
    (now : UInt64) :
    ∃ e ∈ entries, e.value.asBytes = value.asBytes ∧ keyspace now entries a =
      if Cell.lapsed now (some value, expireMs) then Cell.empty else (some e.value, expireMs) := by
  have hmem : ((UInt16.ofNat a.1.val).toUInt32, a.2, value.asBytes, expireMs) ∈
      entries.map RdbEntry.view := by
    rw [hview, mem_persisted]
    exact ⟨s, a.1, value, hstring, hcell, rfl⟩
  obtain ⟨e, he, hv⟩ := mem_map.mp hmem
  obtain ⟨hdb, hkey, hbytes, hexpire⟩ : e.dbIndex = (UInt16.ofNat a.1.val).toUInt32 ∧ e.key = a.2 ∧
      e.value.asBytes = value.asBytes ∧ e.expireMs = expireMs := by
    simpa [RdbEntry.view] using hv
  have haddr : (LoadEntry.ofRdb e).addr = a := by
    rw [addr_ofRdb, hv]
    exact Prod.ext (ofNat_index a.1) rfl
  have hnodup : (entries.map fun e => (LoadEntry.ofRdb e).addr).Nodup := by
    have hmap : (entries.map fun e => (LoadEntry.ofRdb e).addr) =
        (entries.map RdbEntry.view).map viewAddr := by
      rw [map_map]
      rfl
    rw [hmap, hview]
    exact nodup_persisted hplaced
  refine ⟨e, he, hbytes, ?_⟩
  have hcells : keyspace now entries (LoadEntry.ofRdb e).addr =
      if (LoadEntry.ofRdb e).expired now then Cell.empty else (some e.value, e.expireMs) :=
    keyspace_of_nodup hnodup he
  have hexpired : (LoadEntry.ofRdb e).expired now = Cell.lapsed now (some value, expireMs) := by
    rw [← hexpire]
    rfl
  rw [haddr, hexpire, hexpired] at hcells
  exact hcells

/-- A cell without an entry in the file. -/
theorem keyspace_of_not_saved (hplaced : c.Placed)
    (hview : entries.map RdbEntry.view = persisted (c.snapshots ω)) {a : Addr}
    (hcell : ∀ value, ((c (shard a.2 n)).dbSlice.cell a).1 = some value → value.isString = false) :
    keyspace now entries a = Cell.empty := by
  refine Walk.walk_frame _ _ _ (fun e he haddr => ?_) _
  obtain ⟨entry, hentry, rfl⟩ := mem_map.mp he
  have hmem : entry.view ∈ persisted (c.snapshots ω) := hview ▸ mem_map_of_mem hentry
  obtain ⟨s, i, value, hstring, hsaved, hv⟩ := mem_persisted.mp hmem
  obtain rfl : a = (i, entry.view.2.1) := by
    rw [← haddr, addr_ofRdb, hv]
    exact Prod.ext (ofNat_index i) rfl
  obtain rfl := shard_of_cell hplaced hsaved
  have hnone := hcell value (congrArg Prod.fst hsaved)
  rw [hstring] at hnone
  cases hnone

theorem keyspace_reloads (hplaced : c.Placed)
    (hload : loadAll (saveRdb (c.snapshots ω)).writer = .ok entries)
    (hview : entries.map RdbEntry.view = persisted (c.snapshots ω)) (a : Addr) :
    ((c (shard a.2 n)).dbSlice.cell a).Reloads now (keyspace now entries a) := by
  cases hcell : (c (shard a.2 n)).dbSlice.cell a with
  | mk value expireMs =>
    cases value with
    | none =>
      refine keyspace_of_not_saved hplaced hview fun value hvalue => ?_
      rw [hcell] at hvalue
      cases hvalue
    | some value =>
      rw [Cell.Reloads]
      dsimp only
      cases hstring : value.isString with
      | false =>
        rw [if_neg fun h => Bool.false_ne_true h.1]
        refine keyspace_of_not_saved hplaced hview fun value' hvalue => ?_
        rw [hcell] at hvalue
        cases hvalue
        exact hstring
      | true =>
        obtain ⟨e, he, hbytes, hspace⟩ := keyspace_of_saved hplaced hview hcell hstring now
        rw [hspace]
        cases hlapsed : Cell.lapsed now (some value, expireMs) with
        | true =>
          rw [if_pos rfl, if_neg fun h => Bool.true_eq_false.mp h.2]
        | false =>
          rw [if_neg Bool.false_ne_true, if_pos ⟨rfl, rfl⟩]
          exact ⟨e.value, rfl, isString_of_loadAll hload he, hbytes⟩

/-- A dump of the shards, loaded at a later start into any number of shards, restores every
key that held a string and has not lapsed, with the bytes of its value and its deadline, on the
shard it belongs to, and nothing else. -/
theorem Cluster.reloads {m : Nat} [NeZero m] (hplaced : c.Placed)
    (hsound : ∀ s, ((c s).collectSnapshot (ω s)).Restorable) (now : UInt64) :
    ∃ (entries : List (RdbEntry F)) (d : Cluster F m),
    loadAll (saveRdb (c.snapshots ω)).writer = .ok entries ∧
      EngineShardSet.Loads now entries d ∧ d.Placed ∧
      ∀ a, ((c (shard a.2 n)).dbSlice.cell a).Reloads now ((d (shard a.2 m)).dbSlice.cell a) := by
  have hentry : ∀ snap ∈ c.snapshots ω, ∀ e ∈ snap.entries, e.Fits ∧ e.Clean := by
    intro snap hsnap
    obtain ⟨s, -, rfl⟩ := mem_map.mp hsnap
    exact hsound s
  obtain ⟨entries, hload, hview⟩ : Restores (c.snapshots ω) := restores_of_clean
    (fun snap hsnap e he => (hentry snap hsnap e he).1) (fun snap hsnap e he =>
      (hentry snap hsnap e he).2)
  have hbounds : ∀ e ∈ entries, (LoadEntry.ofRdb e).InBounds now := by
    intro e he
    have hmem : e.view ∈ persisted (c.snapshots ω) := hview ▸ mem_map_of_mem he
    obtain ⟨s, i, value, -, -, hv⟩ := mem_persisted.mp hmem
    have hdb : e.dbIndex = (UInt16.ofNat i.val).toUInt32 := congrArg Prod.fst hv
    have hlt : ∀ i : DbIndex, (UInt16.ofNat i.val).toUInt32.toNat < 16 := by decide
    exact (inBounds_ofRdb (hdb ▸ hlt i) now).1
  obtain ⟨d, hloads, hd, hcells⟩ := exists_loads (n := m) entries hbounds
  refine ⟨entries, d, hload, hloads, hd, fun a => ?_⟩
  rw [← Cluster.cell_union hd now a, hcells]
  exact keyspace_reloads hplaced hload hview a

end Restart

end ShrikeDb
