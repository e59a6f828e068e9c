import ShrikeDb.Lib.Walk
import ShrikeDb.Persistence.RdbLoad
import ShrikeDb.Server.Cluster

/-! Loading a dump into the shards (`EngineShardSet::load_entries` and `load_entries` of
`shard_thread.rs`). Every entry goes to the shard of its key, in the order of the file,
and entries of different keys do not see each other: what the shards hold together is
what one pass over all entries leaves, for any number of shards. -/

namespace ShrikeDb

open Persistence Sharding Function List

variable {F : Type}

structure LoadEntry (F : Type) where
  dbIndex : UInt16
  key : Bytes
  value : PrimeValue F
  expireMs : Option UInt64

namespace LoadEntry

def ofRdb (entry : RdbEntry F) : LoadEntry F :=
  ⟨entry.dbIndex.toUInt16, entry.key, entry.value, entry.expireMs⟩

def expired (now : UInt64) (entry : LoadEntry F) : Bool :=
  match entry.expireMs with
  | some expireMs => expireMs ≤ now
  | none => false

/-- The database that is indexed; there is none beyond the sixteen. -/
def slot (entry : LoadEntry F) : Option DbIndex :=
  if h : entry.dbIndex.toNat < 16 then some ⟨entry.dbIndex.toNat, h⟩ else none

end LoadEntry

namespace EngineShard

/-- One round of the loop; `none` is the panic of an index out of bounds. -/
def loadEntry (now : UInt64) (shard : EngineShard F) (entry : LoadEntry F) :
    Option (EngineShard F) :=
  if entry.expired now then some shard
  else
    entry.slot.map fun i =>
      let slice := (shard.dbSlice.addOrUpdate i entry.key entry.value).2
      { shard with
        dbSlice :=
          match entry.expireMs with
          | some expireMs => slice.addExpire i entry.key expireMs
          | none => slice }

def loadEntries (now : UInt64) (shard : EngineShard F) (entries : List (LoadEntry F)) :
    Option (EngineShard F) :=
  entries.foldlM (loadEntry now) (shard.updateTime now)

end EngineShard

namespace EngineShardSet

variable {n : Nat} [NeZero n]

/-- The entries for each shard. -/
def distribute (n : Nat) [NeZero n] (entries : List (RdbEntry F)) : Fin n → List (LoadEntry F) :=
  entries.foldl (fun shardEntries entry =>
    update shardEntries (shard entry.key n)
      (shardEntries (shard entry.key n) ++ [.ofRdb entry])) fun _ => []

/-- What becomes of each shard; one without entries is not sent any. -/
def loadEntries (now : UInt64) (c : Cluster F n) (entries : List (RdbEntry F)) (sid : Fin n) :
    Option (EngineShard F) :=
  if (distribute n entries sid).isEmpty then some (c sid)
  else (c sid).loadEntries now (distribute n entries sid)

/-- The load from empty shards ends with the cluster `c`. -/
def Loads (now : UInt64) (entries : List (RdbEntry F)) (c : Cluster F n) : Prop :=
  ∀ sid, loadEntries now (fun _ => .new) entries sid = some (c sid)

end EngineShardSet

/-! ## One shard -/

namespace LoadEntry

/-- Where an entry with an index in bounds goes. -/
def addr (entry : LoadEntry F) : Addr := (Fin.ofNat 16 entry.dbIndex.toNat, entry.key)

/-- What an entry makes of its cell. A key that is there already keeps its deadline
if the entry has none. -/
def effect (now : UInt64) (entry : LoadEntry F) (c : Cell F) : Cell F :=
  if entry.expired now then c else (some entry.value, entry.expireMs <|> c.2)

/-- The entry is dropped, or its database is there. -/
def InBounds (now : UInt64) (entry : LoadEntry F) : Prop :=
  entry.expired now = true ∨ entry.dbIndex.toNat < 16

end LoadEntry

namespace EngineShard

variable {now : UInt64} {entries : List (LoadEntry F)}

theorem loadEntry_spec (shard : EngineShard F) {entry : LoadEntry F} (h : entry.InBounds now) :
    ∃ shard', shard.loadEntry now entry = some shard' ∧
      shard'.dbSlice.cell = update shard.dbSlice.cell entry.addr
        (entry.effect now (shard.dbSlice.cell entry.addr)) := by
  rw [loadEntry, LoadEntry.effect]
  cases he : entry.expired now with
  | true => exact ⟨shard, rfl, (update_eq_self _ _).symm⟩
  | false =>
    have hlt : entry.dbIndex.toNat < 16 := h.resolve_left (by rw [he]; exact Bool.false_ne_true)
    have hslot : entry.slot = some entry.addr.1 := by
      rw [LoadEntry.slot, dif_pos hlt]
      exact congrArg some (Fin.ext (Nat.mod_eq_of_lt hlt).symm)
    rw [hslot]
    refine ⟨_, rfl, ?_⟩
    have hput := (DbSlice.cell_insert_prime entry.key (shard.dbSlice.dbs entry.addr.1) entry.value)
    have hcell : (shard.dbSlice.addOrUpdate entry.addr.1 entry.key entry.value).2.cell =
        update shard.dbSlice.cell entry.addr
          (some entry.value, (shard.dbSlice.cell entry.addr).2) :=
      DbSlice.cell_setDb hput.1 hput.2
    cases hexp : entry.expireMs with
    | none => exact hcell
    | some expireMs =>
      refine (DbSlice.addExpire_spec _ entry.addr.1 entry.key expireMs).1.trans ?_
      have haddr : (entry.addr.1, entry.key) = entry.addr := rfl
      rw [haddr, hcell, update_idem, update_self]
      rfl

theorem loadEntry_eq_none {shard : EngineShard F} {entry : LoadEntry F} (h : ¬entry.InBounds now) :
    shard.loadEntry now entry = none := by
  rw [LoadEntry.InBounds, not_or] at h
  rw [loadEntry, if_neg h.1, LoadEntry.slot, dif_neg h.2]
  rfl

/-- The pass of a shard over its entries. -/
def passed (now : UInt64) (entries : List (LoadEntry F)) (m : Addr → Cell F) : Addr → Cell F :=
  (Walk.walk LoadEntry.addr (fun _ _ => ()) (LoadEntry.effect now) entries m).2

theorem foldlM_loadEntry (h : ∀ e ∈ entries, e.InBounds now) (shard : EngineShard F) :
    ∃ shard', entries.foldlM (loadEntry now) shard = some shard' ∧
      shard'.dbSlice.cell = passed now entries shard.dbSlice.cell := by
  induction entries generalizing shard with
  | nil => exact ⟨shard, rfl, rfl⟩
  | cons e entries ih =>
    obtain ⟨shard', hload, hcell⟩ := loadEntry_spec shard (h e mem_cons_self)
    obtain ⟨shard'', hrest, hcells⟩ := ih (fun e he => h e (mem_cons_of_mem _ he)) shard'
    refine ⟨shard'', ?_, ?_⟩
    · rw [foldlM_cons, hload]
      exact hrest
    · rw [hcells, hcell]
      rfl

theorem foldlM_loadEntry_eq_none (h : ∃ e ∈ entries, ¬e.InBounds now) (shard : EngineShard F) :
    entries.foldlM (loadEntry now) shard = none := by
  induction entries generalizing shard with
  | nil =>
    obtain ⟨e, he, -⟩ := h
    cases he
  | cons e entries ih =>
    rw [foldlM_cons]
    by_cases hin : e.InBounds now
    · obtain ⟨e', he', hout⟩ := h
      rcases mem_cons.mp he' with rfl | he'
      · exact absurd hin hout
      · obtain ⟨shard', hload, -⟩ := loadEntry_spec shard hin
        rw [hload]
        exact ih ⟨e', he', hout⟩ shard'
    · rw [loadEntry_eq_none hin]
      rfl

theorem loadEntries_isSome_iff {shard : EngineShard F} :
    (shard.loadEntries now entries).isSome = true ↔ ∀ e ∈ entries, e.InBounds now := by
  constructor
  · intro hsome
    by_contra hout
    push Not at hout
    rw [loadEntries, foldlM_loadEntry_eq_none hout] at hsome
    cases hsome
  · intro h
    obtain ⟨shard', hload, -⟩ := foldlM_loadEntry h (shard.updateTime now)
    rw [loadEntries, hload]
    rfl

/-- Keys without an entry stay as they are. -/
theorem loadEntries_frame {sh sh' : EngineShard F} (h : sh.loadEntries now entries = some sh')
    {a : Addr} (ha : ∀ e ∈ entries, e.addr ≠ a) : sh'.dbSlice.cell a = sh.dbSlice.cell a := by
  have hin : ∀ e ∈ entries, e.InBounds now :=
    loadEntries_isSome_iff.mp (Option.isSome_of_eq_some h)
  obtain ⟨sh'', hload, hcell⟩ := foldlM_loadEntry hin (sh.updateTime now)
  rw [loadEntries, hload] at h
  cases h
  exact (congrFun hcell a).trans (Walk.walk_frame _ _ _ ha _)

end EngineShard

/-! ## All shards -/

namespace EngineShardSet

variable {n : Nat} [NeZero n]

theorem distribute_append (entries : List (RdbEntry F)) (entry : RdbEntry F) (sid : Fin n) :
    distribute n (entries ++ [entry]) sid =
      distribute n entries sid ++ if shard entry.key n = sid then [.ofRdb entry] else [] := by
  rw [distribute, foldl_append, foldl_cons, foldl_nil]
  by_cases hsid : shard entry.key n = sid
  · rw [if_pos hsid, hsid, update_self]
    rfl
  · have hne : sid ≠ shard entry.key n := fun h => hsid h.symm
    rw [if_neg hsid, update_of_ne hne, append_nil]
    rfl

/-- A shard is sent the entries of its keys, in their order. -/
theorem distribute_eq (entries : List (RdbEntry F)) (sid : Fin n) : distribute n entries sid =
    Walk.share LoadEntry.addr (fun a => shard a.2 n) sid (entries.map .ofRdb) := by
  induction entries using reverseRecOn with
  | nil => rfl
  | append_singleton entries entry ih =>
    rw [distribute_append, ih, map_append, Walk.share, Walk.share, filter_append,
      map_singleton, filter_singleton]
    have haddr : (LoadEntry.ofRdb entry).addr.2 = entry.key := rfl
    simp only [haddr, cond_eq_ite, decide_eq_true_eq]

variable {entries : List (RdbEntry F)} {now : UInt64}

theorem mem_distribute {sid : Fin n} {e : LoadEntry F} (h : e ∈ distribute n entries sid) :
    ∃ entry ∈ entries, e = .ofRdb entry := by
  rw [distribute_eq] at h
  obtain ⟨entry, hentry, rfl⟩ := mem_map.mp (mem_filter.mp h).1
  exact ⟨entry, hentry, rfl⟩

/-- No shard panics exactly if all entries are in bounds. -/
theorem loadEntries_isSome_iff {c : Cluster F n} :
    (∀ sid, (loadEntries now c entries sid).isSome = true) ↔
      ∀ e ∈ entries, (LoadEntry.ofRdb e).InBounds now := by
  have hshard : ∀ sid, (loadEntries now c entries sid).isSome = true ↔
      ∀ e ∈ distribute n entries sid, e.InBounds now := by
    intro sid
    rw [loadEntries]
    split
    · next hempty =>
      rw [isEmpty_iff.mp hempty]
      simp
    · exact EngineShard.loadEntries_isSome_iff
  simp only [hshard]
  constructor
  · intro h e he
    refine h (shard e.key n) _ ?_
    rw [distribute_eq]
    exact mem_filter.mpr ⟨mem_map_of_mem he, decide_eq_true rfl⟩
  · intro h sid e he
    obtain ⟨entry, hentry, rfl⟩ := mem_distribute he
    exact h entry hentry

/-- What all shards hold together: one pass over the entries. -/
def keyspace (now : UInt64) (entries : List (RdbEntry F)) : Addr → Cell F :=
  EngineShard.passed now (entries.map .ofRdb) fun _ => Cell.empty

theorem exists_loads (entries : List (RdbEntry F))
    (h : ∀ e ∈ entries, (LoadEntry.ofRdb e).InBounds now) :
    ∃ c : Cluster F n, Loads now entries c ∧ c.Placed ∧
    (c.union now).cell = keyspace now entries := by
  have hshard : ∀ sid : Fin n, ∃ shard : EngineShard F,
      loadEntries now (fun _ => .new) entries sid = some shard ∧
        shard.dbSlice.cell = EngineShard.passed now (distribute n entries sid) fun _ =>
          Cell.empty := by
    intro sid
    rw [loadEntries]
    split
    · next hempty =>
      rw [isEmpty_iff.mp hempty]
      exact ⟨.new, rfl, rfl⟩
    · exact EngineShard.foldlM_loadEntry (fun e he => by
        obtain ⟨entry, hentry, rfl⟩ := mem_distribute he
        exact h entry hentry) _
  choose c hload hcell using hshard
  have hplaced : Cluster.Placed c := by
    intro sid a hne
    by_contra hsid
    refine hne ?_
    rw [hcell, distribute_eq]
    refine Walk.walk_frame _ _ _ (fun e he heq => hsid ?_) _
    rw [← heq]
    exact of_decide_eq_true (mem_filter.mp he).2
  refine ⟨c, hload, hplaced, funext fun a => ?_⟩
  rw [Cluster.cell_union hplaced, hcell, distribute_eq]
  exact (congrFun (Walk.walk_union LoadEntry.addr (fun _ _ => ()) (LoadEntry.effect now)
    (fun (_ : Fin n) _ => Cell.empty) (entries.map .ofRdb)) a).symm

/-- An index below sixteen survives the way through the narrower types. -/
theorem inBounds_ofRdb {e : RdbEntry F} (h : e.dbIndex.toNat < 16) (now : UInt64) :
    (LoadEntry.ofRdb e).InBounds now ∧ (LoadEntry.ofRdb e).addr.1.val = e.dbIndex.toNat := by
  have hnat : (LoadEntry.ofRdb e).dbIndex.toNat = e.dbIndex.toNat := by
    change e.dbIndex.toUInt16.toNat = _
    rw [UInt32.toNat_toUInt16]
    omega
  refine ⟨.inr (hnat ▸ h), ?_⟩
  change (LoadEntry.ofRdb e).dbIndex.toNat % 16 = _
  rw [hnat, Nat.mod_eq_of_lt h]

theorem keyspace_filter (now : UInt64) (entries : List (RdbEntry F)) :
    keyspace now (entries.filter fun e => !(LoadEntry.ofRdb e).expired now) =
    keyspace now entries := by
  have hmap : (entries.filter fun e => !(LoadEntry.ofRdb e).expired now).map LoadEntry.ofRdb =
      (entries.map LoadEntry.ofRdb).filter fun e => !e.expired now := by
    rw [filter_map]
    rfl
  rw [keyspace, hmap]
  refine Walk.walk_memory_filter _ _ _ (fun e he => funext fun c => if_pos ?_) _ _
  simpa using he

/-- With distinct keys each cell is made by its own entry. -/
theorem keyspace_of_nodup (h : (entries.map fun e => (LoadEntry.ofRdb e).addr).Nodup)
    {e : RdbEntry F} (he : e ∈ entries) :
    keyspace now entries (LoadEntry.ofRdb e).addr =
      if (LoadEntry.ofRdb e).expired now then Cell.empty else (some e.value, e.expireMs) := by
  have hnodup : ((entries.map LoadEntry.ofRdb).map LoadEntry.addr).Nodup := by rwa [map_map]
  rw [keyspace, EngineShard.passed, Walk.walk_memory]
  refine ((Walk.foldl_update_spec _ _ hnodup _).1 _ (mem_map_of_mem he)).trans ?_
  rw [LoadEntry.effect]
  cases hexp : e.expireMs <;> simp [LoadEntry.ofRdb, Cell.empty, hexp]

/-- Reloading does not depend on the number of shards: the shards together hold the
same, every key on its own shard. Entries that have expired make no difference, and if
the keys are distinct every other entry is there with its value and deadline. -/
theorem load_independent_of_shards {n m : Nat} [NeZero n] [NeZero m] (now : UInt64)
    (entries : List (RdbEntry F)) (hdb : ∀ e ∈ entries, e.dbIndex.toNat < 16) :
    ∃ (c : Cluster F n) (d : Cluster F m), Loads now entries c ∧ Loads now entries d ∧
      c.union now = d.union now ∧ c.Placed ∧
      (∃ c' : Cluster F n,
        Loads now (entries.filter fun e => !(LoadEntry.ofRdb e).expired now) c' ∧
          c'.union now = c.union now) ∧
      ((entries.map fun e => (e.dbIndex, e.key)).Nodup → ∀ e ∈ entries, ∀ i : DbIndex,
        i.val = e.dbIndex.toNat → (c (shard e.key n)).dbSlice.cell (i, e.key) =
          if (LoadEntry.ofRdb e).expired now then Cell.empty else (some e.value, e.expireMs)) := by
  have hin : ∀ e ∈ entries, (LoadEntry.ofRdb e).InBounds now :=
    fun e he => (inBounds_ofRdb (hdb e he) now).1
  obtain ⟨c, hc, hplaced, hcell⟩ := exists_loads (n := n) entries hin
  obtain ⟨d, hd, -, hcell'⟩ := exists_loads (n := m) entries hin
  have hin' : ∀ e ∈ entries.filter fun e => !(LoadEntry.ofRdb e).expired now,
      (LoadEntry.ofRdb e).InBounds now := fun e he => hin e (mem_filter.mp he).1
  obtain ⟨c', hc', -, hfilter⟩ := exists_loads (n := n) _ hin'
  refine ⟨c, d, hc, hd, DbSlice.ext_cell rfl (hcell.trans hcell'.symm), hplaced,
    ⟨c', hc', DbSlice.ext_cell rfl ?_⟩, fun hnodup e he i hi => ?_⟩
  · rw [hfilter, hcell, keyspace_filter]
  · have haddr : (i, e.key) = (LoadEntry.ofRdb e).addr :=
      Prod.ext (Fin.ext (hi.trans (inBounds_ofRdb (hdb e he) now).2.symm)) rfl
    have hunion := Cluster.cell_union hplaced now (LoadEntry.ofRdb e).addr
    rw [haddr, ← keyspace_of_nodup ?_ he, ← hcell]
    · exact hunion.symm
    · rw [List.Nodup, pairwise_map] at hnodup ⊢
      refine hnodup.imp_of_mem fun {x y} hx hy hne heq => hne ?_
      have hkey : x.key = y.key := congrArg (fun a : Addr => a.2) heq
      have hindex : x.dbIndex = y.dbIndex := UInt32.toNat_inj.mp (by
        rw [← (inBounds_ofRdb (hdb x hx) now).2, ← (inBounds_ofRdb (hdb y hy) now).2, heq])
      rw [hkey, hindex]

/-- Three entries, one of them expired. -/
def threeEntries : List (RdbEntry Int) :=
  [⟨0, ascii "a", .string (ascii "x"), none⟩, ⟨3, ascii "b", .integer 7, some 9⟩,
    ⟨0, ascii "c", .string (ascii "y"), some 5⟩]

theorem load_independent_threeEntries :
    ∃ (c : Cluster Int 1) (d : Cluster Int 3), Loads 5 threeEntries c ∧ Loads 5 threeEntries d ∧
      c.union 5 = d.union 5 := by
  have hdb : ∀ e ∈ threeEntries, e.dbIndex.toNat < 16 := by simp [threeEntries]
  obtain ⟨c, d, hc, hd, hunion, -⟩ :=
    load_independent_of_shards (n := 1) (m := 3) 5 threeEntries hdb
  exact ⟨c, d, hc, hd, hunion⟩

end EngineShardSet

end ShrikeDb
