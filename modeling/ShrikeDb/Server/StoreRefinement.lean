import ShrikeDb.Server.Store

/-! The calls on dash tables refine the calls on finite maps, as long as every removal
spares the references that other keys in the stash need; and on finite maps the programs
of `Server/Store` are the operations of `DbSlice`. -/

namespace ShrikeDb

open Dash Program FinmapPairs Function List

variable {F : Type} {hash : Hashers}

/-! ## Tables -/

theorem DbTable.table_setTable (db : DbTable F) (kind : TableKind)
    (m : Finmap fun _ : Bytes => kind.Value F) : (db.setTable kind m).table kind = m := by
  cases kind <;> rfl

theorem DbTable.table_setTable_ne (db : DbTable F) {kind kind' : TableKind} (h : kind' ≠ kind)
    (m : Finmap fun _ : Bytes => kind.Value F) :
    (db.setTable kind m).table kind' = db.table kind' := by
  cases kind <;> cases kind' <;> first | rfl | exact absurd rfl h

theorem DashDb.table_setTable (db : DashDb F) (kind : TableKind)
    (t : DashTable Bytes (kind.Value F)) : (db.setTable kind t).table kind = t := by
  cases kind <;> rfl

theorem DashDb.table_setTable_ne (db : DashDb F) {kind kind' : TableKind} (h : kind' ≠ kind)
    (t : DashTable Bytes (kind.Value F)) : (db.setTable kind t).table kind' = db.table kind' := by
  cases kind <;> cases kind' <;> first | rfl | exact absurd rfl h

/-- A dash table whose keys can all be found stands for the map of its entries. -/
structure StandsFor {V : Type} (hash : Bytes → UInt64) (t : DashTable Bytes V)
    (m : Finmap fun _ : Bytes => V) :
    Prop where
  represents : t.Represents hash m
  reachable : t.Reachable hash

/-- The databases as stored stand for the databases read as finite maps. -/
structure Backs (hash : Hashers) (d : DashExec F) (x : Exec F) : Prop where
  tables : ∀ i kind, StandsFor (hash i kind) (d.table i kind) (x.table i kind)
  nowMs : d.nowMs = x.slice.nowMs
  conn : d.conn = x.conn

namespace StandsFor

variable {V : Type} {hash : Bytes → UInt64} {t : DashTable Bytes V} {m : Finmap fun _ : Bytes => V}

theorem find_eq (h : StandsFor hash t m) (key : Bytes) : t.find hash key = m.lookup key :=
  h.represents.find_eq h.reachable key

theorem new : StandsFor hash (DashTable.withHasher : DashTable Bytes V) ∅ :=
  ⟨DashTable.represents_fresh _ _, DashTable.reachable_fresh _ _⟩

theorem iter_perm (h : StandsFor hash t m) : (t.iter : Multiset (Bytes × V)) = pairs m :=
  h.represents.toWF.iter_eq.trans h.represents.contents

theorem len_eq (h : StandsFor hash t m) : t.len = m.keys.card :=
  (h.represents.size.trans (congrArg Multiset.card h.represents.contents)).trans (card_pairs m)

theorem mem_iter (h : StandsFor hash t m) {key : Bytes} {value : V} :
    (key, value) ∈ t.iter ↔ m.lookup key = some value := by
  rw [← Multiset.mem_coe, h.iter_perm, mem_pairs]

/-- The table is iterated in some order of the keys of the map. -/
theorem exists_order (h : StandsFor hash t m) : ∃ ω, entriesOf ω m = t.iter := by
  have hnodup : (t.iter.map Prod.fst).Nodup := by
    rw [← Multiset.coe_nodup, ← Multiset.map_coe, h.iter_perm]
    exact nodup_keys_pairs m
  have hmem : ∀ key, key ∈ t.iter.map Prod.fst ↔ key ∈ m.keys := by
    intro key
    rw [Finmap.mem_keys, ← Finmap.lookup_isSome, Option.isSome_iff_exists, mem_map]
    constructor
    · rintro ⟨⟨_, value⟩, he, rfl⟩
      exact ⟨value, h.mem_iter.mp he⟩
    · rintro ⟨value, hl⟩
      exact ⟨(key, value), h.mem_iter.mpr hl, rfl⟩
  obtain ⟨ω, hω⟩ := Listing.exists_list_eq hnodup hmem
  refine ⟨ω, ?_⟩
  rw [entriesOf, hω, filterMap_map]
  refine (filterMap_congr fun e he => ?_).trans filterMap_some
  rw [comp_apply, h.mem_iter.mp he]
  rfl

theorem scan_eq (t : DashTable Bytes V) (cursor count : UInt64) :
    (t.scan ⟨cursor⟩ count).map (fun x => (x.1, x.2.value)) = pageOf t.iter cursor count := by
  rw [DashTable.scan, pageOf]
  dsimp only
  split
  · rfl
  · split
    · rfl
    · rw [Option.map_some]
      dsimp only
      split <;> rfl

end StandsFor

namespace Backs

variable {d : DashExec F} {x : Exec F}

theorem new : Backs hash (.new : DashExec F) ⟨.new, ⟨0⟩⟩ :=
  ⟨fun _ kind => by cases kind <;> exact StandsFor.new, rfl, rfl⟩

theorem setTable (h : Backs hash d x) {i : DbIndex} {kind : TableKind}
    {t : DashTable Bytes (kind.Value F)} {m : Finmap fun _ : Bytes => kind.Value F}
    (ht : StandsFor (hash i kind) t m) :
    Backs hash (d.setTable i kind t) (x.setTable i kind m) := by
  refine ⟨fun i' kind' => ?_, h.nowMs, h.conn⟩
  have hold := h.tables i' kind'
  rw [DashExec.table, DashExec.setTable, Exec.table, Exec.setTable, DbSlice.setDb]
  dsimp only
  by_cases hi : i' = i
  · subst hi
    rw [update_self, update_self]
    by_cases hk : kind' = kind
    · subst hk
      rw [DashDb.table_setTable, DbTable.table_setTable]
      exact ht
    · rw [DashDb.table_setTable_ne _ hk, DbTable.table_setTable_ne _ hk]
      exact hold
  · rw [update_of_ne hi, update_of_ne hi]
    exact hold

end Backs

/-! ## One call -/

/-- A removal takes no reference that another key needs. -/
def StoreOp.Spared (hash : Hashers) (d : DashExec F) : StoreOp F → Prop
  | .remove kind i key => DashTable.StashSpared (hash i kind) (d.table i kind) key
  | _ => True

theorem StoreOp.dash_refines (o : (storeOps F).Op) (d : DashExec F) (x : Exec F)
    (r : (storeOps F).Result o) (d' : DashExec F) (hspared : StoreOp.Spared hash d o)
    (h : Backs hash d x) (hcall : StoreOp.dash hash o d = some (r, d')) :
    ∃ ω, (StoreOp.apply ω o x).1 = r ∧ Backs hash d' (StoreOp.apply ω o x).2 := by
  cases o with
  | find kind i key =>
    cases hcall
    exact ⟨.arbitrary Bytes, ((h.tables i kind).find_eq key).symm, h⟩
  | write kind i key value =>
    cases hcall
    obtain ⟨hrep, hreach, -⟩ := (h.tables i kind).represents.findMut (h.tables i kind).reachable key
      fun _ => value
    exact ⟨.arbitrary Bytes, rfl, h.setTable ⟨hrep, hreach⟩⟩
  | insert kind i key value =>
    obtain ⟨⟨t, old⟩, hins, heq⟩ := Option.map_eq_some_iff.mp hcall
    cases heq
    obtain ⟨hrep, hreach, hold⟩ :=
      (h.tables i kind).represents.insert (h.tables i kind).reachable hins
    exact ⟨.arbitrary Bytes, hold.symm, h.setTable ⟨hrep, hreach⟩⟩
  | remove kind i key =>
    obtain ⟨t, hrem, hrep, hreach⟩ :=
      (h.tables i kind).represents.remove (h.tables i kind).reachable key
    rw [StoreOp.dash, hrem] at hcall
    cases hcall
    exact ⟨.arbitrary Bytes, rfl, h.setTable ⟨hrep, hreach.mpr hspared⟩⟩
  | len kind i =>
    cases hcall
    exact ⟨.arbitrary Bytes, (h.tables i kind).len_eq.symm, h⟩
  | iter kind i =>
    cases hcall
    obtain ⟨ω, hω⟩ := (h.tables i kind).exists_order
    exact ⟨ω, hω, h⟩
  | scan kind i cursor count =>
    cases hcall
    obtain ⟨ω, hω⟩ := (h.tables i kind).exists_order
    exact ⟨ω, (congrArg (pageOf · cursor count) hω).trans (StandsFor.scan_eq _ cursor count).symm,
      h⟩
  | clear kind i =>
    cases hcall
    exact ⟨.arbitrary Bytes, rfl, h.setTable StandsFor.new⟩
  | nowMs =>
    cases hcall
    exact ⟨.arbitrary Bytes, h.nowMs.symm, h⟩
  | updateTime now =>
    cases hcall
    exact ⟨.arbitrary Bytes, rfl, fun i kind => h.tables i kind, rfl, h.conn⟩
  | select i =>
    cases hcall
    exact ⟨.arbitrary Bytes, rfl, h.tables, h.nowMs, rfl⟩

/-- Only a call that iterates depends on the order. -/
theorem StoreOp.apply_order {o : StoreOp F} (ho : o.iterates = false) (ω ω' : Listing Bytes)
    (x : Exec F) : o.apply ω x = o.apply ω' x := by
  cases o with
  | iter kind i => cases ho
  | scan kind i cursor count => cases ho
  | _ => rfl

/-! ## The operations on finite maps -/

namespace Exec

variable (x : Exec F)

variable (i : DbIndex)

/-- One database replaced. -/
def setDb (db : DbTable F) : Exec F := { x with slice := x.slice.setDb i db }

@[simp] theorem dbs_setDb (db : DbTable F) : (x.setDb i db).slice.dbs i = db :=
  update_self ..

@[simp] theorem setDb_setDb (db db' : DbTable F) :
    (x.setDb i db).setDb i db' = x.setDb i db' := by
  simp only [setDb, DbSlice.setDb, update_idem]

@[simp] theorem setDb_self : x.setDb i (x.slice.dbs i) = x := by
  simp only [setDb, DbSlice.setDb, update_eq_self]

@[simp] theorem table_prime : x.table i .prime = (x.slice.dbs i).prime := rfl

@[simp] theorem table_expire : x.table i .expire = (x.slice.dbs i).expire := rfl

theorem setPrime (m : Finmap fun _ : Bytes => PrimeValue F) :
    x.setTable i .prime m = x.setDb i ⟨m, (x.slice.dbs i).expire⟩ := rfl

theorem setExpire (m : Finmap fun _ : Bytes => UInt64) :
    x.setTable i .expire m = x.setDb i ⟨(x.slice.dbs i).prime, m⟩ := rfl

end Exec

namespace Stored

variable {α : Type} (ω : Listing Bytes) (kind : TableKind) (i : DbIndex) (key : Bytes) (x : Exec F)

variable (k : Option (kind.Value F) → Stored F α)

theorem run_lookup :
    run (StoreOp.apply ω) (lookup kind i key >>= k) x =
      run (StoreOp.apply ω) (k ((x.table i kind).lookup key)) x := rfl

theorem run_insert (value : kind.Value F) (k : Option (kind.Value F) → Stored F α) :
    run (StoreOp.apply ω) (insert kind i key value >>= k) x =
      run (StoreOp.apply ω) (k ((x.table i kind).lookup key))
        (x.setTable i kind ((x.table i kind).insert key value)) := rfl

theorem run_remove :
    run (StoreOp.apply ω) (remove kind i key >>= k) x =
      run (StoreOp.apply ω) (k ((x.table i kind).lookup key))
        (x.setTable i kind ((x.table i kind).erase key)) := rfl

theorem run_iter (k : List (Bytes × kind.Value F) → Stored F α) :
    run (StoreOp.apply ω) (iter kind i >>= k) x =
      run (StoreOp.apply ω) (k (entriesOf ω (x.table i kind))) x := rfl

theorem run_page (cursor count : UInt64)
    (k : Option (List (Bytes × kind.Value F) × UInt64) → Stored F α) :
    run (StoreOp.apply ω) (page kind i cursor count >>= k) x =
      run (StoreOp.apply ω) (k (pageOf (entriesOf ω (x.table i kind)) cursor count)) x := rfl

theorem run_nowMs (k : UInt64 → Stored F α) :
    run (StoreOp.apply ω) (nowMs >>= k) x = run (StoreOp.apply ω) (k x.slice.nowMs) x := rfl

theorem run_pure (a : α) : run (StoreOp.apply ω) (pure a : Stored F α) x = (some a, x) := rfl

theorem run_forget : run (StoreOp.apply ω) (forget i key) x =
    (some (), x.setDb i ((x.slice.dbs i).forget key)) := by
  rw [forget, run_remove, run_remove, Exec.setPrime, Exec.setExpire, Exec.setDb_setDb, run_pure]
  simp only [Exec.table_prime, Exec.table_expire, Exec.dbs_setDb, DbTable.forget]

theorem run_checkAndExpire (now : UInt64) : run (StoreOp.apply ω) (checkAndExpire i key now) x =
    (some ((x.slice.dbs i).checkAndExpire key now).1,
      x.setDb i ((x.slice.dbs i).checkAndExpire key now).2) := by
  rw [checkAndExpire, run_lookup, DbTable.checkAndExpire, DbTable.lapsed, Exec.table_expire]
  cases (x.slice.dbs i).expire.lookup key with
  | none =>
    rw [if_neg Bool.false_ne_true, Exec.setDb_self]
    rfl
  | some deadline =>
    dsimp only
    by_cases hd : deadline ≤ now
    · rw [if_pos hd, if_pos (decide_eq_true hd)]
      exact run_bind_of _ _ (run_forget ω i key x)
    · rw [if_neg hd, if_neg fun h => hd (of_decide_eq_true h), Exec.setDb_self]
      rfl

/-- After the check, the program goes on with the key if it has not lapsed. -/
theorem run_checked (k : Bool → Stored F α) :
    run (StoreOp.apply ω) (nowMs >>= fun now => checkAndExpire i key now >>= k) x =
      run (StoreOp.apply ω) (k ((x.slice.dbs i).checkAndExpire key x.slice.nowMs).1)
        (x.setDb i ((x.slice.dbs i).checkAndExpire key x.slice.nowMs).2) :=
  run_bind_of _ _ (run_checkAndExpire ω i key x _)

theorem run_find : run (StoreOp.apply ω) (find i key) x =
    (some (x.slice.find i key).1, { x with slice := (x.slice.find i key).2 }) := by
  rw [find, run_checked, DbSlice.find]
  obtain ⟨expired, db⟩ := (x.slice.dbs i).checkAndExpire key x.slice.nowMs
  cases expired with
  | true => rfl
  | false =>
    dsimp only
    rw [if_neg Bool.false_ne_true, run_lookup, Exec.table_prime, Exec.dbs_setDb]
    cases db.prime.lookup key with
    | none => rfl
    | some value =>
      dsimp only
      rw [run_lookup, Exec.table_expire, Exec.dbs_setDb]
      rfl

theorem run_findMut : run (StoreOp.apply ω) (findMut i key) x =
    (some (x.slice.findMut i key).1, { x with slice := (x.slice.findMut i key).2 }) := by
  rw [findMut, run_checked, DbSlice.findMut]
  obtain ⟨expired, db⟩ := (x.slice.dbs i).checkAndExpire key x.slice.nowMs
  cases expired with
  | true => rfl
  | false =>
    dsimp only
    rw [if_neg Bool.false_ne_true, run_lookup, run_lookup, Exec.table_prime, Exec.table_expire,
      Exec.dbs_setDb]
    rfl

theorem run_addIfAbsent (value : PrimeValue F) : run (StoreOp.apply ω) (addIfAbsent i key value) x =
    (some (x.slice.addIfAbsent i key value).1,
      { x with slice := (x.slice.addIfAbsent i key value).2 }) := by
  rw [addIfAbsent, run_checked, DbSlice.addIfAbsent]
  obtain ⟨expired, db⟩ := (x.slice.dbs i).checkAndExpire key x.slice.nowMs
  have hinsert : run (StoreOp.apply ω) (insert .prime i key value >>= fun _ => pure true)
      (x.setDb i db) = (some true, x.setDb i { db with prime := db.prime.insert key value }) := by
    rw [run_insert, Exec.setPrime, Exec.table_prime, Exec.setDb_setDb, Exec.dbs_setDb]
    rfl
  cases expired with
  | true => exact hinsert
  | false =>
    dsimp only
    rw [if_neg Bool.false_ne_true, run_lookup, Exec.table_prime, Exec.dbs_setDb]
    by_cases hp : (db.prime.lookup key).isSome = true
    · rw [if_pos hp, if_pos hp]
      rfl
    · rw [if_neg hp, if_neg hp]
      exact hinsert

theorem run_del : run (StoreOp.apply ω) (del i key) x =
    (some (x.slice.del i key).1, { x with slice := (x.slice.del i key).2 }) := by
  rw [del, run_remove, run_remove, Exec.setExpire, Exec.setPrime, Exec.setDb_setDb]
  simp only [Exec.table_prime, Exec.table_expire, Exec.dbs_setDb]
  rfl

theorem run_addExpire (deadlineMs : UInt64) : run (StoreOp.apply ω) (addExpire i key deadlineMs) x =
    (some (), { x with slice := x.slice.addExpire i key deadlineMs }) := by
  rw [addExpire, run_lookup, DbSlice.addExpire, Exec.table_prime]
  by_cases hp : ((x.slice.dbs i).prime.lookup key).isSome = true
  · rw [if_pos hp, if_pos hp]
    rfl
  · rw [if_neg hp, if_neg hp]
    rfl

theorem run_ttlMs : run (StoreOp.apply ω) (ttlMs i key) x =
    (some (x.slice.ttlMs i key).1, { x with slice := (x.slice.ttlMs i key).2 }) := by
  rw [ttlMs, run_lookup, DbSlice.ttlMs, Exec.table_prime]
  by_cases hp : ((x.slice.dbs i).prime.lookup key).isNone = true
  · rw [if_pos hp, if_pos hp]
    rfl
  · rw [if_neg hp, if_neg hp, run_lookup, Exec.table_expire]
    cases (x.slice.dbs i).expire.lookup key with
    | none => rfl
    | some deadline =>
      dsimp only
      rw [run_nowMs]
      by_cases hd : deadline ≤ x.slice.nowMs
      · rw [if_pos hd, if_pos hd]
        exact run_bind_of _ _ (run_forget ω i key x)
      · rw [if_neg hd, if_neg hd]
        rfl

theorem run_rename (source dest : Bytes) : run (StoreOp.apply ω) (rename i source dest) x =
    (some (x.slice.rename i source dest).1,
      { x with slice := (x.slice.rename i source dest).2 }) := by
  rw [rename, run_remove, run_remove, Exec.setExpire, Exec.setPrime, Exec.setDb_setDb,
    DbSlice.rename]
  simp only [Exec.table_prime, Exec.table_expire, Exec.dbs_setDb]
  cases (x.slice.dbs i).prime.lookup source with
  | none => rfl
  | some value =>
    dsimp only
    rw [run_remove, run_insert, Exec.setExpire, Exec.setPrime, Exec.setDb_setDb, Exec.setDb_setDb]
    simp only [Exec.table_prime, Exec.table_expire, Exec.dbs_setDb]
    cases (x.slice.dbs i).expire.lookup source with
    | none => rfl
    | some deadline =>
      dsimp only
      rw [run_insert, Exec.setExpire, Exec.setDb_setDb]
      simp only [Exec.table_expire, Exec.dbs_setDb]
      rfl

/-! ### Listings -/

variable {V : Type}

theorem map_fst_entriesOf (m : Finmap fun _ : Bytes => V) :
    (entriesOf ω m).map Prod.fst = ω.list m.keys := by
  rw [entriesOf, map_filterMap]
  refine (filterMap_congr fun k hk => ?_).trans filterMap_some
  obtain ⟨value, hl⟩ := Finmap.mem_iff.mp (Finmap.mem_keys.mp ((ω.mem_list _ k).mp hk))
  rw [hl]
  rfl

theorem mem_entriesOf {m : Finmap fun _ : Bytes => V} {e : Bytes × V} (he : e ∈ entriesOf ω m) :
    m.lookup e.1 = some e.2 := by
  obtain ⟨k, -, hk⟩ := mem_filterMap.mp he
  obtain ⟨value, hl, rfl⟩ := Option.map_eq_some_iff.mp hk
  exact hl

theorem pageOf_map {α β : Type} (f : α → β) (entries : List α) (cursor count : UInt64) :
    (pageOf entries cursor count).map (fun p => (p.1.map f, p.2)) =
    pageOf (entries.map f) cursor count := by
  simp only [pageOf, length_map]
  split
  · rfl
  · split
    · rfl
    · rw [Option.map_some, map_take, map_drop]

theorem scan_eq_page (s : DbSlice F) (cursor count : UInt64) (pattern : Option Bytes) :
    s.scan ω i cursor count pattern =
      (pageOf (ω.list (s.dbs i).prime.keys) cursor count).map fun p =>
        (selected pattern p.1, p.2) := by
  rw [DbSlice.scan, pageOf]
  dsimp only
  split
  · cases pattern <;> rfl
  · split
    · rfl
    · cases pattern <;> rfl

theorem run_scan (cursor count : UInt64) (pattern : Option Bytes) :
    run (StoreOp.apply ω) (scan i cursor count pattern) x =
    (some (x.slice.scan ω i cursor count pattern), x) := by
  rw [scan, run_page, run_pure, scan_eq_page, ← map_fst_entriesOf, ← pageOf_map, Option.map_map]
  rfl

theorem run_lapsed (now : UInt64) : run (StoreOp.apply ω) (lapsed i now key) x =
    (some ((x.slice.dbs i).lapsed now key), x) := by
  rw [lapsed, run_lookup, DbTable.lapsed, Exec.table_expire]
  cases (x.slice.dbs i).expire.lookup key <;> rfl

theorem foldl_forget (keys : List Bytes) :
    keys.foldl (fun x key => x.setDb i ((x.slice.dbs i).forget key)) x =
    x.setDb i (keys.foldl DbTable.forget (x.slice.dbs i)) := by
  induction keys generalizing x with
  | nil => exact (Exec.setDb_self x i).symm
  | cons key keys ih =>
    rw [foldl_cons, ih, Exec.dbs_setDb, Exec.setDb_setDb]
    rfl

theorem run_forgetAll {ι : Type} (f : ι → Bytes) (items : List ι) :
    run (StoreOp.apply ω) (forEach (fun e => forget i (f e)) items) x =
      (some (items.map fun _ => ()),
        x.setDb i ((items.map f).foldl DbTable.forget (x.slice.dbs i))) := by
  rw [run_forEach (J := fun _ => True) (fun e y _ => ⟨run_forget ω i (f e) y, trivial⟩) items
    trivial, ← foldl_forget, foldl_map]

/-- A list beside the verdicts on it, split by them. -/
theorem filter_zip_map (p : Bytes → Bool) (q : Bool → Bool) (keys : List Bytes) :
    ((keys.zip (keys.map p)).filter fun e => q e.2).map Prod.fst = keys.filter fun k =>
      q (p k) := by
  induction keys with
  | nil => rfl
  | cons k keys ih =>
    rw [map_cons, zip_cons_cons, filter_cons, filter_cons]
    cases q (p k) with
    | true => exact congrArg (k :: ·) ih
    | false => exact ih

theorem run_keys (pattern : Bytes) : run (StoreOp.apply ω) (keys i pattern) x =
    (some (x.slice.keys ω i pattern).1, { x with slice := (x.slice.keys ω i pattern).2 }) := by
  have hverdicts : run (StoreOp.apply ω)
        (forEach (fun e => lapsed i x.slice.nowMs e.1) (entriesOf ω (x.slice.dbs i).prime)) x =
      (some ((entriesOf ω (x.slice.dbs i).prime).map fun e =>
        (x.slice.dbs i).lapsed x.slice.nowMs e.1),
        (entriesOf ω (x.slice.dbs i).prime).foldl (fun y _ => y) x) :=
    run_forEach (J := (· = x)) (fun e y hy => ⟨hy ▸ run_lapsed ω i e.1 y _, hy⟩) _ rfl
  rw [foldl_fixed] at hverdicts
  rw [keys, run_nowMs, run_iter]
  refine (run_bind_of _ _ hverdicts).trans
    ((run_bind_of _ _ (run_forgetAll ω i x Prod.fst _)).trans ?_)
  have hzip : (entriesOf ω (x.slice.dbs i).prime).map (fun e =>
      (x.slice.dbs i).lapsed x.slice.nowMs e.1) =
      (ω.list (x.slice.dbs i).prime.keys).map ((x.slice.dbs i).lapsed x.slice.nowMs) := by
    rw [← map_fst_entriesOf, map_map]
    rfl
  rw [hzip, Exec.table_prime, map_fst_entriesOf, run_pure]
  have hgone :=
    filter_zip_map ((x.slice.dbs i).lapsed x.slice.nowMs) id (ω.list (x.slice.dbs i).prime.keys)
  have hkept :=
    filter_zip_map ((x.slice.dbs i).lapsed x.slice.nowMs) not (ω.list (x.slice.dbs i).prime.keys)
  rw [hkept, filter_filter]
  refine Prod.ext (congrArg some (filter_congr fun k _ => Bool.and_comm _ _)) ?_
  exact congrArg (fun gone => x.setDb i (gone.foldl DbTable.forget (x.slice.dbs i))) hgone

theorem run_randomEntry :
    run (StoreOp.apply ω) (randomEntry i) x = (some (x.slice.randomEntry ω i), x) := by
  rw [randomEntry, run_iter, run_pure, DbSlice.randomEntry, ← map_fst_entriesOf, head?_map]
  rfl

/-- A first page is never cut short. -/
theorem pageOf_start {α : Type} (entries : List α) (count : UInt64) :
    ∃ next, pageOf entries 0 count = some (entries.take count.toNat, next) := by
  rw [pageOf]
  have hzero : (0 : UInt64).toNat = 0 := rfl
  simp only [hzero, UInt64.zero_add, Nat.not_lt_zero, if_false, drop_zero, Nat.sub_zero]
  split
  · rename_i h
    rw [eq_nil_of_length_eq_zero (Nat.le_zero.mp h), take_nil]
    exact ⟨0, rfl⟩
  · refine ⟨_, congrArg (fun l => some (l, _)) ?_⟩
    rw [take_eq_take_iff, Nat.min_assoc, Nat.min_self]

theorem run_expireSweep (count : UInt64) : run (StoreOp.apply ω) (expireSweep i count) x =
    (some (x.slice.expireSweep ω i count.toNat).1,
      { x with slice := (x.slice.expireSweep ω i count.toNat).2 }) := by
  obtain ⟨next, hpage⟩ := pageOf_start (entriesOf ω (x.slice.dbs i).expire) count
  rw [expireSweep, run_nowMs, run_page, Exec.table_expire, hpage]
  refine (run_bind_of _ _ (run_forgetAll ω i x Prod.fst _)).trans ?_
  have hgone : (((entriesOf ω (x.slice.dbs i).expire).take count.toNat).filter fun e =>
        decide (e.2 ≤ x.slice.nowMs)).map Prod.fst =
      ((ω.list (x.slice.dbs i).expire.keys).take count.toNat).filter
        ((x.slice.dbs i).lapsed x.slice.nowMs) := by
    rw [← map_fst_entriesOf, ← map_take, filter_map]
    refine congrArg (map Prod.fst) (filter_congr fun e he => ?_)
    have hl := mem_entriesOf ω (mem_of_mem_take he)
    rw [comp_apply, DbTable.lapsed, hl]
  rw [run_pure, DbSlice.expireSweep]
  dsimp only
  rw [← hgone, length_map]
  rfl

end Stored

/-- On finite maps, the program of an operation is the operation. -/
theorem DbOp.run_program (ω : Listing Bytes) (o : DbOp F) (x : Exec F) :
    run (StoreOp.apply ω) o.program x = (some (step ω o x).1, (step ω o x).2) := by
  cases o with
  | nowMs | dbSize i | addOrUpdate i key value | removeExpire i key | select i => rfl
  | flushDb i =>
    have hrun : run (StoreOp.apply ω) (DbOp.flushDb i : DbOp F).program x =
        (some (), (x.setTable i .prime ∅).setTable i .expire ∅) := rfl
    rw [hrun, Exec.setPrime, Exec.setExpire, Exec.setDb_setDb, Exec.dbs_setDb]
    rfl
  | find i key => exact Stored.run_find ω i key x
  | findMut i key => exact Stored.run_findMut ω i key x
  | store i key value =>
    have hrun : run (StoreOp.apply ω) (DbOp.store i key value : DbOp F).program x =
        (some (), x.setDb i { x.slice.dbs i with
          prime := DashTable.adjust (x.slice.dbs i).prime key fun _ => value }) := rfl
    have hstep : (step ω (.store i key value) x).2 =
        { x with slice := x.slice.store i key value } := rfl
    rw [hrun, hstep, DashTable.adjust, DbSlice.store]
    cases (x.slice.dbs i).prime.lookup key with
    | none => exact congrArg (some (), ·) (Exec.setDb_self x i)
    | some old => rfl
  | addIfAbsent i key value => exact Stored.run_addIfAbsent ω i key x value
  | del i key => exact Stored.run_del ω i key x
  | addExpire i key deadlineMs => exact Stored.run_addExpire ω i key x deadlineMs
  | ttlMs i key => exact Stored.run_ttlMs ω i key x
  | rename i source dest => exact Stored.run_rename ω i x source dest
  | scan i cursor count pattern => exact Stored.run_scan ω i x cursor count pattern
  | keys i pattern => exact Stored.run_keys ω i x pattern
  | randomEntry i => exact Stored.run_randomEntry ω i x

end ShrikeDb
