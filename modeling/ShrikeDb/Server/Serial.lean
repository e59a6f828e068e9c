import ShrikeDb.Server.Arity
import ShrikeDb.Server.Counters
import ShrikeDb.Server.Ownership

/-! Commands on one key, carried out one after another on one store. What they reply depends on
the cells of their key only, so a store that sees nothing but these commands replies as one that
carries out others in between, as long as those do not write the key; and with a clock that does
not go back it makes no difference when lapsed keys are removed. -/

namespace ShrikeDb

open CommandRegistry Sharding ShardThread List

/-! ## Commands on one key -/

section SingleKey

variable (F : Type) [F64 F] [HashOrder] [CaseTable]

/-- The key of a command that is routed by one key and names no other. -/
def singleKey (args : List RespExpr) : Option Bytes :=
  match resolve (F := F) args with
  | .reply _ _ => none
  | .run e =>
    if classifyCommand e.name e.firstKey = .singleKey ∧
        (keySpec e.name e.firstKey = .all → ∀ word ∈ args.drop 1, word.bytes = keyAt args 1) then
      some (keyAt args 1)
    else none

variable {F} {args : List RespExpr} {k : Bytes}

theorem singleKey_eq_some (h : singleKey F args = some k) :
    ∃ e : CommandEntry F, resolve args = .run e ∧
    classifyCommand e.name e.firstKey = .singleKey ∧ keyAt args 1 = k ∧
      (keySpec e.name e.firstKey = .all → ∀ word ∈ args.drop 1, word.bytes = k) := by
  rw [singleKey] at h
  split at h
  · cases h
  · next e hres =>
    split at h
    · next hcond =>
      cases h
      exact ⟨e, hres, hcond.1, rfl, hcond.2⟩
    · cases h

/-- The cells of one key, for commands that look it up. -/
def Footprint.key (k : Bytes) : Footprint := ⟨fun a => a.2 = k, fun a => a.2 = k, True⟩

theorem meets_key (h : singleKey F args = some k) (i : DbIndex) :
    (Footprint.key k).Meets F args i := by
  obtain ⟨e, hres, hclass, hkey, hall⟩ := singleKey_eq_some h
  intro e' he'
  rw [hres] at he'
  cases he'
  have hmem := (find_mem (resolve_run hres).1).1
  refine ⟨?_, fun hu => absurd (of_decide_eq_true hu) (registry_singleKey hmem hclass).2⟩
  change (keySpec e.name e.firstKey).Covered _ _
  rw [keySpec, hclass] at hall ⊢
  dsimp only at hall ⊢
  split at hall
  · next hset =>
    rw [if_pos hset]
    intro bs hbs b hb
    rw [argsBytes_eq hbs] at hb
    obtain ⟨word, hword, rfl⟩ := mem_map.mp hb
    exact hall rfl word hword
  · next hset =>
    rw [if_neg hset]
    intro b hb
    exact ⟨(keyAt_of_argBytes hb).symm.trans hkey, (keyAt_of_argBytes hb).symm.trans hkey⟩

variable {n : Nat} [NeZero n]

/-- It is run on the shard of the key, as it is. -/
theorem dispatchCommand_of_singleKey (h : singleKey F args = some k) (home : Fin n) :
    dispatchCommand F home args = .run (shard k n) args := by
  obtain ⟨e, hres, hclass, rfl, -⟩ := singleKey_eq_some h
  obtain ⟨hfind, hname⟩ := resolve_run hres
  have harity : arityOk e.arity args.length = true := by
    by_contra hno
    rw [resolve_of_find hname hfind, if_neg hno] at hres
    cases hres
  rw [dispatchCommand_singleKey home hfind hname hclass harity,
    (registry_singleKey (find_mem hfind).1 hclass).1]

/-- No part of another command looks like one. -/
theorem args_of_singleKey {home : Fin n} {sub : Sub n}
    (hsub : sub ∈ (dispatchCommand F home args).commands) (h : singleKey F sub.args = some k) :
    sub.args = args := by
  obtain ⟨e, hres, hclass, -⟩ := singleKey_eq_some h
  obtain ⟨entry, hname, hfind, -, hroute⟩ := mem_commands hsub
  rw [routed_class hname hfind hroute hres] at hclass
  rw [route, hclass] at hroute
  exact congrArg Sub.args (mem_singleton.mp hroute)

end SingleKey

/-! ## Stores with the same cells of a key -/

section SameKey

variable {F : Type} {k : Bytes}

structure EngineShard.SameKey (k : Bytes) (s t : EngineShard F) : Prop where
  nowMs : s.dbSlice.nowMs = t.dbSlice.nowMs
  cell : ∀ i, s.dbSlice.cell (i, k) = t.dbSlice.cell (i, k)

namespace EngineShard.SameKey

variable {s s' t : EngineShard F}

theorem refl (k : Bytes) (s : EngineShard F) : SameKey k s s := ⟨rfl, fun _ => rfl⟩

/-- What lapsed on one side can be removed on the other. -/
theorem purge (h : SameKey k s t) {now : UInt64} (hnow : s'.dbSlice.nowMs = now)
    (hlapses : ∀ i, Cell.Lapses now (s.dbSlice.cell (i, k)) (s'.dbSlice.cell (i, k))) :
    ∃ t', DbSlice.Purges (t.updateTime now).dbSlice t'.dbSlice ∧ SameKey k s' t' := by
  classical
  let dbs (i : DbIndex) : DbTable F :=
    if s'.dbSlice.cell (i, k) = s.dbSlice.cell (i, k) then t.dbSlice.dbs i
      else (t.dbSlice.dbs i).forget k
  have hkey : ∀ i, (dbs i).cell k = s'.dbSlice.cell (i, k) := by
    intro i
    dsimp only [dbs]
    split
    · next heq => exact (h.cell i).symm.trans heq.symm
    · next hne =>
      rw [DbTable.cell_forget_self]
      exact ((hlapses i).resolve_left hne).2.symm
  have hother : ∀ i k', k' ≠ k → (dbs i).cell k' = t.dbSlice.cell (i, k') := by
    intro i k' hk
    dsimp only [dbs]
    split
    · rfl
    · exact DbTable.cell_forget_ne _ hk
  refine ⟨{ t with dbSlice := ⟨dbs, now⟩ }, ⟨rfl, fun ⟨i, k'⟩ => ?_⟩, hnow, fun i => (hkey i).symm⟩
  by_cases hk : k' = k
  · subst hk
    have hl := hlapses i
    rw [h.cell i, ← hkey i] at hl
    exact hl
  · exact .inl (hother i k' hk)

variable [F64 F] [HashOrder] [CaseTable]

/-- A command on the key replies the same on both sides. -/
theorem perform (h : SameKey k s t) {args : List RespExpr} (hkey : singleKey F args = some k)
    (ω ω' : Listing Bytes) (now : UInt64) (db : DbIndex) :
    (s.perform ω now db args).reply = (t.perform ω' now db args).reply ∧
      SameKey k (s.perform ω now db args).shard (t.perform ω' now db args).shard := by
  have hagree : Agree (Footprint.key k).reads ⟨(s.updateTime now).dbSlice,
      ⟨db⟩⟩ ⟨(t.updateTime now).dbSlice, ⟨db⟩⟩ := by
    refine ⟨rfl, rfl, ?_⟩
    rintro ⟨i, k'⟩ rfl
    exact h.cell i
  have hstrict : (Footprint.key k).strict := trivial
  obtain ⟨hreply, hafter⟩ := dispatch_agree hstrict (meets_key hkey db) hagree ω ω'
  exact ⟨hreply, hafter.nowMs, fun i => hafter.cell (i, k) rfl⟩

end EngineShard.SameKey

/-- From the clock of the first store on, the key is seen alike on both sides. -/
def EngineShard.LiveKey (k : Bytes) (s t : EngineShard F) : Prop :=
  ∀ now, s.dbSlice.nowMs ≤ now → ∀ i,
  (s.dbSlice.cell (i, k)).live now = (t.dbSlice.cell (i, k)).live now

namespace EngineShard.LiveKey

variable {s s' t : EngineShard F}

theorem purge (h : LiveKey k s t) {now : UInt64} (hclock : s.dbSlice.nowMs ≤ now)
    (hpurges : DbSlice.Purges (s.updateTime now).dbSlice s'.dbSlice) : LiveKey k s' t := by
  intro later hle i
  have hnow : s'.dbSlice.nowMs = now := hpurges.nowMs
  rw [hnow] at hle
  have hlive : (s'.dbSlice.cell (i, k)).live now = (s.dbSlice.cell (i, k)).live now :=
    hpurges.live (i, k)
  rw [← Cell.live_live_le hle, hlive, Cell.live_live_le hle]
  exact h later (UInt64.le_trans hclock hle) i

variable [F64 F] [HashOrder] [CaseTable]

theorem perform (h : LiveKey k s t) {args : List RespExpr} (hkey : singleKey F args = some k)
    (ω ω' : Listing Bytes) {now : UInt64} (hclock : s.dbSlice.nowMs ≤ now) (db : DbIndex) :
    (s.perform ω now db args).reply = (t.perform ω' now db args).reply ∧
      LiveKey k (s.perform ω now db args).shard (t.perform ω' now db args).shard := by
  have halike : Alike (Footprint.key k) Phase.start ⟨(s.updateTime now).dbSlice, ⟨db⟩⟩
      ⟨(t.updateTime now).dbSlice, ⟨db⟩⟩ := by
    refine ⟨rfl, rfl, ?_, (fun _ ha => nomatch ha), fun _ ha => nomatch ha⟩
    rintro ⟨i, k'⟩ rfl -
    exact h now hclock i
  have hstrict : (Footprint.key k).strict := trivial
  obtain ⟨hreply, hafter⟩ := dispatch_alike hstrict (meets_key hkey db) halike ω ω'
  refine ⟨hreply, fun later hle i => ?_⟩
  have hlive : ((s.perform ω now db args).shard.dbSlice.cell (i, k)).live
        (s.perform ω now db args).shard.dbSlice.nowMs =
      ((t.perform ω' now db args).shard.dbSlice.cell (i, k)).live
        (s.perform ω now db args).shard.dbSlice.nowMs :=
    hafter.live (i, k) rfl (Set.notMem_empty _)
  rw [← Cell.live_live_le hle, hlive, Cell.live_live_le hle]

end EngineShard.LiveKey

end SameKey

/-! ## One after another -/

/-- A command that was run, the clock it was run at and its reply; `none` is a panic. -/
structure Call where
  id : Nat
  db : DbIndex
  now : UInt64
  args : List RespExpr
  reply : Option Bytes

section Serial

variable {F : Type} [F64 F] [HashOrder] [CaseTable]

/-- The calls are carried out one after another, each exactly once; in between the store sees the
clock and removes lapsed keys. -/
inductive Serial (steady : Prop) (store : EngineShard F) : List Call → EngineShard F → Prop
  | start : Serial steady store [] store
  | idle {calls : List Call} {s s' : EngineShard F} {now : UInt64} (h : Serial steady store calls s)
      (hclock : steady → s.dbSlice.nowMs ≤ now)
      (hpurges : DbSlice.Purges (s.updateTime now).dbSlice s'.dbSlice) :
      Serial steady store calls s'
  | call {calls : List Call} {s : EngineShard F} {id : Nat} {db : DbIndex} {now : UInt64}
      {args : List RespExpr} {ω : Listing Bytes} (h : Serial steady store calls s)
      (hclock : steady → s.dbSlice.nowMs ≤ now) :
      Serial steady store (calls ++ [⟨id, db, now, args, (s.perform ω now db args).reply⟩])
        (s.perform ω now db args).shard

/-- The calls on a store that only carries out these, at the times they were run at: the store
afterwards and the replies. -/
def replay (ω : Listing Bytes) (store : EngineShard F) (calls : List Call) :
    EngineShard F × List (Option Bytes) :=
  calls.foldl (fun st c => ((st.1.perform ω c.now c.db c.args).shard,
    st.2 ++ [(st.1.perform ω c.now c.db c.args).reply])) (store, [])

variable {steady : Prop} {store s : EngineShard F} {calls : List Call}

/-- With a clock that does not go back the removal of lapsed keys is not seen. -/
theorem Serial.replay_eq (h : Serial steady store calls s) (hsteady : steady) {k : Bytes}
    (hkeys : ∀ c ∈ calls, singleKey F c.args = some k) (ω : Listing Bytes) :
    (replay ω store calls).2 = calls.map Call.reply ∧ s.LiveKey k (replay ω store calls).1 := by
  induction h with
  | start => exact ⟨rfl, fun _ _ _ => rfl⟩
  | @idle calls s s' now h hclock hpurges ih =>
    obtain ⟨hreplies, hlive⟩ := ih hkeys
    exact ⟨hreplies, hlive.purge (hclock hsteady) hpurges⟩
  | @call calls s id db now args ω' h hclock ih =>
    obtain ⟨hreplies, hlive⟩ := ih fun c hc => hkeys c (mem_append_left _ hc)
    have hkey := hkeys _ (mem_append_right _ mem_cons_self)
    obtain ⟨hreply, hafter⟩ := hlive.perform hkey ω' ω (hclock hsteady) db
    rw [replay, foldl_append, map_append, ← hreplies, map_singleton, hreply]
    exact ⟨rfl, hafter⟩

/-! ## Counters -/

/-- An `INCR` of the key in the database. -/
def Call.IsIncr (k : Bytes) (i : DbIndex) (c : Call) : Prop :=
  c.db = i ∧ commandName c.args = .ok (ascii "INCR") ∧ c.args[1]?.bind RespExpr.asBytes = some k

instance (k : Bytes) (i : DbIndex) : DecidablePred (Call.IsIncr k i) := fun c => by
  unfold Call.IsIncr
  infer_instance

theorem perform_incr {args : List RespExpr} {k : Bytes} {i : DbIndex} {v : Int64}
    (hcalls : Calls F args (ascii "INCR")) (hkey : args[1]?.bind RespExpr.asBytes = some k)
    (hdeadline : (s.dbSlice.cell (i, k)).2 = none)
    (hold : counterOf (s.dbSlice.cell (i, k)).1 = some v) (hfits : v.toInt + 1 < 2 ^ 63)
    (ω : Listing Bytes) (now : UInt64) :
    ∃ w : Int64, w.toInt = v.toInt + 1 ∧
    (s.perform ω now i args).reply = some (ReplyBuilder.sendInteger w) ∧
      (s.perform ω now i args).shard.dbSlice.cell (i, k) = (some (.integer w), none) := by
  obtain ⟨e, hres, hhandler⟩ := (CounterRequest.incr hcalls).resolve
  have hlive : ((s.updateTime now).dbSlice.cell (i, k)).live now = s.dbSlice.cell (i, k) := by
    refine Cell.live_of_not_lapsed ?_
    change (s.dbSlice.cell (i, k)).lapsed now = false
    rw [Cell.lapsed, hdeadline]
  have hleaves : Leaves ω (StringFamily.incrBy ⟨args, i⟩ 1) ⟨(s.updateTime now).dbSlice, ⟨i⟩⟩ _ _ :=
    incrBy_leaves 1 ω hkey hlive hold
  have hone : (1 : Int64).toInt = 1 := rfl
  have hrange : InI64 (v.toInt + (1 : Int64).toInt) := ⟨by have := v.le_toInt; omega, by omega⟩
  obtain ⟨w, hadd, hw⟩ := checkedAdd_of_inI64 hrange
  rw [bumped, hadd, hdeadline] at hleaves
  have hhandler' := hhandler i
  change e.handler ⟨args, i⟩ = StringFamily.incrBy ⟨args, i⟩ 1 at hhandler'
  rw [← hhandler'] at hleaves
  obtain ⟨hreply, hcells⟩ := dispatch_leaves hres hleaves
  refine ⟨w, hw, hreply, ?_⟩
  rw [EngineShard.perform, hcells, Function.update_self]

/-- The `INCR`s of a counter reply one number after the other. -/
theorem Serial.incr_replies (h : Serial steady store calls s) {k : Bytes} {i : DbIndex} {v : Int64}
    (hdeadline : (store.dbSlice.cell (i, k)).2 = none)
    (hold : counterOf (store.dbSlice.cell (i, k)).1 = some v)
    (hkeys : ∀ c ∈ calls, singleKey F c.args = some k)
    (hcalls : ∀ c ∈ calls, c.IsIncr k i ∨ Avoids F (i, k) c.db c.args)
    (hfits : v.toInt + (calls.filter (Call.IsIncr k i)).length < 2 ^ 63) :
    (calls.filter (Call.IsIncr k i)).map Call.reply =
        (range (calls.filter (Call.IsIncr k i)).length).map
          (fun j : Nat => some (ReplyBuilder.sendInteger (.ofInt (v.toInt + (j + 1))))) ∧
      (s.dbSlice.cell (i, k)).2 = none ∧ ∃ w, counterOf (s.dbSlice.cell (i, k)).1 = some w ∧
        w.toInt = v.toInt + (calls.filter (Call.IsIncr k i)).length := by
  induction h with
  | start => exact ⟨rfl, hdeadline, v, hold, (Int.add_zero _).symm⟩
  | @idle calls s s' now h hclock hpurges ih =>
    obtain ⟨hreplies, hnone, hcount⟩ := ih hkeys hcalls hfits
    have hcell : s'.dbSlice.cell (i, k) = s.dbSlice.cell (i, k) :=
      Cell.Lapses.eq (hpurges.cell (i, k)) hnone
    rw [hcell]
    exact ⟨hreplies, hnone, hcount⟩
  | @call calls s id db now args ω h hclock ih =>
    have hlast : (⟨id, db, now, args, (s.perform ω now db args).reply⟩ : Call) ∈
        calls ++ [⟨id, db, now, args, (s.perform ω now db args).reply⟩] :=
      mem_append_right _ mem_cons_self
    rw [filter_append] at hfits ⊢
    obtain ⟨hreplies, hnone, w, hw, hcount⟩ := ih (fun c hc => hkeys c (mem_append_left _ hc))
      (fun c hc => hcalls c (mem_append_left _ hc)) (by rw [length_append] at hfits; omega)
    by_cases hincr : Call.IsIncr k i ⟨id, db, now, args, (s.perform ω now db args).reply⟩
    · obtain ⟨rfl, hname, hkey⟩ := hincr
      rw [filter_cons_of_pos (by simpa using ⟨rfl, hname, hkey⟩), filter_nil] at hfits ⊢
      rw [length_append, length_singleton] at hfits ⊢
      obtain ⟨e, hres, -⟩ := singleKey_eq_some (hkeys _ hlast)
      obtain ⟨w', hw', hreply, hcell⟩ :=
        perform_incr ⟨hname, e, hres⟩ hkey hnone hw (by omega) ω now
      have hnext : w' = .ofInt (v.toInt + ((calls.filter (Call.IsIncr k db)).length + 1)) := by
        rw [← Int64.ofInt_toInt w', hw', hcount, Int.add_assoc]
      rw [map_append, hreplies, range_succ, map_append, map_singleton, map_singleton,
        ← hnext, hcell]
      refine ⟨congrArg (fun r => _ ++ [r]) hreply, rfl, w', rfl, ?_⟩
      rw [hw', hcount, Int.natCast_add, Int.add_assoc]
      rfl
    · rw [filter_cons_of_neg (by simpa using hincr), filter_nil, append_nil]
      have hcell : (s.perform ω now db args).shard.dbSlice.cell (i, k) = s.dbSlice.cell (i, k) :=
        Cell.Lapses.eq ((hcalls _ hlast).resolve_left hincr ω (s.updateTime now)) hnone
      rw [hcell]
      exact ⟨hreplies, hnone, w, hw, hcount⟩

end Serial

end ShrikeDb
