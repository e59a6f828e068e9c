import Mathlib.Algebra.BigOperators.Fin
import ShrikeDb.Server.FanOut

/-! The commands that run on every shard, and the agreement of both dispatchers with
one shard for all commands that involve several. -/

namespace ShrikeDb

open CommandRegistry Sharding ReplyBuilder Walk Cluster ShardThread GenericFamily StringFamily List

variable {F : Type} {n : Nat}

/-! ## The union, key by key -/

section Union

variable [NeZero n] {c c' : Cluster F n}

/-- A change of every cell by itself on every shard is the same change of the union. -/
theorem pointwise_union {G : Addr → Cell F → Cell F} (hempty : ∀ a, G a Cell.empty = Cell.empty)
    (hplaced : c.Placed) (h : ∀ s a, (c' s).dbSlice.cell a = G a ((c s).dbSlice.cell a))
    (now : UInt64) : c'.Placed ∧ ∀ a, (c'.union now).cell a = G a ((c.union now).cell a) := by
  have hplaced' : c'.Placed := by
    intro s a hne
    refine hplaced s a fun hc => hne ?_
    rw [h, hc, hempty]
  refine ⟨hplaced', fun a => ?_⟩
  rw [cell_union hplaced', cell_union hplaced, h]

theorem mem_keys_union (hplaced : c.Placed) (now : UInt64) (i : DbIndex) (k : Bytes) :
    k ∈ ((c.union now).dbs i).prime.keys ↔ k ∈ ((c (shard k n)).dbSlice.dbs i).prime.keys := by
  have hcell := congrArg (fun cell => cell.1.isSome) (cell_union hplaced now (i, k))
  rw [Finmap.mem_keys, Finmap.mem_keys, ← Finmap.lookup_isSome, ← Finmap.lookup_isSome]
  exact Bool.eq_iff_iff.mp hcell

theorem shard_of_mem_keys (hplaced : c.Placed) {s : Fin n} {i : DbIndex} {k : Bytes}
    (hk : k ∈ ((c s).dbSlice.dbs i).prime.keys) : shard k n = s := by
  refine hplaced s (i, k) fun hc => ?_
  have hsome : (((c s).dbSlice.cell (i, k)).1).isSome = true :=
    Finmap.lookup_isSome.mpr (Finmap.mem_keys.mp hk)
  rw [hc] at hsome
  cases hsome

theorem dbSize_union (hplaced : c.Placed) (now : UInt64) (i : DbIndex) :
    (c.union now).dbSize i = ∑ s, (c s).dbSlice.dbSize i := by
  rw [DbSlice.dbSize, Finset.card_eq_sum_card_fiberwise
    (f := fun k => shard k n) (t := Finset.univ) fun _ _ => Finset.mem_univ _]
  refine Finset.sum_congr rfl fun s _ => congrArg Finset.card ?_
  ext k
  rw [Finset.mem_filter, mem_keys_union hplaced]
  constructor
  · rintro ⟨hk, rfl⟩
    exact hk
  · intro hk
    obtain rfl := shard_of_mem_keys hplaced hk
    exact ⟨hk, rfl⟩

/-- The keys the shards list, in any order of the shards, are those of the union. -/
theorem keys_union_perm (hplaced : c.Placed) (now : UInt64) (i : DbIndex) (pattern : Bytes)
    (ωs : Fin n → Listing Bytes) (ω : Listing Bytes) {order : List (Fin n)}
    (horder : order.Perm (finRange n)) :
    (order.flatMap fun s => (((c s).dbSlice.updateTime now).keys (ωs s) i pattern).1).Perm
      ((c.union now).keys ω i pattern).1 := by
  have hnodup (ω : Listing Bytes) (s : DbSlice F) : (s.keys ω i pattern).1.Nodup :=
    (ω.nodup _).filter _
  have hmem : ∀ s k, k ∈ (((c s).dbSlice.updateTime now).keys (ωs s) i pattern).1 →
      shard k n = s ∧ k ∈ ((c.union now).keys ω i pattern).1 := by
    intro s k hk
    rw [mem_keys_fst] at hk ⊢
    have hs : shard k n = s := by
      refine hplaced s (i, k) fun hc => ?_
      have hsome : ((((c s).dbSlice.cell (i, k)).live now).1).isSome = true := hk.1
      rw [hc] at hsome
      cases hsome
    refine ⟨hs, ?_⟩
    rw [cell_union hplaced, hs]
    exact hk
  refine (perm_ext_iff_of_nodup ?_ (hnodup ω _)).mpr fun k => ?_
  · refine nodup_flatMap.mpr ⟨fun s _ => hnodup _ _, ?_⟩
    refine (horder.nodup_iff.mpr (nodup_finRange n)).imp fun {s t} hst k hs ht => hst ?_
    exact (hmem s k hs).1.symm.trans (hmem t k ht).1
  · rw [mem_flatMap]
    constructor
    · rintro ⟨s, -, hk⟩
      exact (hmem s k hk).2
    · intro hk
      refine ⟨shard k n, horder.mem_iff.mpr (mem_finRange _), ?_⟩
      rw [mem_keys_fst] at hk ⊢
      rw [cell_union hplaced] at hk
      exact hk

end Union

/-! ## Running a command everywhere -/

/-- One and the same command for every shard. -/
structure Everywhere (args : List RespExpr) (subs : List (Sub n)) : Prop where
  perm : (subs.map Sub.target).Perm (finRange n)
  same : ∀ sub ∈ subs, sub.args = args

/-- The plan sends the command to every shard. With one shard it is run there as it stands. -/
def Plan.Broadcasts (plan : Plan n) (home : Fin n) (args : List RespExpr) (merge : Merge n) :
    Prop :=
  (n = 1 ∧ plan = .run home args) ∨ ∃ subs, plan = .fan subs merge ∧ Everywhere args subs

theorem everywhere_all (args : List RespExpr) :
    Everywhere args ((finRange n).map fun sid => ({ target := sid, args := args } : Sub n)) := by
  refine ⟨?_, fun sub hsub => ?_⟩
  · rw [map_map]
    exact .of_eq (map_id _)
  · obtain ⟨sid, -, rfl⟩ := mem_map.mp hsub
    rfl

theorem everywhere_home (home : Fin n) (args : List RespExpr) :
    Everywhere args (({ target := home, args := args } : Sub n) ::
      ((finRange n).filter (· ≠ home)).map fun sid => { target := sid, args := args }) := by
  refine ⟨?_, fun sub hsub => ?_⟩
  · have htargets : ((({ target := home, args := args } : Sub n) ::
        ((finRange n).filter (· ≠ home)).map fun sid => { target := sid, args := args }).map
          Sub.target) = home :: (finRange n).filter (· ≠ home) := by
      rw [map_cons, map_map]
      exact congrArg (home :: ·) (map_id _)
    have hnodup := nodup_finRange n
    rw [htargets]
    refine (perm_ext_iff_of_nodup (nodup_cons.mpr ⟨?_, hnodup.filter _⟩) hnodup).mpr fun s => ?_
    · simp
    · simp [eq_or_ne]
  · rcases mem_cons.mp hsub with rfl | hsub
    · rfl
    · obtain ⟨sid, -, rfl⟩ := mem_map.mp hsub
      rfl

section Outcomes

variable [F64 F] [HashOrder] [CaseTable] {args : List RespExpr} {now : UInt64} {i : DbIndex}
  {c c' : Cluster F n} {reply : Bytes}

theorem Everywhere.exec {subs : List (Sub n)} (h : Everywhere args subs)
    {ran : List (Sub n × Listing Bytes)} (hran : (ran.map Prod.fst).Perm subs) (now : UInt64)
    (i : DbIndex) (c : Cluster F n) (s : Fin n) :
    ∃ ω, (execAll now i ran c).1 s = (dispatch ω args ⟨i⟩ ((c s).updateTime now)).reply ∧
      (execAll now i ran c).2 s = (dispatch ω args ⟨i⟩ ((c s).updateTime now)).shard := by
  have htargets : (ran.map fun p => p.1.target).Perm (finRange n) := by
    have hperm := (hran.map Sub.target).trans h.perm
    rwa [map_map] at hperm
  obtain ⟨p, hp, rfl⟩ := mem_map.mp (htargets.mem_iff.mpr (mem_finRange s))
  obtain ⟨hreply, hshard⟩ :=
    (execAll_spec now i (htargets.nodup_iff.mpr (nodup_finRange n)) c).1 p hp
  have hargs := h.same p.1 (hran.mem_iff.mp (mem_map_of_mem hp))
  rw [execOne, hargs] at hreply hshard
  exact ⟨p.2, hreply, hshard⟩

theorem exists_outcome_fan (subs : List (Sub n)) (merge : Merge n) (ω : Listing Bytes) :
    ∃ reply c', Outcome now i c (.fan subs merge) reply c' := by
  have hran : ((subs.map fun sub => (sub, ω)).map Prod.fst).Perm subs := by
    rw [map_map]
    exact .of_eq (map_id subs)
  exact ⟨_, _, .fan (.refl subs) hran⟩

/-- The plan has an outcome, and all its outcomes agree with one shard. -/
def PlanAgrees [NeZero n] (now : UInt64) (i : DbIndex) (args : List RespExpr) (ω : Listing Bytes)
    (c : Cluster F n) (plan : Plan n) : Prop :=
  (∃ reply c', Outcome now i c plan reply c') ∧
    ∀ reply c', Outcome now i c plan reply c' → Agrees now i args ω c reply c'

section Everywhere

variable {X : Type} (enc : X → Bytes) (combine : List X → X) (value : Listing Bytes → DbSlice F → X)
  (hone : ∀ x, combine [x] = x) (hreply : ∀ ω (sh : EngineShard F),
    (dispatch ω args ⟨i⟩ sh).reply = some (enc (value ω sh.dbSlice)))
  {merge : Merge n} (hmerge : ∀ (subs : List (Sub n)) (ωs : Fin n → Listing Bytes),
    let values (sub : Sub n) := value (ωs sub.target) ((c sub.target).dbSlice.updateTime now)
    merge.apply (subs.map fun sub => (sub, some (enc (values sub)))) =
      enc (combine (subs.map values)))
  {plan : Plan n} {home : Fin n}

include hone hreply hmerge

/-- What comes of running a command everywhere, when each shard replies the encoding of
a value and the merged reply encodes the combined values. With one shard its reply is
passed on. -/
theorem outcome_everywhere (hplan : plan.Broadcasts home args merge)
    (hout : Outcome now i c plan reply c') :
    ∃ (ωs : Fin n → Listing Bytes) (order : List (Fin n)), order.Perm (finRange n) ∧
      (∀ s, c' s = (dispatch (ωs s) args ⟨i⟩ ((c s).updateTime now)).shard) ∧
      reply = enc (combine (order.map fun s => value (ωs s) ((c s).dbSlice.updateTime now))) := by
  rcases hplan with ⟨rfl, rfl⟩ | ⟨subs, rfl, hsubs⟩
  · cases hout with
    | run h =>
      rename_i ω
      refine ⟨fun _ => ω, [home], ?_, fun s => ?_, ?_⟩
      · rw [Subsingleton.elim home 0]
        exact .refl _
      · rw [Subsingleton.elim s home, Function.update_self]
        rfl
      · rw [execOne, hreply] at h
        rw [map_singleton, hone]
        exact (Option.some.inj h).symm
  · cases hout with
    | fan hawaited hran =>
      rename_i awaited ran
      choose ωs hωs using hsubs.exec hran now i c
      refine ⟨ωs, awaited.map Sub.target, (hawaited.map Sub.target).trans hsubs.perm,
        fun s => (hωs s).2, ?_⟩
      have hreplies : (awaited.map fun sub => (sub, (execAll now i ran c).1 sub.target)) =
          awaited.map fun sub =>
            (sub, some (enc (value (ωs sub.target) ((c sub.target).dbSlice.updateTime now)))) := by
        refine map_congr_left fun sub _ => ?_
        rw [(hωs sub.target).1, hreply]
        rfl
      rw [hreplies, hmerge, map_map]
      rfl

/-- A command for every shard, if it changes every cell by itself. -/
theorem PlanAgrees.of_everywhere [NeZero n] (G : Addr → Cell F → Cell F)
    (hempty : ∀ a, G a Cell.empty = Cell.empty)
    (hcell : ∀ ω (sh : EngineShard F), sh.dbSlice.nowMs = now →
      ∀ a, (dispatch ω args ⟨i⟩ sh).shard.dbSlice.cell a = G a (sh.dbSlice.cell a))
    {ω : Listing Bytes}
    (hsame : ∀ (ωs : Fin n → Listing Bytes) (order : List (Fin n)), order.Perm (finRange n) →
      Answered.Same
        ⟨args, some (enc
          (combine (order.map fun s => value (ωs s) ((c s).dbSlice.updateTime now))))⟩
        ⟨args, some (enc (value ω (c.union now)))⟩) (hplaced : c.Placed) {plan : Plan n}
    {home : Fin n}
    (hplan : (n = 1 ∧ plan = .run home args) ∨ ∃ subs, plan = .fan subs merge ∧
      Everywhere args subs) :
    PlanAgrees now i args ω c plan := by
  refine ⟨?_, fun reply c' hout => ?_⟩
  · rcases hplan with ⟨_, rfl⟩ | ⟨subs, rfl, _⟩
    · exact ⟨_, _, .run (hreply ω ((c home).updateTime now))⟩
    · exact exists_outcome_fan subs merge ω
  obtain ⟨ωs, order, horder, hafter, rfl⟩ :=
    outcome_everywhere enc combine value hone hreply hmerge hplan hout
  have hcells : ∀ s a, (c' s).dbSlice.cell a = G a ((c s).dbSlice.cell a) := by
    intro s a
    rw [hafter s]
    exact hcell (ωs s) ((c s).updateTime now) rfl a
  obtain ⟨hplaced', hunion⟩ := pointwise_union hempty hplaced hcells now
  refine .of_cells hplaced' ?_ (funext fun a => ?_)
  · rw [hreply]
    exact hsame ωs order horder
  · rw [hunion]
    exact (hcell ω (c.asOne now) rfl a).symm

end Everywhere

end Outcomes

/-! ## The four commands -/

theorem run_flushAll (ω : Listing Bytes) (dbs : List DbIndex) (x : Exec F) :
    Program.run (step ω) (Program.forEach (fun i => Program.invoke (S := dbOps F) (.flushDb i)) dbs)
      x = (some (dbs.map fun _ => ()), ⟨dbs.foldl DbSlice.flushDb x.slice, x.conn⟩) := by
  induction dbs generalizing x with
  | nil => rfl
  | cons i dbs ih =>
    have hfirst := Program.run_invoke (step ω) (DbOp.flushDb i) x
    exact (Program.run_bind_of (step ω) _ hfirst).trans (Program.run_bind_of (step ω) _ (ih _))

theorem cell_flushAll (dbs : List DbIndex) (s : DbSlice F) (a : Addr) :
    (dbs.foldl DbSlice.flushDb s).cell a = if a.1 ∈ dbs then Cell.empty else s.cell a := by
  induction dbs generalizing s with
  | nil => rfl
  | cons i dbs ih =>
    rw [foldl_cons, ih, DbSlice.cell_flushDb]
    by_cases hi : a.1 = i
    · simp [hi]
    · simp [hi]

/-- `KEYS` purges the keys of its database that are there and have lapsed. -/
theorem cell_keys (ω : Listing Bytes) (s : DbSlice F) (i : DbIndex) (pattern : Bytes) (a : Addr) :
    (s.keys ω i pattern).2.cell a =
      if a.1 = i ∧ (s.cell a).1.isSome = true ∧ (s.cell a).lapsed s.nowMs = true then Cell.empty
      else s.cell a := by
  obtain ⟨j, k⟩ := a
  by_cases hj : j = i
  · subst hj
    have hmem : k ∈ (ω.list (s.dbs j).prime.keys).filter ((s.dbs j).lapsed s.nowMs) ↔
        (s.cell (j, k)).1.isSome = true ∧ (s.cell (j, k)).lapsed s.nowMs = true := by
      rw [mem_filter, ω.mem_list, Finmap.mem_keys, ← Finmap.lookup_isSome]
      rfl
    rw [DbSlice.keys, DbSlice.cell_setDb_self, DbTable.cell_foldl_forget]
    simp only [hmem, true_and]
    rfl
  · rw [DbSlice.keys, DbSlice.cell_setDb_ne s _ hj, if_neg fun h => hj h.1]

theorem parseRespArray_sendStringArray {keys : List Bytes} (h : ∀ k ∈ keys, k.length < 2 ^ 63) :
    parseRespArray (sendStringArray keys) = keys.map some := by
  have hflat : keys.flatMap sendBulkString = (keys.map some).flatMap sendOptional := by
    rw [flatMap_map]
    rfl
  rw [sendStringArray, hflat]
  refine parseRespArray_sendArray _ fun v hv => ?_
  obtain ⟨k, hk, heq⟩ := mem_map.mp hv
  exact Option.some.inj heq ▸ h k hk

theorem replyKeys_sendStringArray {keys : List Bytes} (h : ∀ k ∈ keys, k.length < 2 ^ 63) :
    replyKeys (some (sendStringArray keys)) = keys := by
  rw [replyKeys, parseRespArray_sendStringArray h, filterMap_map]
  exact filterMap_some

/-- The commands that are split over the shards or run on all of them. -/
def fannedOut : List Bytes :=
  [ascii "DEL", ascii "UNLINK", ascii "EXISTS", ascii "MGET", ascii "MSET", ascii "DBSIZE",
    ascii "KEYS", ascii "FLUSHDB", ascii "FLUSHALL"]

theorem fannedOut_ordinary : ∀ name ∈ fannedOut, name ≠ ascii "QUIT" ∧ name ≠ ascii "SELECT" ∧
    name ≠ ascii "SAVE" ∧ name ≠ ascii "BGSAVE" := by
  decide

section Commands

variable [NeZero n] [F64 F] [HashOrder] [CaseTable] {args : List RespExpr} {now : UInt64}
  {i : DbIndex}
  {c c' : Cluster F n} {reply : Bytes} {ω : Listing Bytes} {plan : Plan n} {home : Fin n}
  {arity : Int16} {firstKey : Nat} {name : Bytes}

theorem dbsize_agrees (hres : resolve (F := F) args = .run ⟨name, cmdDbsize, arity, firstKey⟩)
    (hplaced : c.Placed) (hplan : plan.Broadcasts home args .sum) :
    PlanAgrees now i args ω c plan := by
  refine .of_everywhere (fun size => sendInteger (Int64.ofNat size)) sum
    (fun _ s => s.dbSize i) (fun x => sum_singleton) (fun ω sh => ?_) (fun subs ωs => ?_)
    (fun _ cell => cell) (fun _ => rfl) (fun ω sh _ a => ?_)
    (fun ωs order horder => ?_) hplaced hplan
  · rw [dispatch, hres]
    rfl
  · dsimp only
    rw [Merge.apply, map_map]
    exact congrArg sendInteger (sumReplies_counts _ subs)
  · rw [dispatch, hres]
    rfl
  · refine ⟨rfl, .inl ?_⟩
    rw [dbSize_union hplaced, (horder.map _).sum_eq, ← Fin.sum_univ_def]
    rfl

theorem flushdb_agrees (hres : resolve (F := F) args = .run ⟨name, cmdFlushdb, arity, firstKey⟩)
    (hplaced : c.Placed) (hplan : plan.Broadcasts home args .ok) :
    PlanAgrees now i args ω c plan := by
  refine .of_everywhere (fun _ : Unit => sendOk) (fun _ => ()) (fun _ _ => ())
    (fun x => rfl) (fun ω sh => ?_) (fun subs ωs => rfl)
    (fun a cell => if a.1 = i then Cell.empty else cell) (fun a => ite_self _) (fun ω sh _ a => ?_)
    (fun ωs order _ => ⟨rfl, .inl rfl⟩) hplaced hplan
  · rw [dispatch, hres]
    rfl
  · rw [dispatch, hres]
    exact DbSlice.cell_flushDb _ i a

theorem flushall_agrees (hres : resolve (F := F) args = .run ⟨name, cmdFlushall, arity, firstKey⟩)
    (hplaced : c.Placed) (hplan : plan.Broadcasts home args .ok) :
    PlanAgrees now i args ω c plan := by
  have hrun : ∀ ω (x : Exec F), Program.run (step ω) (cmdFlushall ⟨args, i⟩) x =
      (some sendOk, ⟨(finRange 16).foldl DbSlice.flushDb x.slice, x.conn⟩) := fun ω x =>
    Program.run_bind_of (step ω) _ (run_flushAll ω _ x)
  refine .of_everywhere (fun _ : Unit => sendOk) (fun _ => ()) (fun _ _ => ())
    (fun x => rfl) (fun ω sh => ?_) (fun subs ωs => rfl) (fun _ _ => Cell.empty) (fun a => rfl)
    (fun ω sh _ a => ?_) (fun ωs order _ => ⟨rfl, .inl rfl⟩) hplaced hplan
  · rw [dispatch, hres]
    dsimp only
    rw [hrun]
  · rw [dispatch, hres]
    dsimp only
    rw [hrun, cell_flushAll, if_pos (mem_finRange _)]

/-- Keys and strings fit a vector. -/
structure Cluster.Fits (c : Cluster F n) : Prop where
  value : ∀ s a, ((c s).dbSlice.cell a).Fits
  key : ∀ s a, ((c s).dbSlice.cell a).1.isSome = true → a.2.length < 2 ^ 63

theorem keys_agrees (hname : commandName args = .ok (ascii "KEYS"))
    (hres : resolve (F := F) args = .run ⟨name, cmdKeys, arity, firstKey⟩) (hplaced : c.Placed)
    (hfits : c.Fits) (hplan : plan.Broadcasts home args .keys) :
    PlanAgrees now i args ω c plan := by
  let ctx : CommandContext := ⟨args, i⟩
  let pattern := (ctx.argStr 1).getD (ascii "*")
  refine .of_everywhere sendStringArray flatten (fun ω s => (s.keys ω i pattern).1)
    (fun l => append_nil l) (fun ω sh => ?_) (fun subs ωs => ?_) (fun a cell =>
      if a.1 = i ∧ cell.1.isSome = true ∧ cell.lapsed now = true then Cell.empty else cell)
    (fun a => ite_self _)
    (fun ω sh hnow a => ?_) (fun ωs order horder => ?_) hplaced hplan
  · rw [dispatch, hres]
    rfl
  · have hread : ∀ sub ∈ subs, replyKeys (some (sendStringArray
        (((c sub.target).dbSlice.updateTime now).keys (ωs sub.target) i pattern).1)) =
          (((c sub.target).dbSlice.updateTime now).keys (ωs sub.target) i pattern).1 := by
      refine fun sub _ => replyKeys_sendStringArray fun k hk => hfits.key sub.target (i, k) ?_
      have hlive := ((mem_keys_fst _ _ _ _ _).mp hk).1
      rcases ((c sub.target).dbSlice.cell (i, k)).live_cases now with ⟨_, he⟩ | ⟨_, he⟩
      · have : (((c sub.target).dbSlice.cell (i, k)).live now).1.isSome = true := hlive
        rw [he] at this
        cases this
      · exact he ▸ hlive
    dsimp only
    rw [Merge.apply, map_map, allKeys, flatMap_map]
    exact congrArg sendStringArray (congrArg flatten (map_congr_left hread))
  · rw [dispatch, hres]
    exact hnow ▸ cell_keys ω sh.dbSlice i pattern a
  · refine ⟨rfl, .inr ⟨hname, _, _, ?_, rfl, rfl⟩⟩
    exact keys_union_perm hplaced now i pattern ωs ω horder

/-! ## Both dispatchers -/

variable {entry : CommandEntry F}

theorem plan_of_line (hname : commandName args = .ok name) (hfind : find name = some entry)
    (hmem : name ∈ fannedOut)
    (hplan : plan = dispatchCommand F home args ∨ plan = MainService.dispatch F args) :
    (∃ data, plan = .reply data true ∧ resolve (F := F) args = .reply data true) ∨
      resolve args = .run entry ∧ (plan = route home name entry.firstKey args ∨
        plan = MainService.route name entry.firstKey args) := by
  obtain ⟨hquit, hselect, hsave, hbgsave⟩ := fannedOut_ordinary name hmem
  simp only [dispatchCommand, MainService.dispatch, resolve, hname, hquit, hselect, hsave,
    hbgsave, or_self, hfind, if_false] at hplan ⊢
  by_cases harity : arityOk entry.arity args.length = true
  · rw [if_pos harity, if_pos harity] at hplan
    rw [if_pos harity]
    exact .inr ⟨rfl, hplan⟩
  · rw [if_neg harity, if_neg harity, or_self] at hplan
    rw [if_neg harity]
    exact .inl ⟨_, hplan, rfl⟩

omit [HashOrder] in
theorem global_plan {merge : Merge n} (hclass : classifyCommand name firstKey = .global)
    (hlocal : dispatchGlobal home name args = if n = 1 then .run home args else
      .fan (({ target := home, args := args } : Sub n) ::
        ((finRange n).filter (· ≠ home)).map fun sid => { target := sid, args := args }) merge)
    (hmain : MainService.dispatchGlobal name args =
      .fan ((finRange n).map fun sid => ({ target := sid, args := args } : Sub n)) merge)
    (hplan : plan = route home name firstKey args ∨ plan = MainService.route name firstKey args) :
    plan.Broadcasts home args merge := by
  rw [route, MainService.route, hclass] at hplan
  dsimp only at hplan
  rw [hlocal, hmain] at hplan
  rcases hplan with hplan | hplan
  · by_cases hn : n = 1
    · rw [if_pos hn] at hplan
      exact .inl ⟨hn, hplan⟩
    · rw [if_neg hn] at hplan
      exact .inr ⟨_, hplan, everywhere_home home args⟩
  · exact .inr ⟨_, hplan, everywhere_all args⟩

/-- The four commands that run on all shards. -/
theorem global_agrees (hname : commandName args = .ok name)
    (hmem : name ∈ [ascii "DBSIZE", ascii "KEYS", ascii "FLUSHDB", ascii "FLUSHALL"])
    (hfind : find name = some entry) (hres : resolve args = .run entry)
    (hplan : plan = route home name entry.firstKey args ∨
      plan = MainService.route name entry.firstKey args) (hplaced : c.Placed) (hfits : c.Fits) :
    PlanAgrees now i args ω c plan := by
  simp only [mem_cons, not_mem_nil, or_false] at hmem
  rcases hmem with rfl | rfl | rfl | rfl
  · rw [find_dbsize] at hfind
    cases hfind
    exact dbsize_agrees hres hplaced (global_plan rfl rfl rfl hplan)
  · rw [find_keys] at hfind
    cases hfind
    exact keys_agrees hname hres hplaced hfits (global_plan rfl rfl rfl hplan)
  · rw [find_flushdb] at hfind
    cases hfind
    exact flushdb_agrees hres hplaced (global_plan rfl rfl rfl hplan)
  · rw [find_flushall] at hfind
    cases hfind
    exact flushall_agrees hres hplaced (global_plan rfl rfl rfl hplan)

section Keyed

variable {head : RespExpr} {words : List Bytes}

/-- The commands that count over their keys. -/
theorem sum_agrees {answer : Bytes → Cell F → Bool} {effect : Bytes → Cell F → Cell F}
    (hname : commandName (head :: words.map RespExpr.string) = .ok name)
    (hfind : find name = some entry)
    (hres : resolve (head :: words.map RespExpr.string) = .run entry)
    (hcounts : Counts now i entry.handler answer effect)
    (hacc : ∀ sub ∈ splitKeys n (head :: words.map RespExpr.string), Accepts F sub.args)
    (hplaced : c.Placed)
    (hout : Outcome now i c (.fan (splitKeys n (head :: words.map RespExpr.string)) .sum) reply
      c') :
    Agrees now i (head :: words.map RespExpr.string) ω c reply c' := by
  have hsplits := splitKeys_splits hname hfind hacc hcounts
  cases hout with
  | fan hawaited hran =>
    rw [sum_eq hsplits hawaited hran hplaced]
    exact .of_splits hsplits hran hplaced hres
      (hcounts ω _ _ _ (argsBytes_bulk head words i) rfl rfl)

theorem mget_agrees (hres : resolve (F := F) (head :: words.map RespExpr.string) =
      .run ⟨name, cmdMget, arity, firstKey⟩)
    (hacc : ∀ sub ∈ splitMget n (head :: words.map RespExpr.string), Accepts F sub.args)
    (hplaced : c.Placed) (hfits : c.Fits)
    (hout : Outcome now i c (.fan (splitMget n (head :: words.map RespExpr.string))
      (.mget words.length)) reply c') :
    Agrees now i (head :: words.map RespExpr.string) ω c reply c' := by
  have hsplits : Splits _ _ _ _ now i _ _ := splitMget_splits hacc
  have hunion : ∀ a, ((c.union now).cell a).Fits := fun a => by
    rw [cell_union hplaced]
    exact hfits.value _ a
  have hwords := walk_comp (fun k => (i, k)) (fun _ c => stringAt now c)
    (fun _ (c : Cell F) => c.live now) Prod.fst words.zipIdx (c.union now).cell
  rw [zipIdx_map_fst] at hwords
  cases hout with
  | fan hawaited hran =>
    rw [mget_eq hplaced hunion hacc hawaited hran]
    refine .of_splits hsplits hran hplaced hres ?_
    have hleaves := cmdMget_leaves (ω := ω) (x := ⟨c.union now, ⟨i⟩⟩) (argsBytes_bulk head words i)
    rw [← hwords, mgetReply, mgetWalk, length_walk]
    exact hleaves

theorem mset_agrees (hres : resolve (F := F) (head :: words.map RespExpr.string) =
      .run ⟨name, cmdMset, arity, firstKey⟩)
    (hplan : plan = if words.length % 2 ≠ 0 then .reply (wrongNumber (ascii "MSET")) true
      else .fan (splitMset n (head :: words.map RespExpr.string)) .ok) (hacc : plan.Accepted F)
    (hplaced : c.Placed) (hout : Outcome now i c plan reply c') :
    Agrees now i (head :: words.map RespExpr.string) ω c reply c' := by
  have hlen : (head :: words.map RespExpr.string).length - 1 = words.length := by simp
  by_cases hodd : words.length % 2 ≠ 0
  · rw [if_pos hodd] at hplan
    subst hplan
    cases hout
    have hrun : ∀ x : Exec F, Program.run (step ω)
        (cmdMset ⟨head :: words.map RespExpr.string, i⟩) x =
          (some (wrongNumber (ascii "MSET")), x) := by
      intro x
      rw [cmdMset, if_pos (by rw [hlen]; exact hodd)]
      rfl
    refine .of_cells hplaced ?_ ?_ <;> rw [dispatch, hres] <;> dsimp only <;> rw [hrun]
    · exact ⟨rfl, .inl rfl⟩
    · rfl
  · rw [if_neg hodd] at hplan
    subst hplan
    have heven : ((head :: words.map RespExpr.string).length - 1) % 2 = 0 := by
      rw [hlen]
      exact not_not.mp hodd
    cases hout with
    | fan hawaited hran =>
      refine .of_splits (splitMset_splits hacc) hran hplaced hres ?_
      exact cmdMset_leaves (argsBytes_bulk head words i) heven

end Keyed

theorem planAgrees_of_line (hname : commandName args = .ok name) (hfind : find name = some entry)
    (hmem : name ∈ fannedOut)
    (hplan : plan = dispatchCommand F home args ∨ plan = MainService.dispatch F args)
    (hplaced : c.Placed)
    (h : resolve args = .run entry → (plan = route home name entry.firstKey args ∨
      plan = MainService.route name entry.firstKey args) → PlanAgrees now i args ω c plan) :
    PlanAgrees now i args ω c plan := by
  rcases plan_of_line hname hfind hmem hplan with ⟨data, rfl, hres⟩ | ⟨hres, hroute⟩
  · refine ⟨⟨data, c, .reply data true⟩, fun reply c' hout => ?_⟩
    cases hout
    exact .of_reply hplaced hres
  · exact h hres hroute

/-- A command on several keys or on all shards, sent to either dispatcher, has an
outcome, and whatever order its parts run in, its reply and its effect are those of one
shard that holds everything. -/
theorem fan_out_agrees (c : Cluster F n) (hplaced : c.Placed) (hfits : c.Fits) (now : UInt64)
    (i : DbIndex) (home : Fin n) (args : List RespExpr)
    (hbulk : ∀ a ∈ args, a.asBytes.isSome = true) (name : Bytes)
    (hname : commandName args = .ok name) (hmem : name ∈ fannedOut) (plan : Plan n)
    (hplan : plan = dispatchCommand F home args ∨ plan = MainService.dispatch F args)
    (hacc : plan.Accepted F) (ω : Listing Bytes) :
    (∃ reply c', Outcome now i c plan reply c') ∧
      ∀ reply c', Outcome now i c plan reply c' → Agrees now i args ω c reply c' := by
  change PlanAgrees now i args ω c plan
  obtain ⟨_ | ⟨word, words⟩, rfl⟩ := exists_words hbulk
  · cases hname
  have hcase := hmem
  simp only [fannedOut, mem_cons, not_mem_nil, or_false] at hcase
  rcases hcase with rfl | rfl | rfl | rfl | rfl | rfl | rfl | rfl | rfl
  · refine planAgrees_of_line hname find_del hmem hplan hplaced fun hres hroute => ?_
    obtain rfl : plan = .fan (splitKeys n _) .sum := hroute.elim id id
    exact ⟨exists_outcome_fan _ _ ω, fun reply c' hout =>
      sum_agrees hname find_del hres (cmdDel_counts now i) hacc hplaced hout⟩
  · refine planAgrees_of_line hname find_unlink hmem hplan hplaced fun hres hroute => ?_
    obtain rfl : plan = .fan (splitKeys n _) .sum := hroute.elim id id
    exact ⟨exists_outcome_fan _ _ ω, fun reply c' hout =>
      sum_agrees hname find_unlink hres (cmdDel_counts now i) hacc hplaced hout⟩
  · refine planAgrees_of_line hname find_exists hmem hplan hplaced fun hres hroute => ?_
    obtain rfl : plan = .fan (splitKeys n _) .sum := hroute.elim id id
    exact ⟨exists_outcome_fan _ _ ω, fun reply c' hout =>
      sum_agrees hname find_exists hres (cmdExists_counts now i) hacc hplaced hout⟩
  · refine planAgrees_of_line hname find_mget hmem hplan hplaced fun hres hroute => ?_
    obtain rfl : plan = .fan (splitMget n _) (.mget (words.map RespExpr.string).length) :=
      hroute.elim id id
    refine ⟨exists_outcome_fan _ _ ω, fun reply c' hout => ?_⟩
    rw [length_map] at hout
    exact mget_agrees hres hacc hplaced hfits hout
  · refine planAgrees_of_line hname find_mset hmem hplan hplaced fun hres hroute => ?_
    have hmset : plan = if (words.map RespExpr.string).length % 2 ≠ 0 then
        .reply (wrongNumber (ascii "MSET")) true else .fan (splitMset n _) .ok := hroute.elim id id
    rw [length_map] at hmset
    refine ⟨?_, fun reply c' hout => mset_agrees hres hmset hacc hplaced hout⟩
    rw [hmset]
    split
    · exact ⟨_, _, .reply _ _⟩
    · exact exists_outcome_fan _ _ ω
  · exact planAgrees_of_line hname find_dbsize hmem hplan hplaced fun hres hroute =>
      global_agrees hname (by simp) find_dbsize hres hroute hplaced hfits
  · exact planAgrees_of_line hname find_keys hmem hplan hplaced fun hres hroute =>
      global_agrees hname (by simp) find_keys hres hroute hplaced hfits
  · exact planAgrees_of_line hname find_flushdb hmem hplan hplaced fun hres hroute =>
      global_agrees hname (by simp) find_flushdb hres hroute hplaced hfits
  · exact planAgrees_of_line hname find_flushall hmem hplan hplaced fun hres hroute =>
      global_agrees hname (by simp) find_flushall hres hroute hplaced hfits

end Commands

section Fixed

attribute [local instance] F64.whole CaseTable.identity HashOrder.arbitrary neZeroTwo

/-- The key that shard `s` of two holds. -/
def ownKey (s : Fin 2) : Bytes := if s = shard (ascii "k") 2 then ascii "k" else ascii "d"

theorem ownKey_spec : ∀ s, shard (ownKey s) 2 = s ∧ (ownKey s).length < 2 ^ 63 := by decide

/-- Two shards, with the string `v` under `k` on one and under `d` on the other. -/
def twoKeys : Cluster Int 2 := fun s =>
  ⟨(DbSlice.new.addOrUpdate 0 (ownKey s) (.string (ascii "v"))).2, 0⟩

theorem cell_twoKeys (s : Fin 2) (a : Addr) : (twoKeys s).dbSlice.cell a =
    if a = (0, ownKey s) then (some (.string (ascii "v")), none) else Cell.empty := by
  have hput : (twoKeys s).dbSlice.cell = Function.update (DbSlice.new (F := Int)).cell (0, ownKey s)
      (some (.string (ascii "v")), none) :=
    (DbOp.apply_target (o := .addOrUpdate 0 (ownKey s) (.string (ascii "v"))) rfl
      (.arbitrary Bytes) DbSlice.new).2.1
  rw [hput, Function.update_apply]
  rfl

theorem placed_twoKeys : twoKeys.Placed := by
  intro s a hne
  rw [cell_twoKeys] at hne
  split at hne
  · next h =>
    rw [h]
    exact (ownKey_spec s).1
  · exact absurd rfl hne

theorem fits_twoKeys : twoKeys.Fits := by
  refine ⟨fun s a v hv => ?_, fun s a hsome => ?_⟩
  · rw [cell_twoKeys] at hv
    split at hv
    · cases hv
      decide
    · cases hv
  · rw [cell_twoKeys] at hsome
    split at hsome
    · next h =>
      rw [h]
      exact (ownKey_spec s).2
    · cases hsome

/-- Keys of both shards, one of them named twice, are deleted and counted once each. -/
theorem fan_out_agrees_del :
    (dispatchCommand Int (0 : Fin 2) (command ["del", "k", "d", "k"])).Accepted Int ∧
      (∃ reply c', Outcome 0 0 twoKeys
        (dispatchCommand Int (0 : Fin 2) (command ["del", "k", "d", "k"])) reply c') ∧
      ∀ reply c', Outcome 0 0 twoKeys
        (dispatchCommand Int (0 : Fin 2) (command ["del", "k", "d", "k"])) reply c' →
          Agrees 0 0 (command ["del", "k", "d", "k"]) (.arbitrary Bytes) twoKeys reply c' := by
  have hplan : dispatchCommand Int (0 : Fin 2) (command ["del", "k", "d", "k"]) =
      .fan [{ target := shard (ascii "k") 2, args := command ["del", "k", "k"] },
        { target := shard (ascii "d") 2, args := command ["del", "d"] }] .sum := rfl
  have hacc : (dispatchCommand Int (0 : Fin 2) (command ["del", "k", "d", "k"])).Accepted Int := by
    rw [hplan]
    intro sub hsub
    rcases mem_pair.mp hsub with rfl | rfl
    · exact ⟨_, rfl⟩
    · exact ⟨_, rfl⟩
  exact ⟨hacc,
    fan_out_agrees twoKeys placed_twoKeys fits_twoKeys 0 0 0 _ (by decide) (ascii "DEL") rfl
    (by decide) _ (.inl rfl) hacc _⟩

end Fixed

end ShrikeDb
