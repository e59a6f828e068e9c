import ShrikeDb.Server.FanOut
import ShrikeDb.Server.Threads

/-! Which keys a shard can come to hold: a command adds a key only on the shard that the key
hashes to, whatever command it is and wherever it was issued, and the entries of a dump are
handed out in the same way. -/

namespace ShrikeDb

open CommandRegistry Sharding Command Function ShardThread EngineShardSet List

section Routing

variable {F : Type} {n : Nat} [NeZero n]

/-- All keys may be looked at, and those of the shard added. -/
def Footprint.owned (s : Fin n) : Footprint := ⟨Set.univ, fun a => shard a.2 n = s, False⟩

theorem bytes_of_asBytes {e : RespExpr} {b : Bytes} (h : e.asBytes = some b) : e.bytes = b := by
  rw [RespExpr.bytes, h, Option.getD_some]

theorem argsBytes_eq {ctx : CommandContext} {m : Nat} {bs : List Bytes}
    (h : ctx.argsBytes m = some bs) : bs = (ctx.args.drop m).map RespExpr.bytes := by
  rw [argsBytes_eq_some.mp h, map_map]
  exact (map_id bs).symm

variable {args : List RespExpr}

theorem keyAt_of_argBytes {i : DbIndex} {m : Nat} {b : Bytes}
    (h : (⟨args, i⟩ : CommandContext).argBytes m = some b) : keyAt args m = b := by
  obtain ⟨e, he, hb⟩ := Option.bind_eq_some_iff.mp h
  rw [keyAt, he, Option.map_some, Option.getD_some, bytes_of_asBytes hb]

/-- Only commands that name a key to be written ask for more than to look. -/
theorem KeySpec.covered_owned {spec : KeySpec} {s : Fin n} (i : DbIndex)
    (hfirst : spec = .first → shard (keyAt args 1) n = s)
    (hpairs : spec = .pairs → ∀ p ∈ pairUp (args.drop 1), shard p.1.bytes n = s)
    (htwo : spec = .two → shard (keyAt args 2) n = s) : spec.Covered (.owned s) ⟨args, i⟩ := by
  have hall : ∀ a : Addr, a ∈ (Footprint.owned s).reads := Set.mem_univ
  cases spec with
  | nothing => trivial
  | first => exact fun b hb => ⟨hall _, keyAt_of_argBytes hb ▸ hfirst rfl⟩
  | all => exact fun bs _ b _ => hall _
  | pairs =>
    intro bs hbs p hp
    rw [argsBytes_eq hbs, pairUp_map] at hp
    obtain ⟨q, hq, rfl⟩ := mem_map.mp hp
    exact ⟨hall _, hpairs rfl q hq⟩
  | two => exact ⟨fun b _ => hall _, fun b hb => ⟨hall _, keyAt_of_argBytes hb ▸ htwo rfl⟩⟩
  | database => exact fun k => hall _
  | everything => exact fun a => hall _

omit [NeZero n] in
/-- All keys of an `MSETNX` that is run are on the shard it is run on. -/
theorem eq_of_commonShard {target : Option (Fin n)} {sids : List (Fin n)} {sid : Fin n}
    (h : commonShard target sids = some (some sid)) :
    (∀ t ∈ target, t = sid) ∧ ∀ s ∈ sids, s = sid := by
  induction sids generalizing target with
  | nil =>
    cases h
    exact ⟨fun t ht => (Option.some.inj ht).symm, fun s hs => absurd hs not_mem_nil⟩
  | cons s sids ih =>
    cases target with
    | none =>
      obtain ⟨hs, hrest⟩ := ih h
      exact ⟨fun t ht => absurd ht (Option.not_mem_none t), forall_mem_cons.mpr ⟨hs s rfl, hrest⟩⟩
    | some t =>
      rw [commonShard] at h
      split at h
      · cases h
      · next hts =>
        obtain ⟨ht, hrest⟩ := ih h
        rw [not_not] at hts
        exact ⟨ht, forall_mem_cons.mpr ⟨hts ▸ ht t rfl, hrest⟩⟩

variable [F64 F] [HashOrder]

/-- A command that is routed by one key has it in the first place, and looks its keys up. -/
theorem registry_singleKey {e : CommandEntry F} (he : e ∈ buildCommandRegistry)
    (hclass : classifyCommand e.name e.firstKey = .singleKey) :
    e.firstKey = 1 ∧ e.name ∉ unchecked := by
  have h : ∀ row ∈ (buildCommandRegistry (F := F)).map fun e => (e.name, e.firstKey),
      classifyCommand row.1 row.2 = .singleKey → row.2 = 1 ∧ row.1 ∉ unchecked := by
    simp only [buildCommandRegistry, genericTable, stringTable, listTable, setTable, hashTable,
      zsetTable, map_append, map_cons, map_nil]
    decide
  exact h _ (mem_map_of_mem he) hclass

variable [CaseTable]

variable {home : Fin n} {sub : Sub n}

/-- A command that reaches a shard is known and complete. -/
theorem mem_commands (h : sub ∈ (dispatchCommand F home args).commands) : ∃ entry : CommandEntry F,
      commandName args = .ok entry.name ∧ find entry.name = some entry ∧
        arityOk entry.arity args.length = true ∧
        sub ∈ (route home entry.name entry.firstKey args).commands := by
  have hno : ∀ {data keepAlive}, sub ∉ (Plan.reply data keepAlive : Plan n).commands := not_mem_nil
  rw [dispatchCommand] at h
  cases hname : commandName args with
  | error reply =>
    rw [hname] at h
    exact absurd h hno
  | ok cmd =>
    rw [hname] at h
    dsimp only at h
    split at h
    · exact absurd h hno
    split at h
    · rw [handleSelect] at h
      split at h
      · exact absurd h hno
      · split at h
        · exact absurd h not_mem_nil
        · exact absurd h hno
    split at h
    · exact absurd h hno
    cases hfind : find (F := F) cmd with
    | none =>
      rw [hfind] at h
      exact absurd h hno
    | some entry =>
      rw [hfind] at h
      dsimp only at h
      obtain ⟨-, rfl⟩ := find_mem hfind
      split at h
      · next harity => exact ⟨entry, rfl, hfind, harity, h⟩
      · exact absurd h hno

omit [HashOrder] in
/-- `MSETNX` is run as it stands where all its keys are, `MSET` in parts. -/
theorem mem_dispatchMset {cmd : Bytes} (h : sub ∈ (dispatchMset cmd args).commands) :
    (msetnxTarget args = some (some sub.target) ∧ sub.args = args) ∨ sub ∈ splitMset n args := by
  rw [dispatchMset] at h
  split at h
  · exact absurd h not_mem_nil
  split at h
  · split at h
    · exact absurd h not_mem_nil
    · exact absurd h not_mem_nil
    · next htarget =>
      obtain rfl := mem_singleton.mp h
      exact .inl ⟨htarget, rfl⟩
  · exact .inr h

/-- Every part of a command is a command of the same kind. -/
theorem routed_class {entry e : CommandEntry F} (hname : commandName args = .ok entry.name)
    (hfind : find entry.name = some entry)
    (hsub : sub ∈ (route home entry.name entry.firstKey args).commands)
    (he : resolve sub.args = .run e) :
    classifyCommand e.name e.firstKey = classifyCommand entry.name entry.firstKey := by
  obtain ⟨hfind', hname'⟩ := resolve_run he
  -- the command line itself names the entry
  have hsame : commandName sub.args = commandName args →
      classifyCommand e.name e.firstKey = classifyCommand entry.name entry.firstKey := by
    intro hargs
    rw [hname', hname] at hargs
    rw [Except.ok.inj hargs, hfind] at hfind'
    rw [Option.some.inj hfind']
  have hnamed : ∀ {name : Bytes} {e' : CommandEntry F} {rest}, find name = some e' →
      sub.args = .string name :: rest → e = e' := by
    intro name e' rest hfound hargs
    rw [hargs, commandName_of_find hfound] at hname'
    rw [← Except.ok.inj hname', hfound] at hfind'
    exact (Option.some.inj hfind').symm
  rw [route] at hsub
  cases hclass : classifyCommand entry.name entry.firstKey with
  | noKeys =>
    rw [hclass] at hsub
    obtain rfl := mem_singleton.mp hsub
    exact (hsame rfl).trans hclass
  | singleKey =>
    rw [hclass] at hsub
    obtain rfl := mem_singleton.mp hsub
    exact (hsame rfl).trans hclass
  | multiKeySameHandler =>
    rw [hclass] at hsub
    obtain ⟨g, hg, rfl⟩ := mem_map.mp hsub
    refine (hsame ?_).trans hclass
    cases args with
    | nil => cases hname
    | cons a rest => rfl
  | mGet =>
    rw [hclass] at hsub
    obtain ⟨g, hg, rfl⟩ := mem_map.mp hsub
    rw [hnamed find_mget rfl]
    have hmget : classifyCommand (ascii "MGET") 1 = .mGet := by decide
    exact hmget
  | mSet =>
    rw [hclass] at hsub
    dsimp only at hsub
    rcases mem_dispatchMset hsub with ⟨-, hargs⟩ | hsub
    · exact (hsame (congrArg commandName hargs)).trans hclass
    · obtain ⟨⟨sid, pairs⟩, hg, rfl⟩ := mem_map.mp hsub
      rw [hnamed find_mset rfl]
      have hmset : classifyCommand (ascii "MSET") 1 = .mSet := by decide
      exact hmset
  | rename =>
    rw [hclass] at hsub
    dsimp only at hsub
    rw [routeRename] at hsub
    split at hsub
    · exact absurd hsub not_mem_nil
    · obtain rfl := mem_singleton.mp hsub
      exact (hsame rfl).trans hclass
  | global =>
    rw [hclass] at hsub
    dsimp only at hsub
    rw [dispatchGlobal] at hsub
    refine (hsame ?_).trans hclass
    split at hsub
    · exact congrArg (fun sub => commandName sub.args) (mem_singleton.mp hsub)
    · rcases mem_cons.mp hsub with rfl | hsub
      · rfl
      · obtain ⟨sid, -, rfl⟩ := mem_map.mp hsub
        rfl

theorem route_meets {entry : CommandEntry F} (hname : commandName args = .ok entry.name)
    (hfind : find entry.name = some entry)
    (hsub : sub ∈ (route home entry.name entry.firstKey args).commands) (i : DbIndex) :
    (Footprint.owned sub.target).Meets F sub.args i := by
  intro e he
  refine ⟨?_, fun _ => id⟩
  change (keySpec e.name e.firstKey).Covered _ _
  have hclass' := routed_class hname hfind hsub he
  rw [route] at hsub
  rw [keySpec, hclass']
  cases hclass : classifyCommand entry.name entry.firstKey with
  | noKeys => trivial
  | singleKey =>
    rw [hclass] at hsub
    obtain rfl := mem_singleton.mp hsub
    have hfirst := (registry_singleKey (find_mem hfind).1 hclass).1
    dsimp only
    split
    · exact KeySpec.covered_owned i (by rintro ⟨⟩) (by rintro ⟨⟩) (by rintro ⟨⟩)
    · exact KeySpec.covered_owned i (fun _ => by rw [hfirst]) (by rintro ⟨⟩) (by rintro ⟨⟩)
  | multiKeySameHandler =>
    exact KeySpec.covered_owned i (by rintro ⟨⟩) (by rintro ⟨⟩) (by rintro ⟨⟩)
  | mGet => exact KeySpec.covered_owned i (by rintro ⟨⟩) (by rintro ⟨⟩) (by rintro ⟨⟩)
  | mSet =>
    refine KeySpec.covered_owned i (by rintro ⟨⟩) (fun _ p hp => ?_) (by rintro ⟨⟩)
    rw [hclass] at hsub
    dsimp only at hsub
    rcases mem_dispatchMset hsub with ⟨htarget, hargs⟩ | hsub
    · rw [hargs] at hp
      exact (eq_of_commonShard htarget).2 _ (mem_map_of_mem hp)
    · obtain ⟨⟨sid, pairs⟩, hg, rfl⟩ := mem_map.mp hsub
      rw [drop_one, tail_cons, pairUp_flatten] at hp
      rw [(Grouping.mem_group.mp hg).1] at hp
      exact of_decide_eq_true (mem_filter.mp hp).2
  | rename =>
    rw [hclass] at hsub
    dsimp only at hsub
    rw [routeRename] at hsub
    split at hsub
    · exact absurd hsub not_mem_nil
    · next hkeys =>
      obtain rfl := mem_singleton.mp hsub
      refine KeySpec.covered_owned i (by rintro ⟨⟩) (by rintro ⟨⟩) fun _ => ?_
      exact (not_not.mp hkeys).symm
  | global =>
    dsimp only
    split
    · exact KeySpec.covered_owned i (by rintro ⟨⟩) (by rintro ⟨⟩) (by rintro ⟨⟩)
    · split <;> exact KeySpec.covered_owned i (by rintro ⟨⟩) (by rintro ⟨⟩) (by rintro ⟨⟩)

/-- A command may be run on the shard it is sent to. -/
theorem routed_meets (h : sub ∈ (dispatchCommand F home args).commands) (i : DbIndex) :
    (Footprint.owned sub.target).Meets F sub.args i := by
  obtain ⟨entry, hname, hfind, -, hsub⟩ := mem_commands h
  exact route_meets hname hfind hsub i

end Routing

/-! ## The server -/

namespace Server

variable {F C : Type} {n : Nat} [NeZero n]

/-- Every key that is stored, or waits to be loaded, is on the shard that it hashes to. -/
structure Owned (σ : Server F C n) : Prop where
  placed : σ.shards.Placed
  unsent : ∀ s, ∀ e ∈ σ.unsent s, shard e.key n = s
  control : ∀ s, ∀ entries ∈ σ.control s, ∀ e ∈ entries, shard e.key n = s

theorem owned_start (entries : List (Persistence.RdbEntry F)) :
    (Server.start entries : Server F C n).Owned where
  placed := fun s a hne => absurd rfl hne
  unsent := by
    intro s e he
    change e ∈ distribute n entries s at he
    rw [distribute_eq] at he
    exact of_decide_eq_true (mem_filter.mp he).2
  control := fun s entries h => absurd h not_mem_nil

variable [F64 F] [HashOrder] [CaseTable] {steady : Prop} {σ σ' : Server F C n}
  {events : List (Event C n)}

/-- A shard gets no key of another one. -/
theorem Owned.change (h : σ.Owned) {s : Fin n} {sh : EngineShard F}
    (hchange : ShardChange steady σ s events sh) {a : Addr} (hne : sh.dbSlice.cell a ≠ Cell.empty) :
    shard a.2 n = s := by
  cases hchange with
  | same => exact h.placed s a hne
  | purged hclock hpurges =>
    rcases hpurges.cell a with hcell | ⟨-, hcell⟩
    · rw [hcell] at hne
      exact h.placed s a hne
    · exact absurd hcell hne
  | @loaded entries loads now sh hcontrol hload =>
    by_cases hmem : ∃ e ∈ entries, e.addr = a
    · obtain ⟨e, he, rfl⟩ := hmem
      exact h.control s _ (hcontrol ▸ mem_cons_self) e he
    · push Not at hmem
      rw [EngineShard.loadEntries_frame hload hmem] at hne
      exact h.placed s a hne
  | @ran home args sub id db now ω hroute htarget hclock =>
    have hmeets := routed_meets hroute (ConnContext.mk db).dbIndex
    obtain ⟨-, wrote, -, htouch⟩ := dispatch_touches ω ((σ.shards s).updateTime now) hmeets
    rcases (htouch a).adds hne with hold | hadd
    · exact h.placed s a hold
    · exact htarget ▸ hadd

variable [DecidableEq C]

theorem Owned.step (hc : σ.Consistent) (h : σ.Owned) (hstep : σ.Step steady events σ') :
    σ'.Owned := by
  have hplaced : σ'.shards.Placed := fun s a hne => h.change (hstep.change hc s) hne
  cases hstep with
  | @sendLoad s hunsent hup =>
    refine ⟨hplaced, ?_, ?_⟩
    · exact (forall_update_iff σ.unsent (p := fun s entries => ∀ e ∈ entries, shard e.key n =
        s)).mpr ⟨(fun e he => absurd he not_mem_nil), fun s' _ => h.unsent s'⟩
    · refine (forall_update_iff σ.control
        (p := fun s loads => ∀ entries ∈ loads, ∀ e ∈ entries, shard e.key n = s)).mpr
        ⟨fun entries hmem => ?_, fun s' _ => h.control s'⟩
      rcases mem_append.mp hmem with hmem | hmem
      · exact h.control s entries hmem
      · rw [mem_singleton.mp hmem]
        exact h.unsent s
  | @load s entries loads now sh hup hcross hcontrol hclock hload =>
    refine ⟨hplaced, h.unsent, ?_⟩
    exact (forall_update_iff σ.control
      (p := fun s loads => ∀ entries ∈ loads, ∀ e ∈ entries, shard e.key n = s)).mpr
      ⟨fun entries hmem => h.control s entries (hcontrol ▸ mem_cons_of_mem _ hmem),
      fun s' _ => h.control s'⟩
  | _ => exact ⟨hplaced, h.unsent, h.control⟩

theorem Owned.runs {τ : List (Event C n)} (hc : σ.Consistent) (h : σ.Owned)
    (hrun : σ.Runs steady τ σ') : σ'.Owned := by
  induction hrun with
  | refl => exact h
  | step hrun hstep ih => exact ih.step (hc.runs hrun) hstep

/-- In every state that the server comes to, after any load and whatever the clients send, every
key in a table of a shard hashes to that shard, so no key is on two of them. -/
theorem keys_on_their_shards (entries : List (Persistence.RdbEntry F)) (τ : List (Event C n))
    (σ : Server F C n) (hrun : (Server.start entries).Runs False τ σ) :
    (∀ s i k, k ∈ ((σ.shards s).dbSlice.dbs i).prime ∨ k ∈ ((σ.shards s).dbSlice.dbs i).expire →
      shard k n = s) ∧
    ∀ s t i j k,
    (k ∈ ((σ.shards s).dbSlice.dbs i).prime ∨ k ∈ ((σ.shards s).dbSlice.dbs i).expire) →
      (k ∈ ((σ.shards t).dbSlice.dbs j).prime ∨ k ∈ ((σ.shards t).dbSlice.dbs j).expire) →
      s = t := by
  have howned := (owned_start entries).runs (consistent_start entries) hrun
  have hshard : ∀ s i k, k ∈ ((σ.shards s).dbSlice.dbs i).prime ∨
      k ∈ ((σ.shards s).dbSlice.dbs i).expire → shard k n = s := by
    intro s i k hk
    refine howned.placed s (i, k) fun hempty => ?_
    obtain ⟨hvalue, hdeadline⟩ := Prod.mk.inj hempty
    rcases hk with hk | hk
    · exact Finmap.lookup_eq_none.mp hvalue hk
    · exact Finmap.lookup_eq_none.mp hdeadline hk
  exact ⟨hshard, fun s t i j k hs ht => (hshard s i k hs).symm.trans (hshard t j k ht)⟩

end Server

section Fixed

attribute [local instance] F64.whole CaseTable.identity HashOrder.arbitrary

/-- The dump of a server with the string `1` under `a`. -/
def oneEntry : Persistence.RdbEntry Int := ⟨0, ascii "a", .string (ascii "1"), none⟩

theorem unsent_oneEntry :
    (Server.start [oneEntry] : Server Int Bool 2).unsent (shard (ascii "a") 2) =
    [.ofRdb oneEntry] := by
  change distribute 2 [oneEntry] (shard (ascii "a") 2) = _
  rw [distribute, foldl_cons, foldl_nil]
  exact update_self ..

theorem load_oneEntry (sh : EngineShard Int) :
    ∃ sh', sh.loadEntries 0 [.ofRdb oneEntry] = some sh' ∧
    sh'.dbSlice.cell = update sh.dbSlice.cell (0, ascii "a")
      (some (.string (ascii "1")), (sh.dbSlice.cell (0, ascii "a")).2) := by
  have hin : ∀ e ∈ [LoadEntry.ofRdb oneEntry], e.InBounds 0 := by
    rintro e (_ | ⟨_, ⟨⟩⟩)
    exact .inr (by decide)
  exact EngineShard.foldlM_loadEntry hin (sh.updateTime 0)

theorem Server.keys_on_their_shards_loaded :
    ∃ (τ : List (Event Bool 2)) (σ : Server Int Bool 2) (s : Fin 2),
      (Server.start [oneEntry]).Runs False τ σ ∧ ascii "a" ∈ ((σ.shards s).dbSlice.dbs 0).prime ∧
        shard (ascii "a") 2 = s := by
  obtain ⟨sh, hload, hcell⟩ := load_oneEntry .new
  have hmem : ascii "a" ∈ (sh.dbSlice.dbs 0).prime := by
    refine Finmap.mem_of_lookup_eq_some (b := .string (ascii "1")) ?_
    change (sh.dbSlice.cell (0, ascii "a")).1 = _
    rw [hcell, update_self]
  have hsend : (Server.start [oneEntry] : Server Int Bool 2).Step False [] _ :=
    .sendLoad (unsent_oneEntry ▸ cons_ne_nil _ _) rfl
  rw [unsent_oneEntry] at hsend
  obtain ⟨τ, σ, hrun, hshard⟩ : ∃ (τ : List (Event Bool 2)) (σ : Server Int Bool 2),
      (Server.start [oneEntry]).Runs False τ σ ∧ σ.shards (shard (ascii "a") 2) = sh :=
    ⟨_, _, (Runs.refl.step hsend).step (.load rfl rfl (update_self ..) (by rintro ⟨⟩) hload),
      update_self (shard (ascii "a") 2) sh (Server.start [oneEntry] : Server Int Bool 2).shards⟩
  rw [← hshard] at hmem
  exact ⟨τ, σ, shard (ascii "a") 2, hrun, hmem,
    (keys_on_their_shards _ τ σ hrun).1 _ 0 _ (.inl hmem)⟩

end Fixed

end ShrikeDb
