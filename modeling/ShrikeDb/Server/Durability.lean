import ShrikeDb.Lib.Replacement
import ShrikeDb.Server.Broadcast
import ShrikeDb.Server.Snapshot
import ShrikeDb.Server.Startup

/-! `SAVE` and `BGSAVE` of `MainService` while commands go on. A save asks every shard for a
snapshot, and each shard answers when it gets to it, so the dump is a cut through the run:
every shard is in it as it was at one moment during the save. The file is written under
another name and then renamed, so a process that stops anywhere leaves the last complete dump,
and a start from it restores the cut. The name of the other file is always the same: this
holds as long as no two saves write at once. -/

namespace ShrikeDb

open Persistence Sharding CommandRegistry ReplyBuilder Replacement Function List

/-! ## Routes of the main service -/

section Routes

variable {F : Type} {n : Nat} [NeZero n] [F64 F] [HashOrder] [CaseTable]

omit [HashOrder] in
theorem MainService.mem_route {cmd : Bytes} {firstKey : Nat} {args : List RespExpr} {sub : Sub n}
    (h : sub ∈ (MainService.route cmd firstKey args).commands) :
    sub ∈ (ShardThread.route 0 cmd firstKey args).commands := by
  rw [MainService.route] at h
  rw [ShardThread.route]
  cases hclass : classifyCommand cmd firstKey with
  | noKeys | singleKey | multiKeySameHandler | mGet | rename =>
    rw [hclass] at h
    exact h
  | mSet =>
    rw [hclass] at h
    dsimp only at h ⊢
    rw [MainService.dispatchMset] at h
    rw [ShardThread.dispatchMset]
    split at h
    · exact absurd h not_mem_nil
    rw [if_neg ‹_›]
    split at h
    · rw [if_pos ‹_›]
      cases htarget : msetnxTarget (n := n) args with
      | none =>
        rw [htarget] at h
        exact absurd h not_mem_nil
      | some target =>
        rw [htarget] at h
        cases target with
        | none => exact absurd h not_mem_nil
        | some sid => exact h
    · rw [if_neg ‹_›]
      exact h
  | global =>
    rw [hclass] at h
    dsimp only at h ⊢
    -- all shards, or the first one
    obtain ⟨sid, rfl⟩ : ∃ sid : Fin n, sub = { target := sid, args := args } := by
      have hall : sub ∈ (finRange n).map (fun sid => ({ target := sid, args := args } : Sub n)) →
          ∃ sid : Fin n, sub = { target := sid, args := args } := by
        intro hmem
        obtain ⟨sid, -, rfl⟩ := mem_map.mp hmem
        exact ⟨sid, rfl⟩
      rw [MainService.dispatchGlobal] at h
      split at h
      · exact hall h
      split at h
      · exact hall h
      split at h
      · exact hall h
      · exact ⟨0, mem_singleton.mp h⟩
    rw [ShardThread.dispatchGlobal]
    split
    · next hn =>
      subst hn
      exact mem_singleton.mpr (by rw [Subsingleton.elim sid 0])
    · by_cases hsid : sid = 0
      · rw [hsid]
        exact mem_cons_self
      · exact mem_cons_of_mem _ (mem_map.mpr ⟨sid, mem_filter.mpr
          ⟨mem_finRange sid, decide_eq_true hsid⟩, rfl⟩)

/-- A command may be run on the shard that the main service sends it to. -/
theorem MainService.routed_meets {args : List RespExpr} {sub : Sub n}
    (h : sub ∈ (MainService.dispatch F args).commands) (i : DbIndex) :
    (Footprint.owned sub.target).Meets F sub.args i := by
  have hno : ∀ {data keepAlive}, sub ∉ (Plan.reply data keepAlive : Plan n).commands := not_mem_nil
  rw [MainService.dispatch] at h
  cases hname : commandName args with
  | error reply =>
    rw [hname] at h
    exact absurd h hno
  | ok cmd =>
    rw [hname] at h
    dsimp only at h
    split at h
    · exact absurd h hno
    split at h
    · exact absurd h not_mem_nil
    split at h
    · exact absurd h not_mem_nil
    cases hfind : find (F := F) cmd with
    | none =>
      rw [hfind] at h
      exact absurd h hno
    | some entry =>
      rw [hfind] at h
      dsimp only at h
      obtain ⟨-, rfl⟩ := find_mem hfind
      split at h
      · exact route_meets hname hfind (MainService.mem_route h) i
      · exact absurd h hno

end Routes

/-! ## Saving -/

namespace MainService

/-- A `SAVE`, or what a `BGSAVE` does in the background. -/
inductive Save (F : Type) (n : Nat)
  | idle
  | collecting (background : Bool) (taken : Fin n → Option (ShardSnapshot F))
  | writing (background : Bool)

/-- The shards, the saves that are going on, and the files. A shard that is stopped has lost its
thread. -/
structure State (F C : Type) (n : Nat) where
  shards : Cluster F n
  stopped : Fin n → Bool
  saves : C → Save F n
  disk : Disk C UInt8

inductive Event (F C : Type) (n : Nat)
  | ran (shard : Fin n) (db : DbIndex) (now : UInt64) (args : List RespExpr)
  | snapshot (client : C) (shard : Fin n) (snap : ShardSnapshot F)
  | saved (client : C)
  | replied (client : C) (reply : Bytes)

/-- The reply of `handle_save` when it starts, and when it has come to an end. -/
def saveStarts : Bool → Option Bytes
  | true => some (sendSimpleString (ascii "Background saving started"))
  | false => none

def saveEnds : Bool → Except Bytes Unit → Option Bytes
  | true, _ => none
  | false, .ok () => some sendOk
  | false, .error e => some (sendErr e)

def replies {F C : Type} {n : Nat} (client : C) (reply : Option Bytes) : List (Event F C n) :=
  reply.toList.map (.replied client)

section Steps

variable {F C : Type} {n : Nat} [F64 F] [HashOrder] [CaseTable] [NeZero n] [DecidableEq C]

/-- One step. If `alone` holds, a save opens its file when no other one is writing. -/
inductive State.Step (alone : Prop) (σ : State F C n) : List (Event F C n) → State F C n → Prop
  -- the shards
  | run {args} {sub : Sub n} {db now ω} {data : Bytes} (hsub : sub ∈ (dispatch F args).commands)
      (hup : σ.stopped sub.target = false)
      (hreply : ((σ.shards sub.target).perform ω now db sub.args).reply = some data) :
      Step alone σ [.ran sub.target db now sub.args] { σ with
        shards := update σ.shards sub.target ((σ.shards sub.target).perform ω now db sub.args).shard
          }
  | stop {args} {sub : Sub n} {db now ω} (hsub : sub ∈ (dispatch F args).commands)
      (hup : σ.stopped sub.target = false)
      (hpanic : ((σ.shards sub.target).perform ω now db sub.args).reply = none) :
      Step alone σ [] { σ with stopped := update σ.stopped sub.target true }
  | tick {s : Fin n} {now : UInt64} (hup : σ.stopped s = false) :
      Step alone σ [] { σ with shards := update σ.shards s ((σ.shards s).updateTime now) }
  | expiry {s : Fin n} {now : UInt64} {ω : DbIndex → Listing Bytes} (hup : σ.stopped s = false) :
      Step alone σ [] { σ with shards := update σ.shards s ((σ.shards s).expiryTick ω now) }
  -- `collect_snapshots`
  | start {c : C} {background : Bool} (hsave : σ.saves c = .idle) :
      Step alone σ (replies c (saveStarts background))
        { σ with saves := update σ.saves c (.collecting background fun _ => none) }
  | snapshot {c : C} {background taken} {s : Fin n} {ω : DbIndex → Listing Bytes}
      (hsave : σ.saves c = .collecting background taken) (hopen : taken s = none)
      (hup : σ.stopped s = false) :
      Step alone σ [.snapshot c s ((σ.shards s).collectSnapshot ω)] { σ with
        saves := update σ.saves c (.collecting background
          (update taken s (some ((σ.shards s).collectSnapshot ω)))) }
  | uncollected {c : C} {background taken} {s : Fin n}
      (hsave : σ.saves c = .collecting background taken) (hopen : taken s = none)
      (hdown : σ.stopped s = true) :
      Step alone σ (replies c (saveEnds background (.error (ascii "failed to collect snapshots"))))
        { σ with saves := update σ.saves c .idle }
  -- `save_rdb`, which can fail anywhere
  | create {c : C} {background taken} {snaps : Fin n → ShardSnapshot F}
      (hsave : σ.saves c = .collecting background taken) (htaken : ∀ s, taken s = some (snaps s))
      (halone : alone → ∀ c', σ.disk.writers c' = none) :
      Step alone σ [] { σ with
        saves := update σ.saves c (.writing background)
        disk := σ.disk.create c (saveRdb ((finRange n).map snaps)).writer }
  | write {c : C} {w : Writer UInt8} {k : Nat} (hwriter : σ.disk.writers c = some w) :
      Step alone σ [] { σ with disk := σ.disk.write 0 c w k }
  | rename {c : C} {background : Bool} {w : Writer UInt8} (hsave : σ.saves c = .writing background)
      (hwriter : σ.disk.writers c = some w) (hrest : w.rest = []) (hdraft : σ.disk.draft ≠ none) :
      Step alone σ (.saved c :: replies c (saveEnds background (.ok ()))) { σ with
        saves := update σ.saves c .idle
        disk := σ.disk.publish c }
  | uncreated {c : C} {background taken} {snaps : Fin n → ShardSnapshot F} {e : Bytes}
      (hsave : σ.saves c = .collecting background taken) (htaken : ∀ s, taken s = some (snaps s)) :
      Step alone σ (replies c (saveEnds background (.error (ascii "RDB save failed: " ++ e))))
        { σ with saves := update σ.saves c .idle }
  | fail {c : C} {background : Bool} {w : Writer UInt8} {e : Bytes}
      (hsave : σ.saves c = .writing background) (hwriter : σ.disk.writers c = some w) :
      Step alone σ (replies c (saveEnds background (.error (ascii "RDB save failed: " ++ e))))
        { σ with
        saves := update σ.saves c .idle
        disk := σ.disk.close c }

inductive State.Runs (alone : Prop) (σ : State F C n) : List (Event F C n) → State F C n → Prop
  | refl : Runs alone σ [] σ
  | step {τ events : List (Event F C n)} {σ' σ'' : State F C n} (h : Runs alone σ τ σ')
      (hstep : σ'.Step alone events σ'') : Runs alone σ (τ ++ events) σ''

end Steps

/-! ## What a step does to one shard -/

section Shards

variable {F C : Type} {n : Nat} [F64 F] [HashOrder] [CaseTable] [NeZero n] [DecidableEq C]
  {alone : Prop} {σ σ' σ'' : State F C n} {events τ τ' : List (Event F C n)}

/-- A shard stays as it is, loses lapsed keys, or runs a part of a command that was sent to it. -/
inductive ShardChange (sh : EngineShard F) (s : Fin n) (events : List (Event F C n)) :
    EngineShard F → Prop
  | same : ShardChange sh s events sh
  | purged {now : UInt64} {sh' : EngineShard F}
      (hpurges : DbSlice.Purges (sh.updateTime now).dbSlice sh'.dbSlice) :
      ShardChange sh s events sh'
  | ran {args : List RespExpr} {sub : Sub n} {db : DbIndex} {now : UInt64} {ω : Listing Bytes}
      (hsub : sub ∈ (dispatch F args).commands) (htarget : sub.target = s)
      (hran : .ran s db now sub.args ∈ events) :
      ShardChange sh s events (sh.perform ω now db sub.args).shard

omit [DecidableEq C] in
theorem change_update {s₀ : Fin n} {sh : EngineShard F} (h : ShardChange (σ.shards s₀) s₀ events sh)
    (s : Fin n) : ShardChange (σ.shards s) s events (update σ.shards s₀ sh s) :=
  (forall_update_iff σ.shards (p := fun s sh => ShardChange (σ.shards s) s events sh)).mpr
    ⟨h, fun _ _ => .same⟩ s

theorem State.Step.change (hstep : σ.Step alone events σ') (s : Fin n) :
    ShardChange (σ.shards s) s events (σ'.shards s) := by
  cases hstep with
  | run hsub hup hreply => exact change_update (.ran hsub rfl mem_cons_self) s
  | tick hup => exact change_update (.purged (.refl _)) s
  | expiry hup => exact change_update (.purged ((σ.shards _).purges_expiryTick _ _)) s
  | _ => exact .same

theorem State.Step.placed (h : σ.shards.Placed) (hstep : σ.Step alone events σ') :
    σ'.shards.Placed := by
  intro s a hne
  have hchange := hstep.change s
  generalize σ'.shards s = sh at hchange hne
  cases hchange with
  | same => exact h s a hne
  | purged hpurges =>
    rcases hpurges.cell a with hcell | ⟨-, hcell⟩
    · rw [hcell] at hne
      exact h s a hne
    · exact absurd hcell hne
  | @ran args sub db now ω hsub htarget hran =>
    have hmeets := routed_meets hsub (ConnContext.mk db).dbIndex
    obtain ⟨-, wrote, -, htouch⟩ := dispatch_touches ω ((σ.shards s).updateTime now) hmeets
    rcases (htouch a).adds hne with hold | hadd
    · exact h s a hold
    · exact htarget ▸ hadd

theorem State.Runs.placed (h : σ.shards.Placed) (hrun : σ.Runs alone τ σ') : σ'.shards.Placed := by
  induction hrun with
  | refl => exact h
  | step _ hstep ih => exact hstep.placed ih

theorem State.Runs.endures {s : Fin n} {a : Addr} (hrun : σ.Runs alone τ σ')
    (havoid : ∀ db now args, .ran s db now args ∈ τ → Avoids F a db args) :
    ((σ.shards s).dbSlice.cell a).Endures ((σ'.shards s).dbSlice.cell a) := by
  induction hrun with
  | refl => exact .refl
  | @step τ events σ₁ σ₂ hrun hstep ih =>
    refine (ih fun db now args hmem => havoid db now args (mem_append_left _ hmem)).trans ?_
    have hchange := hstep.change s
    generalize σ₂.shards s = sh at hchange
    cases hchange with
    | same => exact .refl
    | purged hpurges => exact ⟨_, hpurges.cell a⟩
    | @ran args sub db now ω hsub htarget hran =>
      exact ⟨_, havoid db now sub.args (mem_append_right _ hran) ω ((σ₁.shards s).updateTime now)⟩

end Shards

/-! ## The dump is a cut -/

section Dumps

variable {F C : Type} {n : Nat} {σ : State F C n} {P Q : Fin n → EngineShard F → Prop}

/-- The bytes of a dump of shards as `P` describes them, which can be restored. -/
def Cut (P : Fin n → EngineShard F → Prop) (data : Bytes) : Prop :=
  ∃ (c : Cluster F n) (ω : Fin n → DbIndex → Listing Bytes), (∀ s, P s (c s)) ∧
    (∀ s, ((c s).collectSnapshot (ω s)).Restorable) ∧ data = (saveRdb (c.snapshots ω)).writer

def Taken (P : Fin n → EngineShard F → Prop) (s : Fin n) (snap : ShardSnapshot F) : Prop :=
  ∃ (sh : EngineShard F) (ω : DbIndex → Listing Bytes), P s sh ∧ snap = sh.collectSnapshot ω ∧
  snap.Restorable

theorem cut_of_taken {snaps : Fin n → ShardSnapshot F} (h : ∀ s, Taken P s (snaps s)) :
    Cut P (saveRdb ((finRange n).map snaps)).writer := by
  choose c ω hP hsnap hrestorable using h
  refine ⟨c, ω, hP, fun s => hsnap s ▸ hrestorable s, ?_⟩
  rw [Cluster.snapshots, funext hsnap]

/-- What the saves have collected so far, and what is being written. -/
structure State.Cutting (P : Fin n → EngineShard F → Prop) (σ : State F C n) : Prop where
  taken : ∀ {c background taken}, σ.saves c = .collecting background taken →
    ∀ s snap, taken s = some snap → Taken P s snap
  disk : σ.disk.Sound (Cut P)

def State.Dumped (P : Fin n → EngineShard F → Prop) (σ : State F C n) : Prop :=
  ∃ data, σ.disk.published = some data ∧ Cut P data

theorem Cut.mono (himp : ∀ s sh, P s sh → Q s sh) {data : Bytes} (h : Cut P data) : Cut Q data := by
  obtain ⟨c, ω, hP, hrest⟩ := h
  exact ⟨c, ω, fun s => himp s _ (hP s), hrest⟩

theorem State.Cutting.mono (h : σ.Cutting P) (himp : ∀ s sh, P s sh → Q s sh) : σ.Cutting Q where
  taken hsave s snap hsnap := by
    obtain ⟨sh, ω, hP, hrest⟩ := h.taken hsave s snap hsnap
    exact ⟨sh, ω, himp s sh hP, hrest⟩
  disk := h.disk.mono fun _ => Cut.mono himp

/-- A save goes over to a stage in which it has collected nothing else. -/
theorem State.Cutting.setSave [DecidableEq C] (h : σ.Cutting P) {c : C} {save : Save F n}
    {disk : Disk C UInt8} (hsave : ∀ background taken, save = .collecting background taken →
      ∀ s snap, taken s = some snap → Taken P s snap) (hdisk : disk.Sound (Cut P)) :
    State.Cutting P { σ with saves := update σ.saves c save, disk := disk } where
  taken := by
    intro c' background taken hc'
    change update σ.saves c save c' = _ at hc'
    by_cases hc : c' = c
    · rw [hc, update_self] at hc'
      exact hsave background taken hc'
    · rw [update_of_ne hc] at hc'
      exact h.taken hc'
  disk := hdisk

theorem not_saved_replies (c c' : C) (reply : Option Bytes) :
    .saved c' ∉ (replies c reply : List (Event F C n)) := by
  intro hmem
  obtain ⟨data, -, heq⟩ := mem_map.mp hmem
  cases heq

variable [NeZero n] {m : Nat} [NeZero m]

/-- The shards `d` have been started at time `now` from the dump, and hold what `cut` held. -/
def State.Restores (σ : State F C n) (now : UInt64) (cut : Cluster F n) (d : Cluster F m) : Prop :=
  ∃ (data : Bytes) (entries : List (RdbEntry F)), σ.disk.published = some data ∧
    loadAll data = .ok entries ∧ EngineShardSet.Loads now entries d ∧ d.Placed ∧
    ∀ a, ((cut (shard a.2 n)).dbSlice.cell a).Reloads now ((d (shard a.2 m)).dbSlice.cell a)

theorem State.Dumped.restores (h : σ.Dumped P)
    (hP : ∀ s sh a, P s sh → sh.dbSlice.cell a ≠ Cell.empty → shard a.2 n = s) (now : UInt64) :
    ∃ (cut : Cluster F n) (d : Cluster F m), σ.Restores now cut d ∧ ∀ s, P s (cut s) := by
  obtain ⟨data, hdata, cut, ω, hcut, hsound, rfl⟩ := h
  obtain ⟨entries, d, hload, hloads, hd, hcells⟩ :=
    Cluster.reloads (m := m) (fun s a => hP s (cut s) a (hcut s)) hsound now
  exact ⟨cut, d, ⟨_, entries, hdata, hload, hloads, hd, hcells⟩, hcut⟩

end Dumps

section Cuts

variable {F C : Type} {n : Nat} [F64 F] [HashOrder] [CaseTable] [NeZero n] [DecidableEq C]
  {alone : Prop} {σ σ' σ'' : State F C n} {events τ τ' : List (Event F C n)}
  {P : Fin n → EngineShard F → Prop}

theorem State.Cutting.step (h : σ.Cutting P) (hP : ∀ s, P s (σ.shards s))
    (hstep : σ.Step True events σ')
    (hrestorable : ∀ c s snap, .snapshot c s snap ∈ events → snap.Restorable) : σ'.Cutting P := by
  cases hstep with
  | run | stop | tick | expiry => exact ⟨h.taken, h.disk⟩
  | start hsave =>
    refine h.setSave (fun background taken heq s snap hsnap => ?_) h.disk
    cases heq
    cases hsnap
  | @snapshot c background taken s ω hsave hopen hup =>
    refine h.setSave (fun background' taken' heq => ?_) h.disk
    cases heq
    refine (forall_update_iff taken (p := fun s got => ∀ snap, got = some snap →
      Taken P s snap)).mpr ⟨fun snap hsnap => ?_, fun s' _ => h.taken hsave s'⟩
    cases hsnap
    exact ⟨σ.shards s, ω, hP s, rfl, hrestorable c s _ mem_cons_self⟩
  | uncollected | uncreated => exact h.setSave (by rintro _ _ ⟨⟩) h.disk
  | create hsave htaken halone =>
    refine h.setSave (by rintro _ _ ⟨⟩) (Disk.Sound.create (halone trivial) ?_)
    exact cut_of_taken fun s => h.taken hsave s _ (htaken s)
  | write hwriter => exact ⟨h.taken, h.disk.write 0 hwriter _⟩
  | rename hsave hwriter hrest hdraft => exact h.setSave (by rintro _ _ ⟨⟩) (h.disk.stop hwriter _)
  | fail hsave hwriter => exact h.setSave (by rintro _ _ ⟨⟩) (h.disk.stop hwriter _)

/-- The dump stays a cut, and is one after a save. -/
theorem State.Cutting.dumped (h : σ.Cutting P) (hstep : σ.Step True events σ')
    (hdump : σ.Dumped P ∨ ∃ c, .saved c ∈ events) : σ'.Dumped P := by
  have hold : (∀ c, .saved c ∉ events) → σ.Dumped P :=
    fun hno => hdump.resolve_right fun ⟨c, hc⟩ => hno c hc
  cases hstep with
  | run | snapshot =>
    refine hold fun c hc => ?_
    cases mem_singleton.mp hc
  | stop | tick | expiry => exact hold fun c => not_mem_nil
  | start | uncollected | uncreated => exact hold fun c => not_saved_replies _ c _
  | fail => exact hold fun c => not_saved_replies _ c _
  | create hsave htaken halone =>
    obtain ⟨data, hdata, hcut⟩ := hold fun c => not_mem_nil
    exact ⟨data, (Disk.published_create _).trans hdata, hcut⟩
  | write hwriter =>
    obtain ⟨data, hdata, hcut⟩ := hold fun c => not_mem_nil
    exact ⟨data, (Disk.published_write h.disk 0 hwriter _).trans hdata, hcut⟩
  | rename hsave hwriter hrest hdraft => exact Disk.published_publish h.disk hwriter hrest

/-! ## Whole runs -/

/-- The shard was in this state at some moment of the run. -/
def State.Visits (σ : State F C n) (τ : List (Event F C n)) (σ' : State F C n) (s : Fin n)
    (sh : EngineShard F) : Prop :=
  ∃ τ₁ τ₂ between, σ.Runs True τ₁ between ∧ between.Runs True τ₂ σ' ∧ τ = τ₁ ++ τ₂ ∧
    sh = between.shards s

theorem State.Visits.step {s : Fin n} {sh : EngineShard F} (h : σ.Visits τ σ' s sh)
    (hstep : σ'.Step True events σ'') : σ.Visits (τ ++ events) σ'' s sh := by
  obtain ⟨τ₁, τ₂, between, hbefore, hafter, rfl, hsh⟩ := h
  exact ⟨τ₁, τ₂ ++ events, between, hbefore, hafter.step hstep, append_assoc .., hsh⟩

theorem State.Runs.visits_last (hrun : σ.Runs True τ σ') (s : Fin n) :
    σ.Visits τ σ' s (σ'.shards s) :=
  ⟨τ, [], σ', hrun, .refl, (append_nil τ).symm, rfl⟩

/-- No save is going on. -/
structure State.Resting (σ : State F C n) : Prop where
  saves : ∀ c, σ.saves c = .idle
  writers : ∀ c, σ.disk.writers c = none

/-- After a save that began in this run, the dump is a cut through the run. -/
theorem State.Runs.cutting (hresting : σ.Resting) (hrun : σ.Runs True τ σ')
    (hrestorable : ∀ c s snap, .snapshot c s snap ∈ τ → snap.Restorable) :
    σ'.Cutting (σ.Visits τ σ') ∧ ((∃ c, .saved c ∈ τ) → σ'.Dumped (σ.Visits τ σ')) := by
  induction hrun with
  | refl =>
    refine ⟨⟨fun hsave => ?_, .of_none hresting.writers⟩, fun ⟨c, hc⟩ => absurd hc not_mem_nil⟩
    rw [hresting.saves] at hsave
    cases hsave
  | @step τ events σ₁ σ₂ hrun hstep ih =>
    obtain ⟨hcutting, hdumped⟩ :=
      ih fun c s snap hmem => hrestorable c s snap (mem_append_left _ hmem)
    have hmono : ∀ s sh, σ.Visits τ σ₁ s sh → σ.Visits (τ ++ events) σ₂ s sh :=
      fun s sh h => h.step hstep
    refine ⟨(hcutting.step hrun.visits_last hstep fun c s snap hmem =>
      hrestorable c s snap (mem_append_right _ hmem)).mono hmono, fun ⟨c, hc⟩ => ?_⟩
    obtain ⟨data, hdata, hcut⟩ := hcutting.dumped hstep
      ((mem_append.mp hc).imp (fun hc => hdumped ⟨c, hc⟩) fun hc => ⟨c, hc⟩)
    exact ⟨data, hdata, hcut.mono hmono⟩

theorem State.Visits.owned (hplaced : σ.shards.Placed) (s : Fin n) (sh : EngineShard F) (a : Addr)
    (h : σ.Visits τ σ' s sh) (hne : sh.dbSlice.cell a ≠ Cell.empty) : shard a.2 n = s := by
  obtain ⟨τ₁, τ₂, between, hbefore, -, -, rfl⟩ := h
  exact hbefore.placed hplaced s a hne

/-- Only a save that is through is answered `OK`. -/
theorem State.Runs.saved_of_ok (hrun : σ.Runs alone τ σ') {c : C} (hok : .replied c sendOk ∈ τ) :
    .saved c ∈ τ := by
  have hreplies : ∀ {c' : C} {reply : Option Bytes},
      .replied c sendOk ∈ (replies c' reply : List (Event F C n)) →
      c' = c ∧ reply = some sendOk := by
    intro c' reply hmem
    obtain ⟨data, hdata, heq⟩ := mem_map.mp hmem
    cases heq
    exact ⟨rfl, Option.mem_toList.mp hdata⟩
  have hends : ∀ {background : Bool} {e : Bytes}, saveEnds background (.error e) ≠ some sendOk := by
    rintro (_ | _) e ⟨⟩
  have hstarts : ∀ {background : Bool}, saveStarts background ≠ some sendOk := by decide
  induction hrun with
  | refl => exact absurd hok not_mem_nil
  | @step τ events σ₁ σ₂ hrun hstep ih =>
    rcases mem_append.mp hok with hok | hok
    · exact mem_append_left _ (ih hok)
    refine mem_append_right _ ?_
    cases hstep with
    | stop | tick | expiry | create | write => exact absurd hok not_mem_nil
    | run | snapshot => cases mem_singleton.mp hok
    | start => exact absurd (hreplies hok).2 hstarts
    | uncollected | uncreated | fail => exact absurd (hreplies hok).2 hends
    | rename =>
      rcases mem_cons.mp hok with hok | hok
      · cases hok
      · exact (hreplies hok).1 ▸ mem_cons_self

/-- After a save that began in this run the dump loads, and a start from it into any number of
shards restores a cut: every shard as it was at one moment of the run, less its lapsed keys and
its values that are no strings. This holds at every later moment, in the middle of other saves
or after some that failed. -/
theorem save_restores_cut {m : Nat} [NeZero m] (hresting : σ.Resting) (hplaced : σ.shards.Placed)
    (hrun : σ.Runs True τ σ') (hrestorable : ∀ c s snap, .snapshot c s snap ∈ τ → snap.Restorable)
    (hsaved : ∃ c, .saved c ∈ τ) (now : UInt64) :
    ∃ (cut : Cluster F n) (d : Cluster F m), σ'.Restores now cut d ∧ ∀ s, σ.Visits τ σ' s (cut s) :=
  ((hrun.cutting hresting hrestorable).2 hsaved).restores (State.Visits.owned hplaced) now

/-- A string that is there before a `SAVE` is answered `OK`, and that no command writes from
then on, comes back with its bytes and its deadline, or has lapsed. -/
theorem saved_key_survives {m : Nat} [NeZero m] (hresting : σ.Resting) (hplaced : σ.shards.Placed)
    (hrun : σ.Runs True τ σ') (hrestorable : ∀ c s snap, .snapshot c s snap ∈ τ → snap.Restorable)
    (hok : ∃ c, .replied c sendOk ∈ τ) (now : UInt64) {a : Addr} {value : PrimeValue F}
    {deadline : Option UInt64}
    (hcell : (σ.shards (shard a.2 n)).dbSlice.cell a = (some value, deadline))
    (hstring : value.isString = true)
    (havoid : ∀ db now args, .ran (shard a.2 n) db now args ∈ τ → Avoids F a db args) :
    ∃ (data : Bytes) (entries : List (RdbEntry F)) (d : Cluster F m) (value' : PrimeValue F),
      σ'.disk.published = some data ∧ loadAll data = .ok entries ∧
      EngineShardSet.Loads now entries d ∧
      value'.asBytes = value.asBytes ∧
      ((d (shard a.2 m)).dbSlice.cell a = (some value', deadline) ∨
        (d (shard a.2 m)).dbSlice.cell a = Cell.empty ∧ deadline ≠ none) := by
  obtain ⟨c, hc⟩ := hok
  obtain ⟨cut, d, ⟨data, entries, hdata, hload, hloads, -, hcells⟩, hvisits⟩ :=
    State.Dumped.restores (m := m) ((hrun.cutting hresting hrestorable).2 ⟨c, hrun.saved_of_ok hc⟩)
      (State.Visits.owned hplaced) now
  have hreload := hcells a
  obtain ⟨τ₁, τ₂, between, hbefore, -, rfl, hsh⟩ := hvisits (shard a.2 n)
  have hendures := hbefore.endures (s := shard a.2 n) (a := a)
    fun db now args hmem => havoid db now args (mem_append_left _ hmem)
  rw [hsh] at hreload
  rw [hcell] at hendures
  obtain ⟨t, hsame | ⟨hlapsed, hgone⟩⟩ := hendures
  · rw [hsame, Cell.Reloads] at hreload
    dsimp only at hreload
    split at hreload
    · obtain ⟨value', hvalue', -, hbytes⟩ := hreload
      exact ⟨data, entries, d, value', hdata, hload, hloads, hbytes, .inl hvalue'⟩
    · next hnot =>
      refine ⟨data, entries, d, value, hdata, hload, hloads, rfl, .inr ⟨hreload, ?_⟩⟩
      rintro rfl
      exact hnot ⟨hstring, rfl⟩
  · rw [hgone] at hreload
    refine ⟨data, entries, d, value, hdata, hload, hloads, rfl, .inr ⟨hreload, ?_⟩⟩
    rintro rfl
    cases hlapsed

end Cuts

section Fixed

attribute [local instance] F64.whole CaseTable.identity HashOrder.arbitrary neZeroTwo

theorem restorable_twoKeys (s : Fin 2) (ω : DbIndex → Listing Bytes) :
    ((twoKeys s).collectSnapshot ω).Restorable := by
  intro e he
  obtain ⟨i, -, hi⟩ := mem_flatMap.mp he
  have hcell := (EngineShard.mem_snapshotDb.mp hi).2
  rw [cell_twoKeys] at hcell
  split at hcell
  · next haddr =>
    obtain ⟨hvalue, hdeadline⟩ := Prod.mk.inj hcell
    have hkey : e.key = ownKey s := congrArg Prod.snd haddr
    refine ⟨⟨?_, ?_⟩, fun _ => hdeadline.symm⟩
    · rw [hkey]
      exact (ownKey_spec s).2
    · rw [← Option.some.inj hvalue]
      decide
  · cases hcell

/-- A service of two shards with a string each, and no dump yet. -/
def unsaved : State Int Unit 2 where
  shards := twoKeys
  stopped _ := false
  saves _ := .idle
  disk := ⟨.empty, fun _ => none⟩

theorem resting_unsaved : unsaved.Resting := ⟨fun _ => rfl, fun _ => rfl⟩

/-- The snapshots that the service takes, and the file it writes. -/
noncomputable def snapshotOf (s : Fin 2) : ShardSnapshot Int :=
  (twoKeys s).collectSnapshot fun _ => .arbitrary Bytes

noncomputable def firstDump : Bytes := (saveRdb ((finRange 2).map snapshotOf)).writer

/-- The service in the course of a `SAVE`. -/
def unsavedAt (save : Save Int 2) (disk : Disk Unit UInt8) : State Int Unit 2 :=
  { unsaved with saves := fun _ => save, disk := disk }

theorem unsavedAt_step {save save' : Save Int 2} {disk disk' : Disk Unit UInt8}
    {events : List (Event Int Unit 2)} (h : (unsavedAt save disk).Step True events
      ⟨twoKeys, fun _ => false, update (fun _ => save) () save', disk'⟩) :
    (unsavedAt save disk).Step True events (unsavedAt save' disk') := by
  have hsaves : update (fun _ => save) () save' = fun _ : Unit => save' :=
    funext fun _ => update_self ..
  rw [hsaves] at h
  exact h

noncomputable def savedEvents : List (Event Int Unit 2) :=
  [.snapshot () 1 (snapshotOf 1), .snapshot () 0 (snapshotOf 0), .saved (), .replied () sendOk]

/-- A `SAVE` that runs through; the second shard is the first to answer. -/
theorem unsaved_saves : ∃ σ, unsaved.Runs True savedEvents σ := by
  let disk := unsaved.disk
  let taken : Fin 2 → Option (ShardSnapshot Int) := update (fun _ => none) 1 (some (snapshotOf 1))
  let all := update taken 0 (some (snapshotOf 0))
  have hstart : (unsavedAt .idle disk).Step True (replies () (saveStarts false))
      (unsavedAt (.collecting false fun _ => none) disk) := unsavedAt_step (.start rfl)
  have hsecond : (unsavedAt (.collecting false fun _ => none) disk).Step True
      [.snapshot () 1 (snapshotOf 1)] (unsavedAt (.collecting false taken) disk) :=
    unsavedAt_step (.snapshot rfl rfl rfl)
  have hfirst : (unsavedAt (.collecting false taken) disk).Step True
      [.snapshot () 0 (snapshotOf 0)] (unsavedAt (.collecting false all) disk) :=
    unsavedAt_step (.snapshot rfl rfl rfl)
  have hall : ∀ s, all s = some (snapshotOf s) := Fin.forall_fin_two.mpr ⟨rfl, rfl⟩
  have hcreate : (unsavedAt (.collecting false all) disk).Step True []
      (unsavedAt (.writing false) (disk.create () firstDump)) :=
    unsavedAt_step (.create rfl hall fun _ _ => rfl)
  have hwrite : (unsavedAt (.writing false) (disk.create () firstDump)).Step True []
      (unsavedAt (.writing false)
        ((disk.create () firstDump).write 0 () ⟨0, 0, firstDump⟩ firstDump.length)) := .write rfl
  have hrename : (unsavedAt (.writing false)
      ((disk.create () firstDump).write 0 () ⟨0, 0, firstDump⟩ firstDump.length)).Step True
        (.saved () :: replies () (saveEnds false (.ok ()))) _ :=
    .rename rfl rfl (drop_length ..) (Option.some_ne_none _)
  exact ⟨_, (((((State.Runs.refl.step hstart).step hsecond).step hfirst).step hcreate).step
    hwrite).step hrename⟩

theorem restorable_savedEvents (c : Unit) (s : Fin 2) (snap : ShardSnapshot Int)
    (hmem : .snapshot c s snap ∈ savedEvents) : snap.Restorable := by
  simp only [savedEvents, mem_cons, not_mem_nil, or_false, reduceCtorEq] at hmem
  rcases hmem with hmem | hmem <;> cases hmem <;> exact restorable_twoKeys _ _

theorem save_restores_cut_twoKeys :
    ∃ (σ : State Int Unit 2) (cut : Cluster Int 2) (d : Cluster Int 3),
    unsaved.Runs True savedEvents σ ∧ σ.Restores 5 cut d ∧
      ∀ s, unsaved.Visits savedEvents σ s (cut s) := by
  obtain ⟨σ, hrun⟩ := unsaved_saves
  obtain ⟨cut, d, hrestores, hvisits⟩ :=
    save_restores_cut (m := 3) resting_unsaved placed_twoKeys hrun
    restorable_savedEvents ⟨(), by simp [savedEvents]⟩ 5
  exact ⟨σ, cut, d, hrun, hrestores, hvisits⟩

theorem saved_key_survives_unsaved :
    ∃ (data : Bytes) (entries : List (RdbEntry Int)) (d : Cluster Int 3)
    (value : PrimeValue Int), loadAll data = .ok entries ∧ EngineShardSet.Loads 5 entries d ∧
      value.asBytes = ascii "v" ∧
      (d (shard (ascii "k") 3)).dbSlice.cell (0, ascii "k") = (some value, none) := by
  obtain ⟨σ, hrun⟩ := unsaved_saves
  have hcell : (twoKeys (shard (ascii "k") 2)).dbSlice.cell (0, ascii "k") =
      (some (.string (ascii "v")), none) := by
    rw [cell_twoKeys]
    exact if_pos rfl
  obtain ⟨data, entries, d, value, -, hload, hloads, hbytes, hvalue⟩ := saved_key_survives (m := 3)
    resting_unsaved placed_twoKeys hrun restorable_savedEvents ⟨(), by simp [savedEvents]⟩ 5
    (a := (0, ascii "k")) hcell rfl (fun db now args hmem => by simp [savedEvents] at hmem)
  exact ⟨data, entries, d, value, hload, hloads, hbytes, hvalue.resolve_right fun h => h.2 rfl⟩

end Fixed

end MainService

end ShrikeDb
