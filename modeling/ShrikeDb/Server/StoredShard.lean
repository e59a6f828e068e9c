import ShrikeDb.Server.StoreRefinement
import ShrikeDb.Server.Threads

/-! A shard on dash tables. Whatever commands, ticks, sweeps and loads it goes through, it
replies as the shard on finite maps does, as long as no table panics and no removal takes
a stash reference that another key needs. Each command looks at the order of a table at
most once, so one order per command accounts for its reply. -/

namespace ShrikeDb

open Dash Program Command CommandRegistry

variable {F : Type}

/-! ## How often a table is iterated -/

/-- The operations whose answer depends on the order a table is iterated in. -/
def DbOp.iterates : DbOp F → Bool
  | .scan _ _ _ _ | .keys _ _ | .randomEntry _ => true
  | _ => false

namespace Stored

variable (i : DbIndex) (key : Bytes)

theorem forget_quiet :
    Quiet StoreOp.iterates (forget (F := F) i key) := ⟨rfl, fun _ => ⟨rfl, fun _ => trivial⟩⟩

theorem checkAndExpire_quiet (now : UInt64) :
    Quiet StoreOp.iterates (checkAndExpire (F := F) i key now) := by
  refine ⟨rfl, fun deadline => ?_⟩
  cases deadline with
  | none => trivial
  | some deadline => exact .ite ((forget_quiet i key).bind fun _ => .ret _) trivial

/-- The check at the present time, and what comes after it. -/
theorem checked_quiet {α : Type} {k : Bool → Stored F α} (hk : ∀ b, Quiet StoreOp.iterates (k b)) :
    Quiet StoreOp.iterates (nowMs >>= fun now => checkAndExpire i key now >>= k) :=
  ⟨rfl, fun now => (checkAndExpire_quiet i key now).bind hk⟩

theorem lapsed_quiet (now : UInt64) : Quiet StoreOp.iterates (lapsed (F := F) i now key) := by
  refine ⟨rfl, fun deadline => ?_⟩
  cases deadline <;> trivial

theorem addExpire_quiet (deadlineMs : UInt64) :
    Quiet StoreOp.iterates (addExpire (F := F) i key deadlineMs) :=
  ⟨rfl, fun _ => .ite ⟨rfl, fun _ => trivial⟩ trivial⟩

end Stored

/-- The program of an operation iterates a table only if the operation does. -/
theorem DbOp.program_quiet (o : DbOp F) (h : o.iterates = false) :
    Quiet StoreOp.iterates o.program := by
  cases o with
  | scan | keys | randomEntry => cases h
  | nowMs | dbSize | store | select | addOrUpdate | removeExpire => exact ⟨rfl, fun _ => trivial⟩
  | del | flushDb => exact ⟨rfl, fun _ => ⟨rfl, fun _ => trivial⟩⟩
  | find i key =>
    refine Stored.checked_quiet i key fun expired => .ite trivial ⟨rfl, fun value => ?_⟩
    cases value with
    | none => trivial
    | some value => exact ⟨rfl, fun _ => trivial⟩
  | findMut i key =>
    exact Stored.checked_quiet i key fun expired =>
      .ite trivial ⟨rfl, fun _ => ⟨rfl, fun _ => trivial⟩⟩
  | addIfAbsent i key value =>
    exact Stored.checked_quiet i key fun expired =>
      .ite ⟨rfl, fun _ => trivial⟩ ⟨rfl, fun _ => .ite trivial ⟨rfl, fun _ => trivial⟩⟩
  | addExpire i key deadlineMs => exact Stored.addExpire_quiet i key deadlineMs
  | ttlMs i key =>
    refine ⟨rfl, fun value => .ite trivial ⟨rfl, fun deadline => ?_⟩⟩
    cases deadline with
    | none => trivial
    | some deadline =>
      exact ⟨rfl, fun (now : UInt64) =>
        .ite ((Stored.forget_quiet i key).bind fun _ => .ret _) trivial⟩
  | rename i source dest =>
    refine ⟨rfl, fun expire => ⟨rfl, fun value => ?_⟩⟩
    cases value with
    | none => trivial
    | some value =>
      refine ⟨rfl, fun _ => ⟨rfl, fun _ => ?_⟩⟩
      cases expire with
      | none => trivial
      | some deadline => exact ⟨rfl, fun _ => trivial⟩

/-- It never iterates twice. -/
theorem DbOp.program_choosesOnce (o : DbOp F) : ChoosesOnce StoreOp.iterates o.program := by
  cases o with
  | scan i cursor count pattern => exact (ChoosesOnce.perform _).bind fun _ => .ret _
  | randomEntry i => exact (ChoosesOnce.perform _).bind fun _ => .ret _
  | keys i pattern =>
    refine .after (p := Stored.nowMs) ⟨rfl, fun _ => trivial⟩ fun now =>
      (ChoosesOnce.perform _).bind fun entries => ?_
    exact (Quiet.forEach (fun e : Bytes × PrimeValue F => Stored.lapsed_quiet i e.1 now) _).bind
      fun _ =>
      (Quiet.forEach (fun e : Bytes × Bool => Stored.forget_quiet i e.1) _).bind fun _ => .ret _
  | _ => exact .of_quiet (program_quiet _ rfl)

/-! ## Commands -/

section Registry

variable [F64 F] [HashOrder]

variable {e : CommandEntry F}

/-- A command that checks every key it looks at does not iterate. -/
theorem quiet_of_checked (he : e ∈ buildCommandRegistry) (h : (demand e).unchecked = false)
    (ctx : CommandContext) : Quiet DbOp.iterates (e.handler ctx) := by
  have hmet : (demand e).MetBy (.everywhere True) ctx :=
    ⟨KeySpec.covered_everywhere _ True ctx, fun hu => absurd (h.symm.trans hu) Bool.false_ne_true⟩
  refine Quiet.of_follows (fun φ o hallowed => ?_) (registry_disciplined he hmet)
  cases o with
  | scan i cursor count pattern => exact absurd trivial hallowed
  | keys i pattern => exact absurd trivial hallowed
  | randomEntry i => exact absurd trivial hallowed
  | _ => rfl

open GenericFamily in
omit [F64 F] [HashOrder] in
theorem genericTable_choosesOnce (ctx : CommandContext) : List.Forall₂
    (fun e d => d.unchecked = true → ChoosesOnce DbOp.iterates (e.handler ctx))
    (genericTable (F := F)) genericTableDemands := by
  have hchecked : ∀ {p : Prop}, false = true → p := fun h => absurd h Bool.false_ne_true
  have hfirst : ∀ (o : (dbOps F).Op) (f : (dbOps F).Result o → Bytes),
      ChoosesOnce DbOp.iterates ((perform o : Command F _) >>= fun r => pure (f r)) :=
    fun o f => (ChoosesOnce.perform o).bind fun _ => .ret _
  have hdel : ChoosesOnce DbOp.iterates (cmdDel (F := F) ctx) :=
    .of_quiet ((Quiet.ofOption _).bind fun keys =>
      (Quiet.forEach (fun key => Quiet.perform (S := dbOps F) (o := .del ctx.dbIndex key) rfl)
        keys).bind fun _ => .ret _)
  have hrename : ChoosesOnce DbOp.iterates (cmdRename (F := F) ctx) :=
    .of_quiet ((Quiet.ofOption _).bind fun source => (Quiet.ofOption _).bind fun dest =>
      ⟨rfl, fun (renamed : Bool) => .ite (c := renamed = true) trivial trivial⟩)
  have hscan : ChoosesOnce DbOp.iterates (cmdScan (F := F) ctx) := by
    rw [cmdScan]
    split
    · exact .of_quiet trivial
    · exact (ChoosesOnce.perform _).bind fun page => (Quiet.ofOption page).bind fun _ => .ret _
  simp only [genericTable, genericTableDemands, List.forall₂_cons, List.Forall₂.nil, and_true]
  exact ⟨hchecked, hchecked, hchecked, fun _ => hfirst _ _, hchecked, fun _ => hfirst _ _, hchecked,
    hchecked, fun _ => hdel, fun _ => hdel, hchecked, hchecked, fun _ => hrename, hchecked,
    hchecked, hchecked, hchecked, hchecked, hchecked, hchecked, hchecked, fun _ => hfirst _ _,
    fun _ => hscan, fun _ => hfirst _ _, hchecked, hchecked, hchecked, hchecked⟩

omit [F64 F] [HashOrder] in
theorem checked_of_table {table : List (CommandEntry F)} {demands : List Demand}
    (hd : table.map demand = demands) (hall : demands.all (fun d => !d.unchecked) = true)
    (he : e ∈ table) : (demand e).unchecked = false := by
  have hmem : demand e ∈ demands := hd ▸ List.mem_map_of_mem he
  exact Bool.not_eq_true' _ ▸ List.all_eq_true.mp hall _ hmem

/-- No command iterates a table twice. -/
theorem registry_choosesOnce (he : e ∈ buildCommandRegistry) (ctx : CommandContext) :
    ChoosesOnce DbOp.iterates (e.handler ctx) := by
  cases hu : (demand e).unchecked with
  | false => exact .of_quiet (quiet_of_checked he hu ctx)
  | true =>
    have hother : ∀ {p : Prop}, (demand e).unchecked = false → p :=
      fun h => absurd (h.symm.trans hu) Bool.false_ne_true
    have hgeneric : e ∈ genericTable := by
      simp only [buildCommandRegistry, List.mem_append] at he
      rcases he with ((((he | he) | he) | he) | he) | he
      · exact he
      · exact hother (checked_of_table stringTable_demands (by decide) he)
      · exact hother (checked_of_table listTable_demands (by decide) he)
      · exact hother (checked_of_table setTable_demands (by decide) he)
      · exact hother (checked_of_table hashTable_demands (by decide) he)
      · exact hother (checked_of_table zsetTable_demands (by decide) he)
    have h := genericTable_choosesOnce (F := F) ctx
    rw [← genericTable_demands, List.forall₂_map_right_iff, List.forall₂_same] at h
    exact h e hgeneric hu

variable [CaseTable]

theorem dispatch_choosesOnce (args : List RespExpr) (i : DbIndex) :
    ChoosesOnce DbOp.iterates (program (F := F) args i) := by
  rw [program]
  cases hr : resolve (F := F) args with
  | reply data keepAlive => exact .of_quiet trivial
  | run e => exact registry_choosesOnce (find_mem (resolve_run hr).1).1 _

end Registry

/-! ## What a shard thread does with its shard -/

/-- A command, the ticks of the background task with a sweep of one database at a time, and
the load of a part of a dump. -/
inductive ShardAct (F : Type)
  | command (now : UInt64) (db : DbIndex) (args : List RespExpr)
  | tick (now : UInt64)
  | sweep (i : DbIndex)
  | load (now : UInt64) (entries : List (LoadEntry F))

namespace Stored

def sweep (i : DbIndex) : Stored F Unit := do
  let size : Nat ← perform (S := storeOps F) (.len .prime i)
  if size > 0 then
    let _ ← expireSweep i 20
    pure ()
  else pure ()

variable (now : UInt64)

/-- One round of `load_entries`; an index out of bounds panics. -/
def loadEntry (entry : LoadEntry F) : Stored F Unit :=
  if entry.expired now then pure ()
  else
    match entry.slot with
    | some i => do
      let _ ← addOrUpdate i entry.key entry.value
      match entry.expireMs with
      | some expireMs => addExpire i entry.key expireMs
      | none => pure ()
    | none => .panic

def load (entries : List (LoadEntry F)) : Stored F Unit := do
  invoke (.updateTime now)
  let _ ← forEach (loadEntry now) entries
  pure ()

theorem loadEntry_quiet (entry : LoadEntry F) :
    Quiet StoreOp.iterates (loadEntry now entry) := by
  refine .ite trivial ?_
  cases entry.slot with
  | none => trivial
  | some i =>
    refine ⟨rfl, fun _ => ?_⟩
    cases entry.expireMs with
    | none => trivial
    | some expireMs => exact addExpire_quiet i _ _

theorem expireSweep_choosesOnce (i : DbIndex) (count : UInt64) :
    ChoosesOnce StoreOp.iterates (expireSweep (F := F) i count) := by
  refine .after (p := nowMs) ⟨rfl, fun _ => trivial⟩ fun now => (ChoosesOnce.perform _).bind
    fun page => ?_
  exact (Quiet.ofOption page).bind fun _ =>
    (Quiet.forEach (fun e : Bytes × UInt64 => forget_quiet i e.1) _).bind fun _ => .ret _

theorem run_loadEntry (ω : Listing Bytes) (now : UInt64) (entry : LoadEntry F) (sh : EngineShard F)
    (c : ConnContext) :
    run (StoreOp.apply ω) (loadEntry now entry) ⟨sh.dbSlice, c⟩ =
      match sh.loadEntry now entry with
      | some sh' => (some (), ⟨sh'.dbSlice, c⟩)
      | none => (none, ⟨sh.dbSlice, c⟩) := by
  rw [loadEntry, EngineShard.loadEntry]
  by_cases he : entry.expired now = true
  · rw [if_pos he, if_pos he]
    rfl
  · rw [if_neg he, if_neg he]
    cases entry.slot with
    | none => rfl
    | some i =>
      have hadd : run (StoreOp.apply ω) (addOrUpdate i entry.key entry.value) ⟨sh.dbSlice, c⟩ =
          (some (sh.dbSlice.addOrUpdate i entry.key entry.value).1,
            ⟨(sh.dbSlice.addOrUpdate i entry.key entry.value).2, c⟩) := rfl
      refine (run_bind_of _ _ hadd).trans ?_
      cases entry.expireMs with
      | none => rfl
      | some expireMs => exact run_addExpire ω i entry.key _ expireMs

theorem run_loadEntries (ω : Listing Bytes) (now : UInt64) (entries : List (LoadEntry F))
    (sh : EngineShard F) (c : ConnContext) {us : List Unit} {y : Exec F}
    (h : run (StoreOp.apply ω) (forEach (loadEntry now) entries) ⟨sh.dbSlice, c⟩ = (some us, y)) :
    ∃ sh', entries.foldlM (EngineShard.loadEntry now) sh = some sh' ∧ sh'.dbSlice = y.slice := by
  induction entries generalizing sh us with
  | nil =>
    cases h
    exact ⟨sh, rfl, rfl⟩
  | cons entry entries ih =>
    obtain ⟨_, y1, hone, hrest⟩ := run_bind_eq_some h
    obtain ⟨bs, _, hloop, hret⟩ := run_bind_eq_some hrest
    cases hret
    rw [run_loadEntry] at hone
    cases hload : sh.loadEntry now entry with
    | none =>
      rw [hload] at hone
      cases hone
    | some sh1 =>
      rw [hload] at hone
      cases hone
      obtain ⟨sh', hfold, hslice⟩ := ih sh1 hloop
      refine ⟨sh', ?_, hslice⟩
      rw [List.foldlM_cons, hload]
      exact hfold

variable [F64 F] [HashOrder] [CaseTable]

/-- `dispatch` for a connection on database `db`. -/
def command (db : DbIndex) (args : List RespExpr) : Stored F Bytes := do
  invoke (.updateTime now)
  invoke (.select db)
  translate DbOp.program (CommandRegistry.program args db)

end Stored

namespace ShardAct

variable [F64 F] [HashOrder] [CaseTable]

/-- The calls of an act, and its reply if it is a command. -/
def program : ShardAct F → Stored F (Option Bytes)
  | .command now db args => do
    let reply ← Stored.command now db args
    pure (some reply)
  | .tick now => do
    invoke (.updateTime now)
    pure none
  | .sweep i => do
    Stored.sweep i
    pure none
  | .load now entries => do
    Stored.load now entries
    pure none

/-- A handler that panics leaves the shard to the next one; any other panic ends the thread. -/
def finish {σ : Type} (act : ShardAct F) : Option (Option Bytes) × σ → Option (σ × Option Bytes)
  | (some out, s) => some (s, out)
  | (none, s) =>
    match act with
    | .command _ _ _ => some (s, none)
    | _ => none

/-- An act on dash tables; `none` also if a table panics. -/
def onDash (hash : Hashers) (d : DashExec F) (act : ShardAct F) :
    Option (DashExec F × Option Bytes) :=
  (exec (StoreOp.dash hash) act.program d).bind act.finish

variable (ω : Listing Bytes)

/-- An act on finite maps. -/
def onShard (sh : EngineShard F) : ShardAct F → Option (EngineShard F × Option Bytes)
  | .command now db args =>
    some ((sh.perform ω now db args).shard, (sh.perform ω now db args).reply)
  | .tick now => some (sh.updateTime now, none)
  | .sweep i => some (if sh.dbSlice.dbSize i > 0 then sh.expireSweep ω i 20 else sh, none)
  | .load now entries => (sh.loadEntries now entries).map fun sh => (sh, none)

def runDash (hash : Hashers) (d : DashExec F) (acts : List (ShardAct F)) :
    Option (DashExec F × List (Option Bytes)) :=
  Refine.run (onDash hash) d acts

/-- Each act comes with the order its tables are iterated in. -/
def runShard (sh : EngineShard F) (acts : List (ShardAct F × Listing Bytes)) :
    Option (EngineShard F × List (Option Bytes)) :=
  Refine.run (fun sh act => onShard act.2 sh act.1) sh acts

/-- No removal along the acts takes a stash reference that another key needs. -/
def Spared (hash : Hashers) : DashExec F → List (ShardAct F) → Prop
  | _, [] => True
  | d, act :: acts => Along (fun d o => StoreOp.Spared hash d o) (StoreOp.dash hash) act.program d ∧
      ∀ x ∈ act.onDash hash d, Spared hash x.1 acts

/-! ## One act -/

/-- No act iterates a table twice. -/
theorem program_choosesOnce (act : ShardAct F) : ChoosesOnce StoreOp.iterates act.program := by
  cases act with
  | command now db args =>
    have hdispatch :=
      (dispatch_choosesOnce (F := F) args db).translate DbOp.program_quiet DbOp.program_choosesOnce
    exact (ChoosesOnce.after (p := invoke _) ⟨rfl, fun _ => trivial⟩ fun _ =>
      .after (p := invoke _) ⟨rfl, fun _ => trivial⟩ fun _ => hdispatch).bind fun _ => .ret _
  | tick now => exact .of_quiet ⟨rfl, fun _ => trivial⟩
  | sweep i =>
    refine (ChoosesOnce.after (p := perform (S := storeOps F) (.len .prime i))
      ⟨rfl, fun _ => trivial⟩ fun size => ?_).bind fun _ => .ret _
    split
    · exact (Stored.expireSweep_choosesOnce i 20).bind fun _ => .ret _
    · exact .of_quiet trivial
  | load now entries =>
    exact .of_quiet ((Quiet.bind (p := invoke _) ⟨rfl, fun _ => trivial⟩ fun _ =>
      (Quiet.forEach (Stored.loadEntry_quiet now) entries).bind fun _ => .ret _).bind fun _ =>
        .ret _)

theorem run_command (now : UInt64) (db : DbIndex) (args : List RespExpr) (x : Exec F) :
    run (StoreOp.apply ω) (Stored.command now db args) x =
      run (step ω) (CommandRegistry.program args db) ⟨x.slice.updateTime now, ⟨db⟩⟩ :=
  run_translate (DbOp.run_program ω) _ _

variable {reply : Option Bytes}

/-- On finite maps an act does what the shard of `Server/Threads` does. -/
theorem onShard_of_run (act : ShardAct F) (sh : EngineShard F) (c : ConnContext) {y : Exec F}
    (h : act.finish (run (StoreOp.apply ω) act.program ⟨sh.dbSlice, c⟩) = some (y, reply)) :
    ∃ sh', act.onShard ω sh = some (sh', reply) ∧ sh'.dbSlice = y.slice := by
  cases act with
  | command now db args =>
    obtain ⟨hreply, -, hslice⟩ := dispatch_eq ω args ⟨db⟩ (sh.updateTime now)
    have hrun := run_command ω now db args ⟨sh.dbSlice, c⟩
    refine ⟨(sh.perform ω now db args).shard, ?_⟩
    rw [onShard, EngineShard.perform, hreply, hslice]
    rw [show (sh.updateTime now).dbSlice = sh.dbSlice.updateTime now from rfl, ← hrun]
    -- the reply is wrapped, and a panic is none
    cases hout : run (StoreOp.apply ω) (Stored.command now db args) ⟨sh.dbSlice, c⟩ with
    | mk out z =>
      cases out with
      | none =>
        rw [program, run_bind_panic _ _ hout] at h
        cases h
        exact ⟨rfl, rfl⟩
      | some data =>
        rw [program, run_bind_of _ _ hout] at h
        cases h
        exact ⟨rfl, rfl⟩
  | tick now =>
    cases h
    exact ⟨_, rfl, rfl⟩
  | sweep i =>
    have hsweep : run (StoreOp.apply ω) (Stored.sweep i) ⟨sh.dbSlice, c⟩ =
        (some (), ⟨(if sh.dbSlice.dbSize i > 0 then sh.expireSweep ω i 20 else sh).dbSlice,
        c⟩) := by
      have hrun : run (StoreOp.apply ω) (Stored.sweep i) ⟨sh.dbSlice, c⟩ = run (StoreOp.apply ω)
          (if sh.dbSlice.dbSize i > 0 then Stored.expireSweep i 20 >>= fun _ =>
          pure () else pure ()) ⟨sh.dbSlice, c⟩ := rfl
      rw [hrun]
      by_cases hsize : sh.dbSlice.dbSize i > 0
      · rw [if_pos hsize, if_pos hsize]
        exact run_bind_of _ _ (Stored.run_expireSweep ω i ⟨sh.dbSlice, c⟩ 20)
      · rw [if_neg hsize, if_neg hsize]
        rfl
    rw [program, run_bind_of _ _ hsweep] at h
    cases h
    exact ⟨_, rfl, rfl⟩
  | load now entries =>
    cases hout : run (StoreOp.apply ω) (Stored.load now entries) ⟨sh.dbSlice, c⟩ with
    | mk out z =>
      cases out with
      | none =>
        rw [program, run_bind_panic _ _ hout] at h
        cases h
      | some u =>
        rw [program, run_bind_of _ _ hout] at h
        cases h
        obtain ⟨us, _, hloop, hret⟩ :=
          run_bind_eq_some (p := forEach (Stored.loadEntry now) entries) hout
        cases hret
        obtain ⟨sh', hfold, hslice⟩ :=
          Stored.run_loadEntries ω now entries (sh.updateTime now) c hloop
        refine ⟨sh', ?_, hslice⟩
        rw [onShard, EngineShard.loadEntries, hfold]
        rfl

omit [F64 F] [HashOrder] [CaseTable] in
/-- How an act ends does not depend on the state. -/
theorem finish_state {σ τ : Type} {act : ShardAct F} {out : Option (Option Bytes)} {s s' : σ}
    (h : act.finish (out, s) = some (s', reply)) :
    s' = s ∧ ∀ t : τ, act.finish (out, t) = some (t, reply) := by
  cases out with
  | some out =>
    cases h
    exact ⟨rfl, fun _ => rfl⟩
  | none =>
    cases act with
    | command now db args =>
      cases h
      exact ⟨rfl, fun _ => rfl⟩
    | _ => cases h

/-- An act on dash tables is the act on the maps they stand for, in some order. -/
theorem onDash_refines {hash : Hashers} {act : ShardAct F} {d d' : DashExec F} {sh : EngineShard F}
    (hspared : Along (fun d o => StoreOp.Spared hash d o) (StoreOp.dash hash) act.program d)
    (hbacks : Backs hash d ⟨sh.dbSlice, d.conn⟩) (hact : act.onDash hash d = some (d', reply)) :
    ∃ ω sh', act.onShard ω sh = some (sh', reply) ∧ Backs hash d' ⟨sh'.dbSlice, d'.conn⟩ := by
  obtain ⟨⟨out, d1⟩, hexec, hfinish⟩ := Option.bind_eq_some_iff.mp hact
  have : Nonempty (Listing Bytes) := ⟨.arbitrary Bytes⟩
  obtain ⟨ω, hres, hback⟩ :=
    exec_refines StoreOp.dash_refines (fun o ho ω ω' x => StoreOp.apply_order ho ω ω' x)
    act.program_choosesOnce hspared hbacks hexec
  obtain ⟨rfl, hend⟩ := finish_state hfinish
  have hfinish' := hend (run (StoreOp.apply ω) act.program ⟨sh.dbSlice, d.conn⟩).2
  rw [← hres] at hfinish'
  obtain ⟨sh', hon, hslice⟩ := onShard_of_run ω act sh d.conn hfinish'
  refine ⟨ω, sh', hon, ?_⟩
  rw [hslice, hback.conn]
  exact hback

end ShardAct

/-! ## Runs that stay out of the stash -/

/-- A key that is removed sits in none of the stash buckets. -/
def StoreOp.outsideStash (hash : Hashers) (d : DashExec F) : StoreOp F → Bool
  | .remove kind i key =>
    ((d.table i kind).locate (hash i kind) key).all fun pos => pos.bucketIdx.val < numBuckets
  | _ => true

theorem StoreOp.spared_of_outsideStash {hash : Hashers} (d : DashExec F) (o : StoreOp F)
    (h : o.outsideStash hash d = true) : o.Spared hash d := by
  cases o with
  | remove kind i key =>
    intro slot j hloc
    rw [StoreOp.outsideStash, hloc] at h
    have hlt : (stash j).val < numBuckets := of_decide_eq_true h
    exact absurd hlt (Nat.not_lt.mpr (Nat.le_add_right _ _))
  | _ => trivial

section OutsideStash

variable [F64 F] [HashOrder] [CaseTable]

def ShardAct.outsideStash (hash : Hashers) : DashExec F → List (ShardAct F) → Bool
  | _, [] => true
  | d, act :: acts =>
    check (fun d o => StoreOp.outsideStash hash d o) (StoreOp.dash hash) act.program d &&
      (act.onDash hash d).all fun x => ShardAct.outsideStash hash x.1 acts

theorem ShardAct.spared_of_outsideStash {hash : Hashers} {d : DashExec F} {acts : List (ShardAct F)}
    (h : ShardAct.outsideStash hash d acts = true) : ShardAct.Spared hash d acts := by
  induction acts generalizing d with
  | nil => trivial
  | cons act acts ih =>
    obtain ⟨hact, hrest⟩ := Bool.and_eq_true_iff.mp h
    have halong := along_of_check (Q := fun d (o : (storeOps F).Op) => StoreOp.Spared hash d o)
      StoreOp.spared_of_outsideStash hact
    refine ⟨halong, fun x hx => ih ?_⟩
    rw [Option.mem_def.mp hx] at hrest
    exact hrest

end OutsideStash

/-! ## Whole runs -/

section Runs

open FinmapPairs

variable [F64 F] [HashOrder] [CaseTable] {hash : Hashers} {acts : List (ShardAct F)}

theorem ShardAct.run_refines {d d' : DashExec F} {sh : EngineShard F}
    {replies : List (Option Bytes)} (hspared : ShardAct.Spared hash d acts)
    (hbacks : Backs hash d ⟨sh.dbSlice, d.conn⟩)
    (hrun : ShardAct.runDash hash d acts = some (d', replies)) :
    ∃ (orders : List (Listing Bytes)) (sh' : EngineShard F), orders.length = acts.length ∧
      ShardAct.runShard sh (acts.zip orders) = some (sh', replies) ∧
      Backs hash d' ⟨sh'.dbSlice, d'.conn⟩ := by
  induction acts generalizing d sh replies with
  | nil =>
    cases hrun
    exact ⟨[], sh, rfl, rfl, hbacks⟩
  | cons act acts ih =>
    obtain ⟨d1, reply, rest, hact, hrest, rfl⟩ := Refine.run_cons_eq_some hrun
    obtain ⟨ω, sh1, hon, hbacks1⟩ := ShardAct.onDash_refines hspared.1 hbacks hact
    obtain ⟨orders, sh', hlen, hruns, hbacks'⟩ := ih (hspared.2 _ hact) hbacks1 hrest
    refine ⟨ω :: orders, sh', congrArg Nat.succ hlen, ?_, hbacks'⟩
    rw [ShardAct.runShard] at hruns
    rw [List.zip_cons_cons, ShardAct.runShard, Refine.run]
    simp only [hon, hruns, Option.map_some]

/-- A shard on dash tables goes through any commands, ticks, sweeps and loads as the shard on
finite maps does, each act for some order of iteration: it gives the same replies, and at the
end every table finds, counts and lists the same keys with the same values. The tables must
not panic, and no removal may take a stash reference that another key needs. -/
theorem dash_shard_refines (hash : Hashers) (acts : List (ShardAct F)) (d : DashExec F)
    (replies : List (Option Bytes)) (hrun : ShardAct.runDash hash .new acts = some (d, replies))
    (hspared : ShardAct.Spared hash .new acts) :
    ∃ (orders : List (Listing Bytes)) (sh : EngineShard F), orders.length = acts.length ∧
      ShardAct.runShard .new (acts.zip orders) = some (sh, replies) ∧ d.nowMs = sh.dbSlice.nowMs ∧
      ∀ i, (∀ key, (d.dbs i).prime.find (hash i .prime) key = (sh.dbSlice.dbs i).prime.lookup key ∧
          (d.dbs i).expire.find (hash i .expire) key = (sh.dbSlice.dbs i).expire.lookup key) ∧
        (d.dbs i).prime.len = sh.dbSlice.dbSize i ∧
        ((d.dbs i).prime.iter : Multiset (Bytes × PrimeValue F)) = pairs (sh.dbSlice.dbs i).prime ∧
        ((d.dbs i).expire.iter : Multiset (Bytes × UInt64)) = pairs (sh.dbSlice.dbs i).expire := by
  have hnew : Backs hash (.new : DashExec F) ⟨(EngineShard.new : EngineShard F).dbSlice, ⟨0⟩⟩ :=
    Backs.new
  obtain ⟨orders, sh, hlen, hruns, hbacks⟩ := ShardAct.run_refines hspared hnew hrun
  refine ⟨orders, sh, hlen, hruns, hbacks.nowMs, fun i => ⟨fun key => ⟨?_, ?_⟩, ?_, ?_, ?_⟩⟩
  · exact (hbacks.tables i .prime).find_eq key
  · exact (hbacks.tables i .expire).find_eq key
  · exact (hbacks.tables i .prime).len_eq
  · exact (hbacks.tables i .prime).iter_perm
  · exact (hbacks.tables i .expire).iter_perm

end Runs

section Fixed

open ReplyBuilder

attribute [local instance] F64.whole CaseTable.identity HashOrder.arbitrary

/-- A key is set, read, deleted and read again. -/
def briefActs : List (ShardAct Int) :=
  [.command 1 0 [.string (ascii "SET"), .string (ascii "k"), .string (ascii "v")],
    .command 2 0 [.string (ascii "GET"), .string (ascii "k")],
    .command 3 0 [.string (ascii "DEL"), .string (ascii "k")],
    .command 4 0 [.string (ascii "GET"), .string (ascii "k")]]

def briefReplies : List (Option Bytes) :=
  [some sendOk, some (sendBulkString (ascii "v")), some (sendInteger 1), some sendNull]

theorem briefActs_run :
    (((ShardAct.runDash (fun _ _ key => UInt64.ofNat key.length) .new briefActs).any fun r =>
      r.2 == briefReplies) &&
    ShardAct.outsideStash (fun _ _ key => UInt64.ofNat key.length) .new briefActs) = true := by
  decide +kernel

theorem dash_shard_refines_brief : ∃ (orders : List (Listing Bytes)) (sh : EngineShard Int),
    orders.length = 4 ∧ ShardAct.runShard .new (briefActs.zip orders) =
    some (sh, briefReplies) := by
  obtain ⟨hrun, houtside⟩ := Bool.and_eq_true_iff.mp briefActs_run
  obtain ⟨⟨d, replies⟩, hd, hreplies⟩ := (Option.any_eq_true _ _).mp hrun
  obtain rfl : replies = briefReplies := beq_iff_eq.mp hreplies
  obtain ⟨orders, sh, hlen, hruns, -⟩ :=
    dash_shard_refines _ briefActs d _ hd (ShardAct.spared_of_outsideStash houtside)
  exact ⟨orders, sh, hlen, hruns⟩

end Fixed

end ShrikeDb
