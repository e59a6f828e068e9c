import ShrikeDb.Server.Handlers

/-! What each command of the registry asks of a footprint, and that every command line
keeps the discipline where that is met. -/

namespace ShrikeDb

open Program Command ReplyBuilder CommandRegistry GenericFamily StringFamily List

variable {F : Type} {fp : Footprint} {ctx : CommandContext}

/-- The keys a command names. -/
inductive KeySpec
  | nothing
  | first
  | all
  | pairs
  | two
  | database
  | everything
  deriving DecidableEq

/-- The keys of a command, following its routing: the set operations are routed by
their first key but take a list of them. -/
def keySpec (name : Bytes) (firstKey : Nat) : KeySpec :=
  match classifyCommand name firstKey with
  | .noKeys => .nothing
  | .singleKey => if name ∈ [ascii "SINTER", ascii "SUNION", ascii "SDIFF"] then .all else .first
  | .multiKeySameHandler | .mGet => .all
  | .mSet => .pairs
  | .rename => .two
  | .global =>
    if name = ascii "FLUSHDB" then .database
    else if name = ascii "FLUSHALL" then .everything
    else .nothing

/-- The footprint covers the keys of the command. -/
def KeySpec.Covered (fp : Footprint) (ctx : CommandContext) : KeySpec → Prop
  | .nothing => True
  | .first => fp.Covers ctx 1
  | .all => fp.SeesAll ctx
  | .pairs => fp.CoversPairs ctx
  | .two => fp.Sees ctx 1 ∧ fp.Covers ctx 2
  | .database => ∀ k, (ctx.dbIndex, k) ∈ fp.reads
  | .everything => ∀ a, a ∈ fp.reads

/-- The commands that tell a lapsed key from an absent one: they delete or rename
without a look-up, or look at the table as a whole. -/
def unchecked : List Bytes :=
  [ascii "DEL", ascii "UNLINK", ascii "RENAME", ascii "DBSIZE", ascii "INFO", ascii "SCAN",
    ascii "RANDOMKEY", ascii "KEYS"]

/-- What one entry asks of a footprint: which keys it covers, and whether the command
is one of the unchecked. -/
structure Demand where
  keys : KeySpec
  unchecked : Bool
  deriving DecidableEq

def Demand.MetBy (fp : Footprint) (ctx : CommandContext) (d : Demand) : Prop :=
  d.keys.Covered fp ctx ∧ (d.unchecked = true → ¬fp.strict)

def demandOf (name : Bytes) (firstKey : Nat) : Demand := ⟨keySpec name firstKey, name ∈ unchecked⟩

def demand (e : CommandEntry F) : Demand := demandOf e.name e.firstKey

/-- An entry of a table keeps the discipline where its demand is met. -/
def Keeps (fp : Footprint) (ctx : CommandContext) (e : CommandEntry F) (d : Demand) : Prop :=
  d.MetBy fp ctx → Disciplined fp (e.handler ctx)

def setTableDemands : List Demand :=
  [⟨.first, false⟩, ⟨.first, false⟩, ⟨.first, false⟩, ⟨.first, false⟩, ⟨.first, false⟩,
    ⟨.first, false⟩, ⟨.first, false⟩, ⟨.first, false⟩, ⟨.all, false⟩, ⟨.all, false⟩,
    ⟨.all, false⟩]

theorem setTable_demands [HashOrder] : setTable.map (demand (F := F)) = setTableDemands := by
  simp only [setTable, demand, map_cons, map_nil]
  decide

theorem setTable_keeps [HashOrder] :
    List.Forall₂ (Keeps (F := F) fp ctx) setTable setTableDemands := by
  simp only [setTable, setTableDemands, forall₂_cons, List.Forall₂.nil, and_true]
  refine ⟨?sadd, ?srem, ?smembers, ?sismember, ?smismember, ?scard, ?srandmember, ?spop, ?sinter,
    ?sunion, ?sdiff⟩ <;> rintro ⟨hk, hs⟩
  case sadd =>
    exact follows_arg rfl fun _ hkey => follows_args rfl fun _ _ =>
      hk.editOrCreate hkey (fun _ => rfl) rfl
  case srem =>
    exact follows_arg rfl fun _ hkey => follows_args rfl fun _ _ => hk.edit hkey fun _ => rfl
  case smembers => exact follows_arg rfl fun _ hkey => hk.view hkey
  case sismember => exact follows_arg rfl fun _ hkey => follows_arg rfl fun _ _ => hk.view hkey
  case smismember => exact follows_arg rfl fun _ hkey => follows_args rfl fun _ _ => hk.view hkey
  case scard => exact follows_arg rfl fun _ hkey => hk.view hkey
  case srandmember => exact follows_arg rfl fun _ hkey => hk.view hkey
  case spop => exact SetFamily.cmdSpop_disciplined hk
  case sinter => exact SetFamily.setOp_disciplined .inter hk
  case sunion => exact SetFamily.setOp_disciplined .union hk
  case sdiff => exact SetFamily.setOp_disciplined .diff hk

def stringTableDemands : List Demand :=
  [⟨.first, false⟩, ⟨.first, false⟩, ⟨.first, false⟩, ⟨.first, false⟩, ⟨.first, false⟩,
    ⟨.all, false⟩, ⟨.pairs, false⟩, ⟨.pairs, false⟩, ⟨.first, false⟩, ⟨.first, false⟩,
    ⟨.first, false⟩, ⟨.first, false⟩, ⟨.first, false⟩, ⟨.first, false⟩, ⟨.first, false⟩,
    ⟨.first, false⟩, ⟨.first, false⟩, ⟨.first, false⟩, ⟨.first, false⟩, ⟨.first, false⟩]

theorem stringTable_demands [F64 F] : stringTable.map (demand (F := F)) = stringTableDemands := by
  simp only [stringTable, demand, map_cons, map_nil]
  decide

theorem stringTable_keeps [F64 F] :
    List.Forall₂ (Keeps (F := F) fp ctx) stringTable stringTableDemands := by
  simp only [stringTable, stringTableDemands, forall₂_cons, List.Forall₂.nil, and_true]
  refine ⟨?get, ?set, ?setnx, ?setex, ?psetex, ?mget, ?mset, ?msetnx, ?getset, ?getdel, ?getex,
    ?incr, ?decr, ?incrby, ?decrby, ?incrbyfloat, ?append, ?strlen, ?getrange,
    ?setrange⟩ <;> rintro ⟨hk, hs⟩
  case get => exact follows_arg rfl fun _ hkey => hk.view hkey
  case set => exact cmdSet_disciplined hk
  case setnx => exact cmdSetnx_disciplined hk
  case setex => exact setWithExpiry_disciplined 1000 hk
  case psetex => exact setWithExpiry_disciplined 1 hk
  case mget => exact cmdMget_disciplined hk
  case mset => exact cmdMset_disciplined hk
  case msetnx => exact cmdMsetnx_disciplined hk
  case getset => exact cmdGetset_disciplined hk
  case getdel => exact cmdGetdel_disciplined hk
  case getex => exact cmdGetex_disciplined hk
  case incr => exact incrBy_disciplined 1 hk
  case decr => exact incrBy_disciplined (-1) hk
  case incrby =>
    dsimp only [cmdIncrby]
    split
    · exact incrBy_disciplined _ hk
    · exact fresh_start.settled _
  case decrby =>
    dsimp only [cmdDecrby]
    split
    · exact incrBy_disciplined _ hk
    · exact fresh_start.settled _
  case incrbyfloat => exact cmdIncrbyfloat_disciplined hk
  case append =>
    exact follows_arg rfl fun key hkey => follows_arg rfl fun _ _ =>
      follows_tryEdit fresh_start (hk key hkey).1 (fun _ _ h => (ok_of_ite h).2 ▸ rfl)
        (follows_create (fresh_start.looked _) (hk key hkey).1 (hk key hkey).2 (Set.mem_insert _ _)
          rfl)
  case strlen => exact follows_arg rfl fun _ hkey => hk.view hkey
  case getrange =>
    refine follows_arg rfl fun key hkey => ?_
    split
    · exact hk.view hkey
    · exact fresh_start.settled _
  case setrange => exact cmdSetrange_disciplined hk

def genericTableDemands : List Demand :=
  [⟨.nothing, false⟩, ⟨.nothing, false⟩, ⟨.nothing, false⟩, ⟨.nothing, true⟩, ⟨.nothing, false⟩,
    ⟨.nothing, true⟩, ⟨.database, false⟩, ⟨.everything, false⟩, ⟨.all, true⟩, ⟨.all, true⟩,
    ⟨.all, false⟩, ⟨.first, false⟩, ⟨.two, true⟩, ⟨.two, false⟩, ⟨.first, false⟩,
    ⟨.first, false⟩, ⟨.first, false⟩, ⟨.first, false⟩, ⟨.first, false⟩, ⟨.first, false⟩,
    ⟨.first, false⟩, ⟨.nothing, true⟩, ⟨.nothing, true⟩, ⟨.nothing, true⟩, ⟨.nothing, false⟩,
    ⟨.nothing, false⟩, ⟨.nothing, false⟩, ⟨.nothing, false⟩]

theorem genericTable_demands : genericTable.map (demand (F := F)) = genericTableDemands := by
  simp only [genericTable, demand, map_cons, map_nil]
  decide

theorem genericTable_keeps :
    List.Forall₂ (Keeps (F := F) fp ctx) genericTable genericTableDemands := by
  simp only [genericTable, genericTableDemands, forall₂_cons, List.Forall₂.nil, and_true]
  refine ⟨?ping, ?echo, ?command, ?info, ?select, ?dbsize, ?flushdb, ?flushall, ?del, ?unlink,
    ?existing, ?type, ?rename, ?renamenx, ?expire, ?pexpire, ?expireat, ?pexpireat, ?ttl, ?pttl,
    ?persist, ?keys, ?scan, ?randomkey, ?hello, ?client, ?config, ?reset⟩ <;> rintro ⟨hk, hs⟩
  case ping => exact cmdPing_disciplined
  case echo => exact follows_arg rfl fun _ _ => fresh_start.settled _
  case command => exact fresh_start.settled _
  case info => exact follows_perform (o := .dbSize _) (hs rfl) id fun _ => fresh_start.settled _
  case select => exact cmdSelect_disciplined
  case dbsize => exact follows_perform (o := .dbSize _) (hs rfl) id fun _ => fresh_start.settled _
  case flushdb =>
    exact follows_invoke (o := .flushDb _) (fun k => ⟨hk k, Set.notMem_empty _⟩)
      fun _ => settled_of_not_error rfl rfl
  case flushall => exact cmdFlushall_disciplined ctx hk
  case del => exact cmdDel_disciplined hk (hs rfl)
  case unlink => exact cmdDel_disciplined hk (hs rfl)
  case existing => exact cmdExists_disciplined hk
  case type => exact cmdType_disciplined hk
  case rename => exact cmdRename_disciplined hk.1 hk.2 (hs rfl)
  case renamenx => exact cmdRenamenx_disciplined hk.1 hk.2
  case expire => exact setExpireRelative_disciplined 1000 hk
  case pexpire => exact setExpireRelative_disciplined 1 hk
  case expireat => exact setExpireAbsolute_disciplined 1000 hk
  case pexpireat => exact setExpireAbsolute_disciplined 1 hk
  case ttl => exact ttlReply_disciplined 1000 hk
  case pttl => exact ttlReply_disciplined 1 hk
  case persist => exact cmdPersist_disciplined hk
  case keys => exact follows_perform (o := .keys _ _) (hs rfl) id fun _ => fresh_start.settled _
  case scan => exact cmdScan_disciplined (hs rfl)
  case randomkey =>
    exact follows_perform (o := .randomEntry _) (hs rfl) id fun _ => fresh_start.settled _
  case hello => exact fresh_start.settled _
  case client => exact fresh_start.settled _
  case config => exact fresh_start.settled _
  case reset => exact follows_invoke (o := .select 0) trivial fun _ => fresh_start.settled _

/-- The tables whose commands all take one key. -/
theorem listTable_demands : listTable.map (demand (F := F)) = replicate 11 ⟨.first, false⟩ := by
  simp only [listTable, demand, map_cons, map_nil]
  decide

theorem hashTable_demands [F64 F] [HashOrder] :
    hashTable.map (demand (F := F)) = replicate 13 ⟨.first, false⟩ := by
  simp only [hashTable, demand, map_cons, map_nil]
  decide

theorem zsetTable_demands [F64 F] :
    zsetTable.map (demand (F := F)) = replicate 13 ⟨.first, false⟩ := by
  simp only [zsetTable, demand, map_cons, map_nil]
  decide

section Registry

variable {e : CommandEntry F} {table : List (CommandEntry F)}

theorem keeps_of_table {demands : List Demand} (hd : table.map demand = demands)
    (h : List.Forall₂ (Keeps fp ctx) table demands) (he : e ∈ table) :
    Keeps fp ctx e (demand e) := by
  rw [← hd, forall₂_map_right_iff, forall₂_same] at h
  exact h e he

theorem covers_of_table {n : Nat} (hd : table.map demand = replicate n ⟨.first, false⟩)
    (he : e ∈ table) (h : (demand e).MetBy fp ctx) : fp.Covers ctx 1 := by
  have hmem : demand e ∈ replicate n (⟨.first, false⟩ : Demand) := hd ▸ mem_map_of_mem he
  rw [eq_of_mem_replicate hmem] at h
  exact h.1

variable [F64 F] [HashOrder]

/-- Every command keeps the discipline on the cells of its keys. -/
theorem registry_disciplined (he : e ∈ buildCommandRegistry) (h : (demand e).MetBy fp ctx) :
    Disciplined fp (e.handler ctx) := by
  simp only [buildCommandRegistry, mem_append] at he
  rcases he with ((((he | he) | he) | he) | he) | he
  · exact keeps_of_table genericTable_demands genericTable_keeps he h
  · exact keeps_of_table stringTable_demands stringTable_keeps he h
  · exact ListFamily.listTable_disciplined he (covers_of_table listTable_demands he h)
  · exact keeps_of_table setTable_demands setTable_keeps he h
  · exact HashFamily.hashTable_disciplined he (covers_of_table hashTable_demands he h)
  · exact ZsetFamily.zsetTable_disciplined he (covers_of_table zsetTable_demands he h)

variable [CaseTable] {args : List RespExpr}

/-- The program of a command line keeps the discipline if the demand of the command it
names is met. -/
theorem program_disciplined {i : DbIndex}
    (h : ∀ e : CommandEntry F, resolve args = .run e → (demand e).MetBy fp ⟨args, i⟩) :
    Disciplined fp (program (F := F) args i) := by
  rw [program]
  cases hr : resolve (F := F) args with
  | reply data keepAlive => exact fresh_start.settled _
  | run e => exact registry_disciplined (find_mem (resolve_run hr).1).1 (h e hr)

end Registry

end ShrikeDb
