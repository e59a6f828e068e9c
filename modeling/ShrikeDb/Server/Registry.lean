import ShrikeDb.Server.GenericFamily
import ShrikeDb.Server.StringFamily
import ShrikeDb.Server.ListFamily
import ShrikeDb.Server.SetFamily
import ShrikeDb.Server.HashFamily
import ShrikeDb.Server.ZsetFamily

/-! The command registry (`command_registry.rs`, and of `main_service.rs` the table
of commands and their routing kinds) and the shard it dispatches on
(`engine_shard.rs`). -/

namespace ShrikeDb

open ReplyBuilder List

structure CommandEntry (F : Type) where
  name : Bytes
  handler : CommandContext → Command F Bytes
  arity : Int16
  firstKey : Nat

/-- How a command is routed. -/
inductive CommandType
  | noKeys
  | singleKey
  | multiKeySameHandler
  | mGet
  | mSet
  | rename
  | global
  deriving DecidableEq

/-- The routing of a command, from its name and the position of its first key. -/
def classifyCommand (cmd : Bytes) (firstKey : Nat) : CommandType :=
  if cmd ∈ [ascii "DBSIZE", ascii "FLUSHDB", ascii "FLUSHALL", ascii "KEYS", ascii "SCAN"]
    then .global
  else if firstKey = 0 then .noKeys
  else if cmd ∈ [ascii "DEL", ascii "UNLINK", ascii "EXISTS"] then .multiKeySameHandler
  else if cmd = ascii "MGET" then .mGet
  else if cmd ∈ [ascii "MSET", ascii "MSETNX"] then .mSet
  else if cmd ∈ [ascii "RENAME", ascii "RENAMENX"] then .rename
  else .singleKey

structure EngineShard (F : Type) where
  dbSlice : DbSlice F
  commandsProcessed : UInt64

namespace EngineShard

variable {F : Type}

def new : EngineShard F := ⟨DbSlice.new, 0⟩

def updateTime (s : EngineShard F) (now : UInt64) : EngineShard F :=
  { s with dbSlice := s.dbSlice.updateTime now }

end EngineShard

namespace CommandRegistry

variable {F : Type}

section Tables

open GenericFamily StringFamily ListFamily

def genericTable : List (CommandEntry F) := [
  ⟨ascii "PING", cmdPing, -1, 0⟩,
  ⟨ascii "ECHO", cmdEcho, 2, 0⟩,
  ⟨ascii "COMMAND", cmdCommand, -1, 0⟩,
  ⟨ascii "INFO", cmdInfo, -1, 0⟩,
  ⟨ascii "SELECT", cmdSelect, 2, 0⟩,
  ⟨ascii "DBSIZE", cmdDbsize, 1, 0⟩,
  ⟨ascii "FLUSHDB", cmdFlushdb, -1, 0⟩,
  ⟨ascii "FLUSHALL", cmdFlushall, -1, 0⟩,
  ⟨ascii "DEL", cmdDel, -2, 1⟩,
  ⟨ascii "UNLINK", cmdDel, -2, 1⟩,
  ⟨ascii "EXISTS", cmdExists, -2, 1⟩,
  ⟨ascii "TYPE", cmdType, 2, 1⟩,
  ⟨ascii "RENAME", cmdRename, 3, 1⟩,
  ⟨ascii "RENAMENX", cmdRenamenx, 3, 1⟩,
  ⟨ascii "EXPIRE", cmdExpire, 3, 1⟩,
  ⟨ascii "PEXPIRE", cmdPexpire, 3, 1⟩,
  ⟨ascii "EXPIREAT", cmdExpireat, 3, 1⟩,
  ⟨ascii "PEXPIREAT", cmdPexpireat, 3, 1⟩,
  ⟨ascii "TTL", cmdTtl, 2, 1⟩,
  ⟨ascii "PTTL", cmdPttl, 2, 1⟩,
  ⟨ascii "PERSIST", cmdPersist, 2, 1⟩,
  ⟨ascii "KEYS", cmdKeys, 2, 0⟩,
  ⟨ascii "SCAN", cmdScan, -2, 0⟩,
  ⟨ascii "RANDOMKEY", cmdRandomkey, 1, 0⟩,
  ⟨ascii "HELLO", cmdHello, -1, 0⟩,
  ⟨ascii "CLIENT", cmdClient, -2, 0⟩,
  ⟨ascii "CONFIG", cmdConfig, -2, 0⟩,
  ⟨ascii "RESET", cmdReset, 1, 0⟩]

def stringTable [F64 F] : List (CommandEntry F) := [
  ⟨ascii "GET", cmdGet, 2, 1⟩,
  ⟨ascii "SET", cmdSet, -3, 1⟩,
  ⟨ascii "SETNX", cmdSetnx, 3, 1⟩,
  ⟨ascii "SETEX", cmdSetex, 4, 1⟩,
  ⟨ascii "PSETEX", cmdPsetex, 4, 1⟩,
  ⟨ascii "MGET", cmdMget, -2, 1⟩,
  ⟨ascii "MSET", cmdMset, -3, 1⟩,
  ⟨ascii "MSETNX", cmdMsetnx, -3, 1⟩,
  ⟨ascii "GETSET", cmdGetset, 3, 1⟩,
  ⟨ascii "GETDEL", cmdGetdel, 2, 1⟩,
  ⟨ascii "GETEX", cmdGetex, -2, 1⟩,
  ⟨ascii "INCR", cmdIncr, 2, 1⟩,
  ⟨ascii "DECR", cmdDecr, 2, 1⟩,
  ⟨ascii "INCRBY", cmdIncrby, 3, 1⟩,
  ⟨ascii "DECRBY", cmdDecrby, 3, 1⟩,
  ⟨ascii "INCRBYFLOAT", cmdIncrbyfloat, 3, 1⟩,
  ⟨ascii "APPEND", cmdAppend, 3, 1⟩,
  ⟨ascii "STRLEN", cmdStrlen, 2, 1⟩,
  ⟨ascii "GETRANGE", cmdGetrange, 4, 1⟩,
  ⟨ascii "SETRANGE", cmdSetrange, 4, 1⟩]

def listTable : List (CommandEntry F) := [
  ⟨ascii "LPUSH", cmdLpush, -3, 1⟩,
  ⟨ascii "RPUSH", cmdRpush, -3, 1⟩,
  ⟨ascii "LPOP", cmdLpop, -2, 1⟩,
  ⟨ascii "RPOP", cmdRpop, -2, 1⟩,
  ⟨ascii "LLEN", cmdLlen, 2, 1⟩,
  ⟨ascii "LRANGE", cmdLrange, 4, 1⟩,
  ⟨ascii "LINDEX", cmdLindex, 3, 1⟩,
  ⟨ascii "LSET", cmdLset, 4, 1⟩,
  ⟨ascii "LREM", cmdLrem, 4, 1⟩,
  ⟨ascii "LTRIM", cmdLtrim, 4, 1⟩,
  ⟨ascii "LINSERT", cmdLinsert, 5, 1⟩]

end Tables

section Tables

open ShrikeDb.SetFamily HashFamily ZsetFamily

def setTable [HashOrder] : List (CommandEntry F) := [
  ⟨ascii "SADD", cmdSadd, -3, 1⟩,
  ⟨ascii "SREM", cmdSrem, -3, 1⟩,
  ⟨ascii "SMEMBERS", cmdSmembers, 2, 1⟩,
  ⟨ascii "SISMEMBER", cmdSismember, 3, 1⟩,
  ⟨ascii "SMISMEMBER", cmdSmismember, -3, 1⟩,
  ⟨ascii "SCARD", cmdScard, 2, 1⟩,
  ⟨ascii "SRANDMEMBER", cmdSrandmember, -2, 1⟩,
  ⟨ascii "SPOP", cmdSpop, -2, 1⟩,
  ⟨ascii "SINTER", cmdSinter, -2, 1⟩,
  ⟨ascii "SUNION", cmdSunion, -2, 1⟩,
  ⟨ascii "SDIFF", cmdSdiff, -2, 1⟩]

def hashTable [F64 F] [HashOrder] : List (CommandEntry F) := [
  ⟨ascii "HSET", cmdHset, -4, 1⟩,
  ⟨ascii "HGET", cmdHget, 3, 1⟩,
  ⟨ascii "HDEL", cmdHdel, -3, 1⟩,
  ⟨ascii "HEXISTS", cmdHexists, 3, 1⟩,
  ⟨ascii "HGETALL", cmdHgetall, 2, 1⟩,
  ⟨ascii "HKEYS", cmdHkeys, 2, 1⟩,
  ⟨ascii "HVALS", cmdHvals, 2, 1⟩,
  ⟨ascii "HLEN", cmdHlen, 2, 1⟩,
  ⟨ascii "HMSET", cmdHmset, -4, 1⟩,
  ⟨ascii "HMGET", cmdHmget, -3, 1⟩,
  ⟨ascii "HINCRBY", cmdHincrby, 4, 1⟩,
  ⟨ascii "HINCRBYFLOAT", cmdHincrbyfloat, 4, 1⟩,
  ⟨ascii "HSETNX", cmdHsetnx, 4, 1⟩]

def zsetTable [F64 F] : List (CommandEntry F) := [
  ⟨ascii "ZADD", cmdZadd, -4, 1⟩,
  ⟨ascii "ZREM", cmdZrem, -3, 1⟩,
  ⟨ascii "ZSCORE", cmdZscore, 3, 1⟩,
  ⟨ascii "ZRANK", cmdZrank, 3, 1⟩,
  ⟨ascii "ZREVRANK", cmdZrevrank, 3, 1⟩,
  ⟨ascii "ZRANGE", cmdZrange, -4, 1⟩,
  ⟨ascii "ZRANGEBYSCORE", cmdZrangebyscore, -4, 1⟩,
  ⟨ascii "ZCARD", cmdZcard, 2, 1⟩,
  ⟨ascii "ZCOUNT", cmdZcount, 4, 1⟩,
  ⟨ascii "ZINCRBY", cmdZincrby, 4, 1⟩,
  ⟨ascii "ZPOPMIN", cmdZpopmin, -2, 1⟩,
  ⟨ascii "ZPOPMAX", cmdZpopmax, -2, 1⟩,
  ⟨ascii "ZMSCORE", cmdZmscore, -3, 1⟩]

end Tables

variable [F64 F] [HashOrder]

/-- All commands, in the order they are registered. -/
def buildCommandRegistry : List (CommandEntry F) :=
  genericTable ++ stringTable ++ listTable ++ setTable ++ hashTable ++ zsetTable

def find (name : Bytes) :
    Option (CommandEntry F) := buildCommandRegistry.find? fun e => e.name = name

variable {name : Bytes} {entry e : CommandEntry F} {args : List RespExpr}

theorem find_mem (h : find name = some entry) :
    entry ∈ buildCommandRegistry ∧ entry.name = name :=
  ⟨mem_of_find?_eq_some h, by simpa using find?_some h⟩

def names : List Bytes := (buildCommandRegistry (F := F)).map CommandEntry.name

/-- The numbers the names spell are compared, which takes less evaluation. -/
theorem quit_names_nodup : (ascii "QUIT" :: names (F := F)).Nodup := by
  refine List.Nodup.of_map (fun name : Bytes => name.foldl (fun n b => 256 * n + b.toNat) 0) ?_
  simp only [names, buildCommandRegistry, genericTable, stringTable, listTable, setTable, hashTable,
    zsetTable, map_append, map_cons, map_nil]
  decide +kernel

theorem names_nodup : (names (F := F)).Nodup := (nodup_cons.mp quit_names_nodup).2

theorem find_quit : find (F := F) (ascii "QUIT") = none := by
  rw [find, find?_eq_none]
  intro e he hname
  exact (nodup_cons.mp quit_names_nodup).1 (mem_map.mpr ⟨e, he, of_decide_eq_true hname⟩)

/-- No command is registered twice, so each is found by its name. -/
theorem find_of_mem (h : entry ∈ buildCommandRegistry) :
    find entry.name = some entry := by
  obtain ⟨n, hlt, hget⟩ := mem_iff_getElem.mp h
  rw [find, find?_eq_some_iff_getElem]
  refine ⟨by simp, n, hlt, hget, fun j hj => ?_⟩
  -- an earlier entry of that name would make the name occur twice
  have hne : (buildCommandRegistry (F := F))[j].name ≠ entry.name := by
    have hpair := pairwise_iff_getElem.mp (pairwise_map.mp (names_nodup (F := F))) j n
      (hj.trans hlt) hlt hj
    rwa [hget] at hpair
  simpa using hne

def tables : List (List (CommandEntry F)) :=
  [genericTable, stringTable, listTable, setTable, hashTable, zsetTable]

theorem find_of_getElem (table : List (CommandEntry F)) (htable : table ∈ tables) {n : Nat}
    (h : table[n]? = some entry) (hname : entry.name = name) : find name = some entry := by
  subst hname
  have hall : buildCommandRegistry (F := F) = tables.flatten := by
    simp [buildCommandRegistry, tables]
  refine find_of_mem ?_
  rw [hall]
  exact mem_flatten_of_mem htable (mem_of_getElem? h)

section Known

open GenericFamily StringFamily

theorem find_dbsize : find (F := F) (ascii "DBSIZE") = some ⟨ascii "DBSIZE", cmdDbsize, 1, 0⟩ :=
  find_of_getElem (n := 5) genericTable (by simp [tables]) rfl rfl

theorem find_flushdb :
    find (F := F) (ascii "FLUSHDB") = some ⟨ascii "FLUSHDB", cmdFlushdb, -1, 0⟩ :=
  find_of_getElem (n := 6) genericTable (by simp [tables]) rfl rfl

theorem find_flushall :
    find (F := F) (ascii "FLUSHALL") = some ⟨ascii "FLUSHALL", cmdFlushall, -1, 0⟩ :=
  find_of_getElem (n := 7) genericTable (by simp [tables]) rfl rfl

theorem find_del : find (F := F) (ascii "DEL") = some ⟨ascii "DEL", cmdDel, -2, 1⟩ :=
  find_of_getElem (n := 8) genericTable (by simp [tables]) rfl rfl

theorem find_unlink : find (F := F) (ascii "UNLINK") = some ⟨ascii "UNLINK", cmdDel, -2, 1⟩ :=
  find_of_getElem (n := 9) genericTable (by simp [tables]) rfl rfl

theorem find_exists : find (F := F) (ascii "EXISTS") = some ⟨ascii "EXISTS", cmdExists, -2, 1⟩ :=
  find_of_getElem (n := 10) genericTable (by simp [tables]) rfl rfl

theorem find_rename : find (F := F) (ascii "RENAME") = some ⟨ascii "RENAME", cmdRename, 3, 1⟩ :=
  find_of_getElem (n := 12) genericTable (by simp [tables]) rfl rfl

theorem find_keys : find (F := F) (ascii "KEYS") = some ⟨ascii "KEYS", cmdKeys, 2, 0⟩ :=
  find_of_getElem (n := 21) genericTable (by simp [tables]) rfl rfl

theorem find_mget : find (F := F) (ascii "MGET") = some ⟨ascii "MGET", cmdMget, -2, 1⟩ :=
  find_of_getElem (n := 5) stringTable (by simp [tables]) rfl rfl

theorem find_mset : find (F := F) (ascii "MSET") = some ⟨ascii "MSET", cmdMset, -3, 1⟩ :=
  find_of_getElem (n := 6) stringTable (by simp [tables]) rfl rfl

theorem find_scan : find (F := F) (ascii "SCAN") = some ⟨ascii "SCAN", cmdScan, -2, 0⟩ :=
  find_of_getElem (n := 22) genericTable (by simp [tables]) rfl rfl

theorem find_zpopmax :
    find (F := F) (ascii "ZPOPMAX") = some ⟨ascii "ZPOPMAX", ZsetFamily.cmdZpopmax, -2, 1⟩ :=
  find_of_getElem (n := 11) zsetTable (by simp [tables]) rfl rfl

theorem find_sinter :
    find (F := F) (ascii "SINTER") = some ⟨ascii "SINTER", SetFamily.cmdSinter, -2, 1⟩ :=
  find_of_getElem (n := 8) setTable (by simp [tables]) rfl rfl

theorem find_sunion :
    find (F := F) (ascii "SUNION") = some ⟨ascii "SUNION", SetFamily.cmdSunion, -2, 1⟩ :=
  find_of_getElem (n := 9) setTable (by simp [tables]) rfl rfl

theorem find_sdiff :
    find (F := F) (ascii "SDIFF") = some ⟨ascii "SDIFF", SetFamily.cmdSdiff, -2, 1⟩ :=
  find_of_getElem (n := 10) setTable (by simp [tables]) rfl rfl

end Known

/-- The name in upper case, or the error reply. -/
def commandName : List RespExpr → Except Bytes Bytes
  | [] => .error (sendErr (ascii "empty command"))
  | a :: _ =>
    match a.asBytes with
    | none => .error (sendErr (ascii "invalid command"))
    | some name =>
      match fromUtf8 (toAsciiUppercase name) with
      | none => .error (sendErr (ascii "invalid command encoding"))
      | some upper => .ok upper

omit [HashOrder] in
theorem commandName_eq_ok {cmd : Bytes} :
    commandName args = .ok cmd ↔
    (args.head?.bind RespExpr.asStr).map toAsciiUppercase = some cmd := by
  cases args with
  | nil => exact iff_of_false nofun nofun
  | cons a rest =>
    rw [commandName, head?_cons, Option.bind_some, RespExpr.asStr]
    cases a.asBytes with
    | none => exact iff_of_false nofun nofun
    | some name =>
      dsimp only
      rw [fromUtf8_toAsciiUppercase, Option.bind_some]
      cases fromUtf8 name with
      | none => exact iff_of_false nofun nofun
      | some text => simp

/-- A command is registered under its name in upper case. -/
theorem names_upper : ∀ name ∈ names (F := F),
    (RespExpr.asStr (.string name)).map toAsciiUppercase = some name := by
  simp only [names, buildCommandRegistry, genericTable, stringTable, listTable, setTable, hashTable,
    zsetTable, map_append, map_cons, map_nil]
  decide +kernel

theorem commandName_of_find (h : find name = some e) (rest : List RespExpr) :
    commandName (.string name :: rest) = .ok name := by
  obtain ⟨hmem, rfl⟩ := find_mem h
  exact commandName_eq_ok.mpr (names_upper (F := F) _ (mem_map_of_mem hmem))

/-- The number of arguments is compared as an `i16`. -/
def arityOk (arity : Int16) (count : Nat) : Bool :=
  let argc := Int16.ofNat count
  !(0 < arity && argc ≠ arity) && !(arity < 0 && argc < -arity)

omit [HashOrder] in
theorem arityOk_iff {arity : Int16} (hmin : arity ≠ Int16.minValue) (count : Nat) :
    arityOk arity count = true ↔
      (arity.toInt ≤ 0 ∨ (count : Int).bmod (2 ^ 16) = arity.toInt) ∧
        (0 ≤ arity.toInt ∨ -arity.toInt ≤ (count : Int).bmod (2 ^ 16)) := by
  have hargc : (Int16.ofNat count).toInt = (count : Int).bmod (2 ^ 16) := Int16.toInt_ofNat'
  have hneg : (-arity).toInt = -arity.toInt := by
    have hne : arity.toInt ≠ -2 ^ 15 := fun e => hmin (Int16.toInt_inj.mp e)
    have hlt := arity.toInt_lt
    have hle := arity.le_toInt
    rw [Int16.toInt_neg, Int.bmod_def]
    omega
  rw [← hargc, ← hneg]
  simp [arityOk, Int16.lt_iff_toInt_lt, ← Int16.toInt_inj]

omit [HashOrder] in
theorem le_of_arityOk {arity : Int16} {count : Nat} (hmin : arity ≠ Int16.minValue)
    (h : arityOk arity count = true) : arity.toInt.natAbs ≤ count := by
  rw [arityOk_iff hmin, Int.bmod_def] at h
  omega

variable [CaseTable]

def unknownCommand (name : Bytes) : Bytes :=
  sendErr (ascii "unknown command '" ++ toLowercase name ++ ascii "', with args beginning with: ")

def wrongNumber (name : Bytes) : Bytes :=
  sendErr (ascii "wrong number of arguments for '" ++ toLowercase name ++ ascii "' command")

/-- What `dispatch` does with a command: answer at once, or run a handler. -/
inductive Resolved (F : Type)
  | reply (data : Bytes) (keepAlive : Bool)
  | run (entry : CommandEntry F)

def resolve (args : List RespExpr) : Resolved F :=
  match commandName args with
  | .error reply => .reply reply true
  | .ok name =>
    if name = ascii "QUIT" then .reply sendOk false
    else
      match find name with
      | none => .reply (unknownCommand name) true
      | some entry =>
        if arityOk entry.arity args.length then .run entry else .reply (wrongNumber name) true

theorem resolve_of_find (hname : commandName args = .ok name) (hfind : find name = some e) :
    resolve args = if arityOk e.arity args.length then .run e
      else .reply (wrongNumber name) true := by
  have hquit : name ≠ ascii "QUIT" := by
    rintro rfl
    rw [find_quit] at hfind
    cases hfind
  rw [resolve, hname]
  dsimp only
  rw [if_neg hquit, hfind]

/-- A command called by its name. -/
theorem resolve_string (hfind : find name = some e) {rest : List RespExpr}
    (harity : arityOk e.arity (rest.length + 1) = true) :
    resolve (.string name :: rest) = .run e := by
  rw [resolve_of_find (commandName_of_find hfind rest) hfind, length_cons, if_pos harity]

theorem resolve_run (hr : resolve args = .run e) :
    find e.name = some e ∧ commandName args = .ok e.name := by
  rw [resolve] at hr
  split at hr
  · cases hr
  · rename_i name hname
    split at hr
    · cases hr
    · split at hr
      · cases hr
      · rename_i entry hfind
        obtain ⟨-, rfl⟩ := find_mem hfind
        split at hr
        · cases hr
          exact ⟨hfind, hname⟩
        · cases hr

theorem arityOk_of_resolve (hr : resolve args = .run e) :
    arityOk e.arity args.length = true := by
  obtain ⟨hfind, hname⟩ := resolve_run hr
  rw [resolve, hname] at hr
  dsimp only at hr
  split at hr
  · cases hr
  · rw [hfind] at hr
    dsimp only at hr
    split at hr
    · assumption
    · cases hr

/-- The program `dispatch` runs on the shard. -/
def program (args : List RespExpr) (i : DbIndex) : Command F Bytes :=
  match resolve args with
  | .reply data _ => pure data
  | .run entry => entry.handler ⟨args, i⟩

/-- What a dispatch leaves behind; `reply` is `none` after a panic. -/
structure Dispatched (F : Type) where
  reply : Option Bytes
  keepAlive : Bool
  conn : ConnContext
  shard : EngineShard F

def dispatch (ω : Listing Bytes) (args : List RespExpr) (conn : ConnContext)
    (shard : EngineShard F) : Dispatched F :=
  match resolve args with
  | .reply data keepAlive => ⟨some data, keepAlive, conn, shard⟩
  | .run entry =>
    let out := Program.run (step ω) (entry.handler ⟨args, conn.dbIndex⟩) ⟨shard.dbSlice, conn⟩
    ⟨out.1, true, out.2.conn, ⟨out.2.slice, shard.commandsProcessed + 1⟩⟩

/-- Reply, connection and databases after a dispatch are those of its program. -/
theorem dispatch_eq (ω : Listing Bytes) (args : List RespExpr) (conn : ConnContext)
    (shard : EngineShard F) :
    let out := Program.run (step ω) (program args conn.dbIndex) ⟨shard.dbSlice, conn⟩
    (dispatch ω args conn shard).reply = out.1 ∧ (dispatch ω args conn shard).conn = out.2.conn ∧
      (dispatch ω args conn shard).shard.dbSlice = out.2.slice := by
  rw [dispatch, program]
  cases resolve (F := F) args with
  | reply data keepAlive => exact ⟨rfl, rfl, rfl⟩
  | run entry => exact ⟨rfl, rfl, rfl⟩

end CommandRegistry

end ShrikeDb
