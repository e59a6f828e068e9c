import ShrikeDb.Server.Command

/-! The handlers of `generic_family.rs`. -/

namespace ShrikeDb.GenericFamily

open Program Command ReplyBuilder

variable {F : Type}

variable (ctx : CommandContext)

def cmdPing : Command F Bytes := do
  if ctx.args.length > 1 then
    let msg ← arg ctx 1
    pure (sendBulkString msg)
  else pure sendPong

def cmdEcho : Command F Bytes := do
  let msg ← arg ctx 1
  pure (sendBulkString msg)

def cmdCommand (_ctx : CommandContext) : Command F Bytes := pure (sendArrayLen 0)

def cmdInfo : Command F Bytes := do
  let size : Nat ← perform (S := dbOps F) (.dbSize ctx.dbIndex)
  pure (sendBulkString (ascii "# Server\r\nshrikedb_version:0.1.0\r\n# Keyspace\r\ndb0:keys=" ++
    Decimal.ofNat size ++ ascii ",expires=0\r\n"))

def dbIndexOf (z : Int) : Option DbIndex :=
  if h : 0 ≤ z ∧ z < 16 then some ⟨z.toNat, by omega⟩ else none

def cmdSelect : Command F Bytes := do
  match (ctx.argInt 1).bind fun n => dbIndexOf n.toInt with
  | some idx =>
    invoke (.select idx)
    pure sendOk
  | none => pure (sendErr (ascii "DB index is out of range"))

def cmdDbsize : Command F Bytes := do
  let size : Nat ← perform (S := dbOps F) (.dbSize ctx.dbIndex)
  pure (sendInteger (Int64.ofNat size))

def cmdFlushdb : Command F Bytes := do
  invoke (.flushDb ctx.dbIndex)
  pure sendOk

def cmdFlushall (_ctx : CommandContext) : Command F Bytes := do
  let _ ← forEach (fun i => invoke (.flushDb i)) (List.finRange 16)
  pure sendOk

/-- How many of the answers are `true`. -/
def countTrue (answers : List Bool) : Int64 := Int64.ofNat (answers.count true)

def cmdDel : Command F Bytes := do
  let keys ← args ctx 1
  let answers ← forEach (fun key => perform (S := dbOps F) (.del ctx.dbIndex key)) keys
  pure (sendInteger (countTrue answers))

def cmdExists : Command F Bytes := do
  let keys ← args ctx 1
  let answers ← forEach (fun key => existsKey ctx.dbIndex key) keys
  pure (sendInteger (countTrue answers))

def cmdType : Command F Bytes := do
  let key ← arg ctx 1
  match ← find ctx.dbIndex key with
  | some r => pure (sendSimpleString r.value.typeName)
  | none => pure (sendSimpleString (ascii "none"))

def cmdRename : Command F Bytes := do
  let source ← arg ctx 1
  let dest ← arg ctx 2
  let renamed : Bool ← perform (S := dbOps F) (.rename ctx.dbIndex source dest)
  if renamed then pure sendOk else pure (sendErr (ascii "no such key"))

def cmdRenamenx : Command F Bytes := do
  let source ← arg ctx 1
  let dest ← arg ctx 2
  if !(← existsKey ctx.dbIndex source) then pure (sendErr (ascii "no such key"))
  else if ← existsKey ctx.dbIndex dest then pure (sendInteger 0)
  else
    invoke (.rename ctx.dbIndex source dest)
    pure (sendInteger 1)

/-! ## Deadlines -/

def setExpireRelative (multiplier : UInt64) : Command F Bytes := do
  let key ← arg ctx 1
  match ctx.argInt 2 with
  | none => pure notAnInteger
  | some secs =>
    if secs ≤ 0 then
      if ← existsKey ctx.dbIndex key then
        invoke (.del ctx.dbIndex key)
        pure (sendInteger 1)
      else pure (sendInteger 0)
    else if !(← existsKey ctx.dbIndex key) then pure (sendInteger 0)
    else
      let now ← nowMs
      invoke (.addExpire ctx.dbIndex key (now + secs.toUInt64 * multiplier))
      pure (sendInteger 1)

def setExpireAbsolute (multiplier : UInt64) : Command F Bytes := do
  let key ← arg ctx 1
  match ctx.argInt 2 with
  | none => pure notAnInteger
  | some ts =>
    if !(← existsKey ctx.dbIndex key) then pure (sendInteger 0)
    else
      let deadlineMs := ts.toUInt64 * multiplier
      let now ← nowMs
      if deadlineMs ≤ now then
        invoke (.del ctx.dbIndex key)
        pure (sendInteger 1)
      else
        invoke (.addExpire ctx.dbIndex key deadlineMs)
        pure (sendInteger 1)

def cmdExpire : Command F Bytes := setExpireRelative ctx 1000

def cmdPexpire : Command F Bytes := setExpireRelative ctx 1

def cmdExpireat : Command F Bytes := setExpireAbsolute ctx 1000

def cmdPexpireat : Command F Bytes := setExpireAbsolute ctx 1

/-- The answer of `TTL` and `PTTL`, which differ in the unit. -/
def ttlReply (unit : UInt64) : Command F Bytes := do
  let key ← arg ctx 1
  let ttl : TtlResult ← perform (S := dbOps F) (.ttlMs ctx.dbIndex key)
  match ttl with
  | .keyNotFound => pure (sendInteger (-2))
  | .noExpiry => pure (sendInteger (-1))
  | .expires ms => pure (sendInteger (ms / unit).toInt64)

def cmdTtl : Command F Bytes := ttlReply ctx 1000

def cmdPttl : Command F Bytes := ttlReply ctx 1

def cmdPersist : Command F Bytes := do
  let key ← arg ctx 1
  if !(← existsKey ctx.dbIndex key) then pure (sendInteger 0)
  else
    let removed : Bool ← perform (S := dbOps F) (.removeExpire ctx.dbIndex key)
    pure (sendInteger (if removed then 1 else 0))

/-! ## Listing keys -/

def cmdKeys : Command F Bytes := do
  let pattern := (ctx.argStr 1).getD (ascii "*")
  let keys : List Bytes ← perform (S := dbOps F) (.keys ctx.dbIndex pattern)
  pure (sendStringArray keys)

structure ScanOptions where
  count : UInt64
  pattern : Option Bytes

def scanOptions : List RespExpr → ScanOptions → ScanOptions
  | [], o => o
  | a :: rest, o =>
    let opt := toUppercase (a.asStr.getD [])
    if opt = ascii "COUNT" then
      match rest with
      | [] => o
      | b :: rest => scanOptions rest { o with count := (b.asStr.bind parseU64).getD o.count }
    else if opt = ascii "MATCH" then
      match rest with
      | [] => { o with pattern := none }
      | b :: rest => scanOptions rest { o with pattern := b.asStr }
    else scanOptions rest o

def cmdScan : Command F Bytes := do
  match (ctx.argStr 1).bind parseU64 with
  | none => pure (sendErr (ascii "invalid cursor"))
  | some cursor =>
    let o := scanOptions (ctx.args.drop 2) ⟨10, none⟩
    let page : Option (List Bytes × UInt64) ←
      perform (S := dbOps F) (.scan ctx.dbIndex cursor o.count o.pattern)
    let (keys, next) ← ofOption page
    pure (sendArrayLen 2 ++ sendBulkString (u64ToString next) ++ sendStringArray keys)

def cmdRandomkey : Command F Bytes := do
  let key : Option Bytes ← perform (S := dbOps F) (.randomEntry ctx.dbIndex)
  pure (sendOptional key)

/-! ## Connection and server -/

-- The protocol version asked for is parsed and then ignored.
def cmdHello (_ctx : CommandContext) : Command F Bytes :=
  pure (sendArrayLen 14 ++
    sendBulkString (ascii "server") ++ sendBulkString (ascii "shrikedb") ++
    sendBulkString (ascii "version") ++ sendBulkString (ascii "0.1.0") ++
    sendBulkString (ascii "proto") ++ sendInteger 2 ++
    sendBulkString (ascii "id") ++ sendInteger 1 ++
    sendBulkString (ascii "mode") ++ sendBulkString (ascii "standalone") ++
    sendBulkString (ascii "role") ++ sendBulkString (ascii "master") ++
    sendBulkString (ascii "modules") ++ sendArrayLen 0)

def cmdClient : Command F Bytes :=
  let sub := toUppercase ((ctx.argStr 1).getD [])
  pure (if sub = ascii "SETNAME" then sendOk
    else if sub = ascii "GETNAME" then sendNull
    else if sub = ascii "INFO" then sendBulkString (ascii "id=1 fd=0 name= db=0\r\n")
    else if sub = ascii "ID" then sendInteger 1
    else sendOk)

def cmdConfig : Command F Bytes :=
  let sub := toUppercase ((ctx.argStr 1).getD [])
  pure (if sub = ascii "GET" then sendArrayLen 0
    else if sub = ascii "SET" then sendOk
    else if sub = ascii "RESETSTAT" then sendOk
    else sendErr (ascii "unsupported CONFIG subcommand"))

def cmdReset (_ctx : CommandContext) : Command F Bytes := do
  invoke (.select 0)
  pure (sendSimpleString (ascii "RESET"))

end ShrikeDb.GenericFamily
