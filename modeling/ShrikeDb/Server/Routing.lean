import ShrikeDb.Lib.Grouping
import ShrikeDb.Server.Registry

/-! Which shard owns a key (`sharding.rs`), and what the two dispatchers make of a
command line: the one that runs next to the connections on a shard (`shard_thread.rs`)
and `MainService` (`main_service.rs`). A dispatcher answers at once, runs the command
on one shard, or splits it into one command per shard and merges the replies. -/

namespace ShrikeDb

open ReplyBuilder

/-! ## Sharding -/

namespace Sharding

/-- What is hashed of a key: the first non-empty text in braces, or all of it. -/
def hashTag (key : Bytes) : Bytes :=
  match key.dropWhile (· ≠ 123) with
  | [] => key
  | _ :: rest =>
    match rest.findIdx? (· = 125) with
    | some stop => if 0 < stop then rest.take stop else key
    | none => key

def crc32Bit (crc : UInt32) : UInt32 :=
  if crc &&& 1 ≠ 0 then (crc >>> 1) ^^^ 0xEDB88320 else crc >>> 1

def crc32 (data : Bytes) : UInt32 :=
  data.foldl (fun crc byte => crc32Bit^[8] (crc ^^^ byte.toUInt32)) 0xFFFFFFFF ^^^ 0xFFFFFFFF

def shard (key : Bytes) (numShards : Nat) [NeZero numShards] : Fin numShards :=
  Fin.ofNat numShards (crc32 (hashTag key)).toNat

example : hashTag (ascii "\x7buser\x7d:1") = ascii "user" := by decide

example : crc32 (ascii "123456789") = 0xCBF43926 := by decide +kernel

end Sharding

open Sharding

/-! ## Plans -/

/-- A command for one shard; `positions` is where the answers of an `MGET` belong. -/
structure Sub (n : Nat) where
  target : Fin n
  args : List RespExpr
  positions : List Nat := []

/-- How the replies of the parts of a command are put together. -/
inductive Merge (n : Nat)
  | sum
  | mget (numKeys : Nat)
  | ok
  | keys
  /-- Only the reply of one shard. -/
  | only (target : Fin n)

inductive Plan (n : Nat)
  | reply (data : Bytes) (keepAlive : Bool)
  | select (i : DbIndex)
  | save (background : Bool)
  | run (target : Fin n) (args : List RespExpr)
  | fan (subs : List (Sub n)) (merge : Merge n)

/-- The commands a plan runs on shards. -/
def Plan.commands {n : Nat} : Plan n → List (Sub n)
  | .run target args => [⟨target, args, []⟩]
  | .fan subs _ => subs
  | _ => []

/-- The bytes of an argument, empty if it is no bulk string. -/
def RespExpr.bytes (e : RespExpr) : Bytes := e.asBytes.getD []

def keyAt (args : List RespExpr) (i : Nat) : Bytes := (args[i]?.map RespExpr.bytes).getD []

section Merging

def addReply (total : Int64) : Option Bytes → Int64
  | some data => total + (parseRespInteger data).getD 0
  | none => total

def sumReplies (replies : List (Option Bytes)) : Int64 := replies.foldl addReply 0

/-- Write the values of a reply to their positions. -/
def placeValues (results : List (Option Bytes)) : List Nat × Option Bytes → List (Option Bytes)
  | (positions, some data) =>
    (positions.zip (parseRespArray data)).foldl (fun r w => r.set w.1 w.2) results
  | (_, none) => results

def mgetResults (numKeys : Nat) (parts : List (List Nat × Option Bytes)) : List (Option Bytes) :=
  parts.foldl placeValues (List.replicate numKeys none)

def replyKeys : Option Bytes → List Bytes
  | some data => (parseRespArray data).filterMap id
  | none => []

def allKeys (replies : List (Option Bytes)) : List Bytes := replies.flatMap replyKeys

/-- The merged reply, from the parts with their replies in the order they are awaited;
a part that failed has no reply. -/
def Merge.apply {n : Nat} (parts : List (Sub n × Option Bytes)) : Merge n → Bytes
  | .sum => sendInteger (sumReplies (parts.map Prod.snd))
  | .mget numKeys =>
    sendArrayLen numKeys ++
      (mgetResults numKeys (parts.map fun p => (p.1.positions, p.2))).flatMap sendOptional
  | .ok => sendOk
  | .keys => sendStringArray (allKeys (parts.map Prod.snd))
  | .only target => ((parts.find? fun p => p.1.target = target).bind Prod.snd).getD []

end Merging

/-! ## Splitting a command -/

section Split

variable (n : Nat) [NeZero n]

/-- `DEL`, `UNLINK` and `EXISTS`. -/
def splitKeys (args : List RespExpr) : List (Sub n) :=
  (Grouping.group (fun e : RespExpr => shard e.bytes n) (args.drop 1)).map fun g =>
    { target := g.1, args := args.take 1 ++ g.2 }

def splitMget (args : List RespExpr) : List (Sub n) :=
  (Grouping.group (fun e : RespExpr × Nat => shard e.1.bytes n) (args.drop 1).zipIdx).map fun g =>
    { target := g.1
      args := .string (ascii "MGET") :: g.2.map Prod.fst
      positions := g.2.map Prod.snd }

def splitMset (args : List RespExpr) : List (Sub n) :=
  (Grouping.group (fun p : RespExpr × RespExpr => shard p.1.bytes n)
    (Command.pairUp (args.drop 1))).map fun g =>
    { target := g.1, args := .string (ascii "MSET") :: g.2.flatMap fun p => [p.1, p.2] }

variable {n}

/-- The shard all keys of an `MSETNX` are on; `none` if they are on several, and
`some none` if there are no keys. -/
def commonShard : Option (Fin n) → List (Fin n) → Option (Option (Fin n))
  | target, [] => some target
  | none, sid :: rest => commonShard (some sid) rest
  | some s, sid :: rest => if s ≠ sid then none else commonShard (some s) rest

def crossSlot : Bytes := sendErr (ascii "CROSSSLOT Keys in request don't hash to the same slot")

end Split

/-! ## The two dispatchers -/

section Dispatchers

variable {n : Nat} [NeZero n] {F : Type} [F64 F] [HashOrder] [CaseTable]

open CommandRegistry

def msetnxTarget (args : List RespExpr) : Option (Option (Fin n)) :=
  commonShard none ((Command.pairUp (args.drop 1)).map fun p => shard p.1.bytes n)

def routeRename (args : List RespExpr) : Plan n :=
  if shard (keyAt args 1) n ≠ shard (keyAt args 2) n then .reply crossSlot true
  else .run (shard (keyAt args 1) n) args

namespace ShardThread

def handleSelect (args : List RespExpr) : Plan n :=
  if args.length ≠
  2 then .reply (sendErr (ascii "wrong number of arguments for 'select' command")) true
  else
    match ((args[1]?.bind RespExpr.asStr).bind Decimal.parseNat).bind fun k =>
        GenericFamily.dbIndexOf k with
    | some i => .select i
    | none => .reply (sendErr (ascii "DB index is out of range")) true

-- Without keys nothing is appended to the reply; the arity rules this out.
def dispatchMset (cmd : Bytes) (args : List RespExpr) : Plan n :=
  if (args.length - 1) % 2 ≠ 0 then .reply (wrongNumber cmd) true
  else if cmd = ascii "MSETNX" then
    match msetnxTarget args with
    | none => .reply crossSlot true
    | some none => .reply [] true
    | some (some sid) => .run sid args
  else .fan (splitMset n args) .ok

/-- The other shards are sent the command as well, also for `SCAN`, whose reply is
that of the shard the connection is on. -/
def dispatchGlobal (home : Fin n) (cmd : Bytes) (args : List RespExpr) : Plan n :=
  if n = 1 then .run home args
  else
    .fan (({ target := home, args := args } : Sub n) ::
        ((List.finRange n).filter (· ≠ home)).map fun sid => { target := sid, args := args })
      (if cmd = ascii "DBSIZE" then .sum
        else if cmd = ascii "FLUSHDB" ∨ cmd = ascii "FLUSHALL" then .ok
        else if cmd = ascii "KEYS" then .keys
        else .only home)

def route (home : Fin n) (cmd : Bytes) (firstKey : Nat) (args : List RespExpr) : Plan n :=
  match classifyCommand cmd firstKey with
  | .noKeys => .run home args
  | .singleKey => .run (shard (keyAt args firstKey) n) args
  | .multiKeySameHandler => .fan (splitKeys n args) .sum
  | .mGet => .fan (splitMget n args) (.mget (args.length - 1))
  | .mSet => dispatchMset cmd args
  | .rename => routeRename args
  | .global => dispatchGlobal home cmd args

variable (F)

def dispatchCommand (home : Fin n) (args : List RespExpr) : Plan n :=
  match commandName args with
  | .error reply => .reply reply true
  | .ok cmd =>
    if cmd = ascii "QUIT" then .reply sendOk false
    else if cmd = ascii "SELECT" then handleSelect args
    else if cmd = ascii "SAVE" ∨ cmd = ascii "BGSAVE" then
      .reply (sendErr (ascii "SAVE/BGSAVE must be issued via the control interface")) true
    else
      match find (F := F) cmd with
      | none => .reply (unknownCommand cmd) true
      | some entry =>
        if arityOk entry.arity args.length then route home cmd entry.firstKey args
        else .reply (wrongNumber cmd) true

end ShardThread

namespace MainService

def dispatchMset (cmd : Bytes) (args : List RespExpr) : Plan n :=
  if (args.length - 1) % 2 ≠ 0 then .reply (wrongNumber cmd) true
  else if cmd = ascii "MSETNX" then
    match msetnxTarget args with
    | some (some sid) => .run sid args
    | _ => .reply crossSlot true
  else .fan (splitMset n args) .ok

def dispatchGlobal (cmd : Bytes) (args : List RespExpr) : Plan n :=
  let everywhere : List (Sub n) := (List.finRange n).map fun sid => { target := sid, args := args }
  if cmd = ascii "DBSIZE" then .fan everywhere .sum
  else if cmd = ascii "FLUSHDB" ∨ cmd = ascii "FLUSHALL" then .fan everywhere .ok
  else if cmd = ascii "KEYS" then .fan everywhere .keys
  else .run 0 args

def route (cmd : Bytes) (firstKey : Nat) (args : List RespExpr) : Plan n :=
  match classifyCommand cmd firstKey with
  | .noKeys => .run 0 args
  | .singleKey => .run (shard (keyAt args firstKey) n) args
  | .multiKeySameHandler => .fan (splitKeys n args) .sum
  | .mGet => .fan (splitMget n args) (.mget (args.length - 1))
  | .mSet => dispatchMset cmd args
  | .rename => routeRename args
  | .global => dispatchGlobal cmd args

variable (F)

def dispatch (args : List RespExpr) : Plan n :=
  match commandName args with
  | .error reply => .reply reply true
  | .ok cmd =>
    if cmd = ascii "QUIT" then .reply sendOk false
    else if cmd = ascii "SAVE" then .save false
    else if cmd = ascii "BGSAVE" then .save true
    else
      match find (F := F) cmd with
      | none => .reply (unknownCommand cmd) true
      | some entry =>
        if arityOk entry.arity args.length then route cmd entry.firstKey args
        else .reply (wrongNumber cmd) true

end MainService

end Dispatchers

end ShrikeDb
