import ShrikeDb.Server.Command

/-! The handlers of `string_family.rs`. -/

namespace ShrikeDb.StringFamily

open Program Command ReplyBuilder

variable {F : Type}

variable [F64 F] (ctx : CommandContext)

def cmdGet : Command F Bytes := do
  let key ← arg ctx 1
  view stringOf ctx.dbIndex key (fun v => sendBulkString v.asBytes) sendNull

/-! ## SET -/

structure SetOptions where
  nx : Bool
  xx : Bool
  get : Bool
  keepTtl : Bool
  expireMs : Option UInt64
  expireAbsolute : Bool

/-- Unit in milliseconds of an expiry option, and whether it is a point in time. -/
def expiryOption (opt : Bytes) : Option (UInt64 × Bool) :=
  if opt = ascii "EX" then some (1000, false)
  else if opt = ascii "PX" then some (1, false)
  else if opt = ascii "EXAT" then some (1000, true)
  else if opt = ascii "PXAT" then some (1, true)
  else none

/-- The options, or the error reply. -/
def setOptions : List RespExpr → SetOptions → Except Bytes SetOptions
  | [], o => .ok o
  | a :: rest, o =>
    let opt := toUppercase (a.asStr.getD [])
    if opt = ascii "NX" then setOptions rest { o with nx := true }
    else if opt = ascii "XX" then setOptions rest { o with xx := true }
    else if opt = ascii "GET" then setOptions rest { o with get := true }
    else if opt = ascii "KEEPTTL" then setOptions rest { o with keepTtl := true }
    else
      match expiryOption opt, rest with
      | some _, [] => .error notAnInteger
      | some (unit, absolute), b :: rest =>
        match b.asPositiveInt with
        | some n => setOptions rest { o with expireMs := some (n * unit), expireAbsolute :=
            absolute }
        | none => .error notAnInteger
      | none, _ => .error (sendErr (ascii "syntax error"))

variable (i : DbIndex)

variable (key : Bytes)

/-- The string a key holds, or the error reply for a value of another kind. -/
def oldString : Command F (Except Bytes (Option Bytes)) := do
  match ← find i key with
  | some r =>
    if r.value.isString then pure (.ok (some r.value.asBytes)) else pure (.error (sendWrongType []))
  | none => pure (.ok none)

/-- The deadline `KEEPTTL` carries over. -/
def keptDeadline : Command F (Option UInt64) := do
  let ttl : TtlResult ← perform (S := dbOps F) (.ttlMs i key)
  match ttl with
  | .expires ms =>
    let now ← nowMs
    pure (some (now + ms))
  | _ => pure none

/-- The old value for the `GET` option. -/
def capturedString (get : Bool) (i : DbIndex) (key : Bytes) :
    Command F (Except Bytes (Option Bytes)) :=
  if get then oldString i key else pure (.ok none)

/-- The old deadline for `KEEPTTL` on a key that is there. -/
def capturedDeadline (keep : Bool) (i : DbIndex) (key : Bytes) : Command F (Option UInt64) :=
  if keep then keptDeadline i key else pure none

/-- Give the key its deadline after the value was written. -/
def setDeadline (o : SetOptions) (oldExpire : Option UInt64) :
    Command F Unit := do
  match o.expireMs, oldExpire with
  | some ms, _ =>
    let now ← nowMs
    invoke (.addExpire i key (if o.expireAbsolute then ms else now + ms))
  | none, some deadline => invoke (.addExpire i key deadline)
  | none, none =>
    if !o.keepTtl then
      invoke (.removeExpire i key)

/-- `SET` once its options are parsed and the old value is read. -/
def setValue (key value : Bytes) (o : SetOptions) (oldValue : Option Bytes) :
    Command F Bytes := do
  let present ← existsKey i key
  if o.nx && present then pure (if o.get then sendOptional oldValue else sendNull)
  else if o.xx && !present then pure sendNull
  else
    let oldExpire ← capturedDeadline (o.keepTtl && present) i key
    invoke (.addOrUpdate i key (.fromBytes value))
    setDeadline i key o oldExpire
    pure (if o.get then sendOptional oldValue else sendOk)

def cmdSet : Command F Bytes := do
  let key ← arg ctx 1
  let value ← arg ctx 2
  match setOptions (ctx.args.drop 3) ⟨false, false, false, false, none, false⟩ with
  | .error reply => pure reply
  | .ok o =>
    if o.nx && o.xx then
      pure (sendErr (ascii "XX and NX options at the same time are not compatible"))
    else
      match ← capturedString o.get ctx.dbIndex key with
      | .error reply => pure reply
      | .ok oldValue => setValue ctx.dbIndex key value o oldValue

def cmdSetnx : Command F Bytes := do
  let key ← arg ctx 1
  let value ← arg ctx 2
  let added : Bool ← perform (S := dbOps F) (.addIfAbsent ctx.dbIndex key (.fromBytes value))
  pure (sendInteger (if added then 1 else 0))

/-- `SETEX` and `PSETEX`, which differ in the unit. -/
def setWithExpiry (unit : UInt64) : Command F Bytes := do
  let key ← arg ctx 1
  match ctx.argInt 2 with
  | none => pure notAnInteger
  | some n =>
    if 0 < n then
      let value ← arg ctx 3
      invoke (.addOrUpdate ctx.dbIndex key (.fromBytes value))
      let now ← nowMs
      invoke (.addExpire ctx.dbIndex key (now + n.toUInt64 * unit))
      pure sendOk
    else pure notAnInteger

def cmdSetex : Command F Bytes := setWithExpiry ctx 1000

def cmdPsetex : Command F Bytes := setWithExpiry ctx 1

/-! ## Several keys -/

def mgetOne : Command F Bytes := do
  match ← find i key with
  | some r => if r.value.isString then pure (sendBulkString r.value.asBytes) else pure sendNull
  | none => pure sendNull

def cmdMget : Command F Bytes := do
  let keys ← args ctx 1
  let items ← forEach (mgetOne ctx.dbIndex) keys
  pure (sendArrayLen keys.length ++ items.flatten)

def msetOne (pair : Bytes × Bytes) : Command F Unit := do
  invoke (.addOrUpdate i pair.1 (.fromBytes pair.2))
  invoke (.removeExpire i pair.1)

def cmdMset : Command F Bytes := do
  if (ctx.args.length - 1) % 2 ≠ 0 then
    pure (sendErr (ascii "wrong number of arguments for 'mset' command"))
  else
    let pairs := pairUp (← args ctx 1)
    let _ ← forEach (msetOne ctx.dbIndex) pairs
    pure sendOk

/-- Whether one of the keys is there; stops at the first. -/
def anyExists (i : DbIndex) : List Bytes → Command F Bool
  | [] => pure false
  | key :: rest => do
    if ← existsKey i key then pure true else anyExists i rest

def cmdMsetnx : Command F Bytes := do
  if (ctx.args.length - 1) % 2 ≠ 0 then
    pure (sendErr (ascii "wrong number of arguments for 'msetnx' command"))
  else
    let pairs := pairUp (← args ctx 1)
    if ← anyExists ctx.dbIndex (pairs.map Prod.fst) then pure (sendInteger 0)
    else
      let _ ← forEach (fun pair : Bytes × Bytes =>
        invoke (.addOrUpdate ctx.dbIndex pair.1 (.fromBytes pair.2))) pairs
      pure (sendInteger 1)

/-! ## Read and write -/

def cmdGetset : Command F Bytes := do
  let key ← arg ctx 1
  let value ← arg ctx 2
  match ← oldString ctx.dbIndex key with
  | .error reply => pure reply
  | .ok old =>
    invoke (.addOrUpdate ctx.dbIndex key (.fromBytes value))
    invoke (.removeExpire ctx.dbIndex key)
    pure (sendOptional old)

def cmdGetdel : Command F Bytes := do
  let key ← arg ctx 1
  match ← oldString ctx.dbIndex key with
  | .error reply => pure reply
  | .ok (some v) =>
    invoke (.del ctx.dbIndex key)
    pure (sendBulkString v)
  | .ok none => pure sendNull

/-- The option of `GETEX`: the error reply, or what to do to the deadline. -/
def getexOption (now : UInt64) : Except Bytes (Option UInt64) :=
  let opt := toUppercase ((ctx.argStr 2).getD [])
  match expiryOption opt with
  | some (unit, absolute) =>
    match ctx.argPositiveInt 3 with
    | some n => .ok (some (if absolute then n * unit else now + n * unit))
    | none => .error notAnInteger
  | none => if opt = ascii "PERSIST" then .ok none else .error (sendErr (ascii "syntax error"))

def cmdGetex : Command F Bytes := do
  let key ← arg ctx 1
  match ← oldString ctx.dbIndex key with
  | .error reply => pure reply
  | .ok none => pure sendNull
  | .ok (some v) =>
    if ctx.args.length > 2 then
      let now ← nowMs
      match getexOption ctx now with
      | .error reply => pure reply
      | .ok (some deadline) =>
        invoke (.addExpire ctx.dbIndex key deadline)
        pure (sendBulkString v)
      | .ok none =>
        invoke (.removeExpire ctx.dbIndex key)
        pure (sendBulkString v)
    else pure (sendBulkString v)

/-! ## Counters -/

def checkedAdd (a b : Int64) : Option Int64 :=
  let z := a.toInt + b.toInt
  if -2 ^ 63 ≤ z ∧ z < 2 ^ 63 then some (Int64.ofInt z) else none

def incrBy (delta : Int64) : Command F Bytes := do
  let key ← arg ctx 1
  let current : Option Int64 :=
    match ← find ctx.dbIndex key with
    | some r => r.value.asInteger
    | none => some 0
  match current with
  | none => pure notAnInteger
  | some current =>
    match checkedAdd current delta with
    | none => pure (sendErr (ascii "increment or decrement would overflow"))
    | some new =>
      invoke (.addOrUpdate ctx.dbIndex key (.integer new))
      pure (sendInteger new)

def cmdIncr : Command F Bytes := incrBy ctx 1

def cmdDecr : Command F Bytes := incrBy ctx (-1)

def cmdIncrby : Command F Bytes :=
  match ctx.argInt 2 with
  | some delta => incrBy ctx delta
  | none => pure notAnInteger

-- The negation wraps in the release build: `-i64::MIN` is `i64::MIN`.
def cmdDecrby : Command F Bytes :=
  match ctx.argInt 2 with
  | some delta => incrBy ctx (-delta)
  | none => pure notAnInteger

section Floats

def f64Eq (a b : F) : Bool := F64.partialCmp a b = some .eq

def trimEndMatches (b : UInt8) (s : Bytes) : Bytes := (s.reverse.dropWhile (· = b)).reverse

def formatFloat (f : F) : Bytes :=
  let i := F64.toI64 f
  if f64Eq (F64.ofI64 i) f then i64ToString i
  else trimEndMatches 46 (trimEndMatches 48 (F64.displayFixed f))

def cmdIncrbyfloat : Command F Bytes := do
  let key ← arg ctx 1
  let delta : Option F := F64.parse (Utf8.trim ((ctx.argStr 2).getD []))
  match delta.filter F64.isFinite with
  | none => pure notAFloat
  | some delta =>
    let current : Option F :=
      match ← find ctx.dbIndex key with
      | some r => r.value.asFloat
      | none => some F64.zero
    match current with
    | none => pure notAFloat
    | some current =>
      let new := F64.add current delta
      if !F64.isFinite new then
        pure (sendErr (ascii "increment would produce NaN or Infinity"))
      else
        let s := formatFloat new
        invoke (.addOrUpdate ctx.dbIndex key (.string s))
        pure (sendBulkString s)

end Floats

/-! ## Parts of a string -/

-- No allocation has more than `isize::MAX` bytes, here and in `SETRANGE`: asking for more panics,
-- and leaves what was turned into a string before.
def cmdAppend : Command F Bytes := do
  let key ← arg ctx 1
  let data ← arg ctx 2
  tryEdit stringOf ctx.dbIndex key
    (fun v =>
      let s := v.asBytes ++ data
      if 2 ^ 63 ≤ s.length then .error (.string v.asBytes)
      else .ok (.put (.string s) false (sendInteger (Int64.ofNat s.length))))
    (create ctx.dbIndex key (.string data) (sendInteger (Int64.ofNat data.length)))

def cmdStrlen : Command F Bytes := do
  let key ← arg ctx 1
  view stringOf ctx.dbIndex key (fun v => sendInteger (Int64.ofNat v.strlen)) (sendInteger 0)

def getRange (data : Bytes) (start stop : Int64) : Bytes :=
  let len := Int64.ofNat data.length
  let s := (if start < 0 then max (len + start) 0 else min start len).toUInt64.toNat
  let e := (if stop < 0 then max (len + stop) 0 else max (min stop (len - 1)) 0).toUInt64.toNat
  if e < s ∨ data.length ≤ s then [] else (data.drop s).take (e - s + 1)

def cmdGetrange : Command F Bytes := do
  let key ← arg ctx 1
  match ctx.argInt 2, ctx.argInt 3 with
  | some start, some stop =>
    view stringOf ctx.dbIndex key (fun v => sendBulkString (getRange v.asBytes start stop))
      (sendBulkString [])
  | _, _ => pure notAnInteger

/-- Resize to hold `value` at `offset`, and copy it there. -/
def setRange (s : Bytes) (offset : Nat) (value : Bytes) : Bytes :=
  let s := s ++ List.replicate (offset + value.length - s.length) 0
  s.take offset ++ value ++ s.drop (offset + value.length)

def cmdSetrange : Command F Bytes := do
  let key ← arg ctx 1
  match (ctx.argInt 2).filter fun n => 0 ≤ n with
  | none => pure (sendErr (ascii "offset is out of range"))
  | some n =>
    let offset := n.toInt.toNat
    let value ← arg ctx 3
    let needed := offset + value.length
    match ← findMut ctx.dbIndex key with
    | some r =>
      if !r.value.isString then pure (sendWrongType [])
      else
        invoke (.store ctx.dbIndex key r.value.ensureString)
        let s := r.value.asBytes
        if s.length < needed ∧ 2 ^ 63 ≤ needed then Program.panic
        else
          let s := setRange s offset value
          invoke (.store ctx.dbIndex key (.string s))
          pure (sendInteger (Int64.ofNat s.length))
    | none =>
      if 2 ^ 63 ≤ needed then Program.panic
      else
        let s := setRange [] offset value
        create ctx.dbIndex key (.string s) (sendInteger (Int64.ofNat s.length))

end ShrikeDb.StringFamily
