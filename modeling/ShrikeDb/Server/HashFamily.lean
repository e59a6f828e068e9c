import ShrikeDb.Server.Command

/-! The handlers of `hash_family.rs`. -/

namespace ShrikeDb.HashFamily

open Program Command ReplyBuilder

variable {F : Type}

abbrev Fields := Finmap fun _ : Bytes => Bytes

/-- Insert the pairs one by one, counting the new fields. -/
def insertAll (pairs : List (Bytes × Bytes)) (fields : Fields) : Fields × Int64 :=
  pairs.foldl (fun (fields, added) (f, v) =>
    (fields.insert f v, if (fields.lookup f).isNone then added + 1 else added)) (fields, 0)

def removeAll (names : List Bytes) (fields : Fields) : Fields × Int64 :=
  names.foldl (fun (fields, removed) f =>
    (fields.erase f, if (fields.lookup f).isSome then removed + 1 else removed)) (fields, 0)

/-- `HSET` and `HMSET`: they differ in the error text and in the reply. -/
def setFields (name : Bytes) (reply : Int64 → Bytes) (ctx : CommandContext) : Command F Bytes := do
  let key ← arg ctx 1
  if (ctx.args.length - 2) % 2 ≠ 0 then
    pure (sendErr (ascii "wrong number of arguments for '" ++ name ++ ascii "' command"))
  else
    let pairs := pairUp (← args ctx 2)
    edit hashOf ctx.dbIndex key
      (fun fields =>
        let (fields, added) := insertAll pairs fields
        .put (.hash fields) false (reply added))
      (let (fields, added) := insertAll pairs ∅
       create ctx.dbIndex key (.hash fields) (reply added))

variable [F64 F] [HashOrder] (ctx : CommandContext)

def cmdHset : Command F Bytes := setFields (ascii "hset") sendInteger ctx

def cmdHmset : Command F Bytes := setFields (ascii "hmset") (fun _ => sendOk) ctx

def cmdHget : Command F Bytes := do
  let key ← arg ctx 1
  let field ← arg ctx 2
  view hashOf ctx.dbIndex key (fun fields => sendOptional (fields.lookup field)) sendNull

def cmdHdel : Command F Bytes := do
  let key ← arg ctx 1
  let names ← args ctx 2
  edit hashOf ctx.dbIndex key
    (fun fields =>
      let (fields, removed) := removeAll names fields
      .put (.hash fields) (fields.keys = ∅) (sendInteger removed))
    (pure (sendInteger 0))

def cmdHexists : Command F Bytes := do
  let key ← arg ctx 1
  let field ← arg ctx 2
  view hashOf ctx.dbIndex key
    (fun fields => sendInteger (if (fields.lookup field).isSome then 1 else 0)) (sendInteger 0)

def cmdHlen : Command F Bytes := do
  let key ← arg ctx 1
  view hashOf ctx.dbIndex key (fun fields => sendInteger (Int64.ofNat fields.keys.card))
    (sendInteger 0)

def cmdHmget : Command F Bytes := do
  let key ← arg ctx 1
  let names ← args ctx 2
  let answer (fields : Fields) :=
    sendArrayLen names.length ++ names.flatMap fun f => sendOptional (fields.lookup f)
  view hashOf ctx.dbIndex key answer (answer ∅)

-- The sum wraps in the release build.
def cmdHincrby : Command F Bytes := do
  let key ← arg ctx 1
  let field ← arg ctx 2
  match (ctx.argStr 3).bind parseI64 with
  | none => pure notAnInteger
  | some delta =>
    edit hashOf ctx.dbIndex key
      (fun fields =>
        let current := (((fields.lookup field).bind fromUtf8).bind parseI64).getD 0
        let new := current + delta
        .put (.hash (fields.insert field (i64ToString new))) false (sendInteger new))
      (create ctx.dbIndex key (.hash (Finmap.insert field (i64ToString delta) ∅))
        (sendInteger delta))

def cmdHincrbyfloat : Command F Bytes := do
  let key ← arg ctx 1
  let field ← arg ctx 2
  let delta : Option F := (ctx.argStr 3).bind F64.parse
  match delta.filter F64.isFinite with
  | none => pure notAFloat
  | some delta =>
    edit hashOf ctx.dbIndex key
      (fun fields =>
        let current : F := (((fields.lookup field).bind fromUtf8).bind F64.parse).getD F64.zero
        let s := F64.display (F64.add current delta)
        .put (.hash (fields.insert field s)) false (sendBulkString s))
      (let s := F64.display delta
       create ctx.dbIndex key (.hash (Finmap.insert field s ∅)) (sendBulkString s))

def cmdHsetnx : Command F Bytes := do
  let key ← arg ctx 1
  let field ← arg ctx 2
  let value ← arg ctx 3
  edit hashOf ctx.dbIndex key
    (fun fields =>
      if (fields.lookup field).isSome then .keep (sendInteger 0)
      else .put (.hash (fields.insert field value)) false (sendInteger 1))
    (create ctx.dbIndex key (.hash (Finmap.insert field value ∅)) (sendInteger 1))

section Ordered

/-- The pairs of a map in iteration order. -/
def fieldsOf (fields : Fields) : List (Bytes × Bytes) :=
  (HashOrder.order.list fields.keys).filterMap fun f => (fields.lookup f).map fun v => (f, v)

def cmdHgetall : Command F Bytes := do
  let key ← arg ctx 1
  view hashOf ctx.dbIndex key
    (fun fields => sendArrayLen (fields.keys.card * 2) ++
      (fieldsOf fields).flatMap fun (f, v) => sendBulkString f ++ sendBulkString v)
    (sendArrayLen 0)

def cmdHkeys : Command F Bytes := do
  let key ← arg ctx 1
  view hashOf ctx.dbIndex key
    (fun fields => sendArrayLen fields.keys.card ++
      (fieldsOf fields).flatMap fun (f, _) => sendBulkString f)
    (sendArrayLen 0)

def cmdHvals : Command F Bytes := do
  let key ← arg ctx 1
  view hashOf ctx.dbIndex key
    (fun fields => sendArrayLen fields.keys.card ++
      (fieldsOf fields).flatMap fun (_, v) => sendBulkString v)
    (sendArrayLen 0)

end Ordered

end ShrikeDb.HashFamily
