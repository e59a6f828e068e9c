import ShrikeDb.Dash.Removal
import ShrikeDb.Lib.Layers
import ShrikeDb.Server.Command

/-! The databases on the tables they are stored in (`db_table.rs`, `db_slice.rs`). Every
operation of `DbSlice` is a program over calls to the two tables of a database. Two
machines answer the calls: one on dash tables, as in the source, where a call may panic,
and one on finite maps. -/

namespace ShrikeDb

open Dash Program

/-- `PrimeTable` and `ExpireTable`. -/
inductive TableKind
  | prime
  | expire

@[reducible] def TableKind.Value (F : Type) : TableKind → Type
  | .prime => PrimeValue F
  | .expire => UInt64

/-- What the operations of `DbSlice` call. `write` stores through a reference of `find_mut`. -/
inductive StoreOp (F : Type)
  | find (kind : TableKind) (i : DbIndex) (key : Bytes)
  | write (kind : TableKind) (i : DbIndex) (key : Bytes) (value : kind.Value F)
  | insert (kind : TableKind) (i : DbIndex) (key : Bytes) (value : kind.Value F)
  | remove (kind : TableKind) (i : DbIndex) (key : Bytes)
  | len (kind : TableKind) (i : DbIndex)
  | iter (kind : TableKind) (i : DbIndex)
  | scan (kind : TableKind) (i : DbIndex) (cursor count : UInt64)
  | clear (kind : TableKind) (i : DbIndex)
  | nowMs
  | updateTime (now : UInt64)
  | select (i : DbIndex)

namespace StoreOp

variable {F : Type}

def Result : StoreOp F → Type
  | .find kind _ _ | .insert kind _ _ _ | .remove kind _ _ => Option (kind.Value F)
  | .len _ _ => Nat
  | .iter kind _ => List (Bytes × kind.Value F)
  | .scan kind _ _ _ => Option (List (Bytes × kind.Value F) × UInt64)
  | .nowMs => UInt64
  | .write _ _ _ _ | .clear _ _ | .updateTime _ | .select _ => Unit

/-- The calls whose answer depends on the order a table is iterated in. -/
def iterates : StoreOp F → Bool
  | .iter _ _ | .scan _ _ _ _ => true
  | _ => false

end StoreOp

def storeOps (F : Type) : Interface := ⟨StoreOp F, StoreOp.Result⟩

abbrev Stored (F α : Type) := Program (storeOps F) α

/-! ## The operations of `DbSlice` -/

namespace Stored

variable {F : Type}

section Calls

variable (kind : TableKind) (i : DbIndex)

def lookup (key : Bytes) :
    Stored F (Option (kind.Value F)) := perform (S := storeOps F) (.find kind i key)

def insert (key : Bytes) (value : kind.Value F) : Stored F (Option (kind.Value F)) :=
  perform (S := storeOps F) (.insert kind i key value)

def remove (key : Bytes) :
    Stored F (Option (kind.Value F)) := perform (S := storeOps F) (.remove kind i key)

def iter : Stored F (List (Bytes × kind.Value F)) := perform (S := storeOps F) (.iter kind i)

def page (cursor count : UInt64) : Stored F (Option (List (Bytes × kind.Value F) × UInt64)) :=
  perform (S := storeOps F) (.scan kind i cursor count)

end Calls

def nowMs : Stored F UInt64 := perform (S := storeOps F) .nowMs

/-- Remove a key from both tables. -/
def forget (i : DbIndex) (key : Bytes) : Stored F Unit := do
  let _ ← remove .prime i key
  let _ ← remove .expire i key

def checkAndExpire (i : DbIndex) (key : Bytes) (now : UInt64) : Stored F Bool := do
  match ← lookup .expire i key with
  | some deadline =>
    if deadline ≤ now then
      forget i key
      pure true
    else pure false
  | none => pure false

def find (i : DbIndex) (key : Bytes) : Stored F (Option (FindResult F)) := do
  if ← checkAndExpire i key (← nowMs) then pure none
  else
    match ← lookup .prime i key with
    | some value =>
      let deadline ← lookup .expire i key
      pure (some ⟨value, deadline.isSome⟩)
    | none => pure none

def findMut (i : DbIndex) (key : Bytes) : Stored F (Option (FindResult F)) := do
  if ← checkAndExpire i key (← nowMs) then pure none
  else
    let deadline ← lookup .expire i key
    let value ← lookup .prime i key
    pure (value.map fun value => ⟨value, deadline.isSome⟩)

def addOrUpdate (i : DbIndex) (key : Bytes) (value : PrimeValue F) : Stored F Bool := do
  let old ← insert .prime i key value
  pure old.isNone

def addIfAbsent (i : DbIndex) (key : Bytes) (value : PrimeValue F) : Stored F Bool := do
  if ← checkAndExpire i key (← nowMs) then
    let _ ← insert .prime i key value
    pure true
  else if (← lookup .prime i key).isSome then pure false
  else
    let _ ← insert .prime i key value
    pure true

def del (i : DbIndex) (key : Bytes) : Stored F Bool := do
  let _ ← remove .expire i key
  let old ← remove .prime i key
  pure old.isSome

def addExpire (i : DbIndex) (key : Bytes) (deadlineMs : UInt64) : Stored F Unit := do
  if (← lookup .prime i key).isSome then
    let _ ← insert .expire i key deadlineMs
    pure ()
  else pure ()

def removeExpire (i : DbIndex) (key : Bytes) : Stored F Bool := do
  let old ← remove .expire i key
  pure old.isSome

def ttlMs (i : DbIndex) (key : Bytes) : Stored F TtlResult := do
  if (← lookup .prime i key).isNone then pure .keyNotFound
  else
    match ← lookup .expire i key with
    | some deadline =>
      let now ← nowMs
      if deadline ≤ now then
        forget i key
        pure .keyNotFound
      else pure (.expires (deadline - now))
    | none => pure .noExpiry

def rename (i : DbIndex) (source dest : Bytes) : Stored F Bool := do
  let expire ← remove .expire i source
  match ← remove .prime i source with
  | some value =>
    let _ ← remove .expire i dest
    let _ ← insert .prime i dest value
    match expire with
    | some deadline =>
      let _ ← insert .expire i dest deadline
      pure true
    | none => pure true
  | none => pure false

/-- The keys a pattern selects from a page. -/
def selected (pattern : Option Bytes) (keys : List Bytes) : List Bytes :=
  match pattern with
  | some pattern => keys.filter (globMatch pattern)
  | none => keys

def scan (i : DbIndex) (cursor count : UInt64) (pattern : Option Bytes) :
    Stored F (Option (List Bytes × UInt64)) := do
  let found ← page .prime i cursor count
  pure (found.map fun (entries, next) => (selected pattern (entries.map Prod.fst), next))

/-- Whether a key has lapsed; nothing is removed. -/
def lapsed (i : DbIndex) (now : UInt64) (key : Bytes) : Stored F Bool := do
  match ← lookup .expire i key with
  | some deadline => pure (deadline ≤ now)
  | none => pure false

def keys (i : DbIndex) (pattern : Bytes) : Stored F (List Bytes) := do
  let now ← nowMs
  let entries ← iter .prime i
  let verdicts ← forEach (fun e => lapsed i now e.1) entries
  let judged := (entries.map Prod.fst).zip verdicts
  let _ ← forEach (fun e => forget i e.1) (judged.filter Prod.snd)
  pure (((judged.filter fun e => !e.2).map Prod.fst).filter (globMatch pattern))

def flushDb (i : DbIndex) : Stored F Unit := do
  invoke (.clear .prime i)
  invoke (.clear .expire i)

def randomEntry (i : DbIndex) : Stored F (Option Bytes) := do
  let entries ← iter .prime i
  pure (entries.head?.map Prod.fst)

/-- A page that would end before it starts is a panic of the slice. -/
def expireSweep (i : DbIndex) (count : UInt64) : Stored F Nat := do
  let now ← nowMs
  let (entries, _) ← ofOption (← page .expire i 0 count)
  let expired := entries.filter fun e => e.2 ≤ now
  let _ ← forEach (fun e => forget i e.1) expired
  pure expired.length

end Stored

/-- What an operation calls. -/
def DbOp.program {F : Type} : (o : DbOp F) → Stored F o.Result
  | .nowMs => Stored.nowMs
  | .dbSize i => perform (S := storeOps F) (.len .prime i)
  | .find i key => Stored.find i key
  | .findMut i key => Stored.findMut i key
  | .store i key value => invoke (.write .prime i key value)
  | .addOrUpdate i key value => Stored.addOrUpdate i key value
  | .addIfAbsent i key value => Stored.addIfAbsent i key value
  | .del i key => Stored.del i key
  | .addExpire i key deadlineMs => Stored.addExpire i key deadlineMs
  | .removeExpire i key => Stored.removeExpire i key
  | .ttlMs i key => Stored.ttlMs i key
  | .rename i source dest => Stored.rename i source dest
  | .scan i cursor count pattern => Stored.scan i cursor count pattern
  | .keys i pattern => Stored.keys i pattern
  | .flushDb i => Stored.flushDb i
  | .randomEntry i => Stored.randomEntry i
  | .select i => invoke (.select i)

/-! ## Finite maps -/

namespace DbTable

variable {F : Type}

def table (db : DbTable F) : (kind : TableKind) → Finmap fun _ : Bytes => kind.Value F
  | .prime => db.prime
  | .expire => db.expire

def setTable (db : DbTable F) :
    (kind : TableKind) → (Finmap fun _ : Bytes => kind.Value F) → DbTable F
  | .prime, m => { db with prime := m }
  | .expire, m => { db with expire := m }

end DbTable

namespace Exec

variable {F : Type}

def table (x : Exec F) (i : DbIndex) (kind : TableKind) : Finmap fun _ : Bytes => kind.Value F :=
  (x.slice.dbs i).table kind

def setTable (x : Exec F) (i : DbIndex) (kind : TableKind)
    (m : Finmap fun _ : Bytes => kind.Value F) : Exec F :=
  { x with slice := x.slice.setDb i ((x.slice.dbs i).setTable kind m) }

end Exec

/-- The entries of a map in the order `ω`. -/
def entriesOf {V : Type} (ω : Listing Bytes) (m : Finmap fun _ : Bytes => V) : List (Bytes × V) :=
  (ω.list m.keys).filterMap fun key => (m.lookup key).map fun value => (key, value)

/-- `scan` of a table, on what it iterates over. -/
def pageOf {α : Type} (entries : List α) (cursor count : UInt64) : Option (List α × UInt64) :=
  if entries.length ≤ cursor.toNat then some ([], 0)
  else
    let stop := min (cursor + count).toNat entries.length
    if stop < cursor.toNat then none
    else
      some ((entries.drop cursor.toNat).take (stop - cursor.toNat),
        if entries.length ≤ stop then 0 else UInt64.ofNat stop)

/-- The calls on finite maps. -/
def StoreOp.apply {F : Type} (ω : Listing Bytes) : (o : StoreOp F) → Exec F → o.Result × Exec F
  | .find kind i key, x => ((x.table i kind).lookup key, x)
  | .write kind i key value, x =>
    ((), x.setTable i kind (DashTable.adjust (x.table i kind) key fun _ => value))
  | .insert kind i key value, x =>
    ((x.table i kind).lookup key, x.setTable i kind ((x.table i kind).insert key value))
  | .remove kind i key, x =>
    ((x.table i kind).lookup key, x.setTable i kind ((x.table i kind).erase key))
  | .len kind i, x => ((x.table i kind).keys.card, x)
  | .iter kind i, x => (entriesOf ω (x.table i kind), x)
  | .scan kind i cursor count, x => (pageOf (entriesOf ω (x.table i kind)) cursor count, x)
  | .clear kind i, x => ((), x.setTable i kind ∅)
  | .nowMs, x => (x.slice.nowMs, x)
  | .updateTime now, x => ((), { x with slice := x.slice.updateTime now })
  | .select i, x => ((), { x with conn := ⟨i⟩ })

/-! ## Dash tables -/

/-- `DbTable` as it is stored. -/
structure DashDb (F : Type) where
  prime : DashTable Bytes (PrimeValue F)
  expire : DashTable Bytes UInt64

namespace DashDb

variable {F : Type}

def new : DashDb F := ⟨.withHasher, .withHasher⟩

def table (db : DashDb F) : (kind : TableKind) → DashTable Bytes (kind.Value F)
  | .prime => db.prime
  | .expire => db.expire

def setTable (db : DashDb F) : (kind : TableKind) → DashTable Bytes (kind.Value F) → DashDb F
  | .prime, t => { db with prime := t }
  | .expire, t => { db with expire := t }

end DashDb

/-- `DbSlice` as it is stored, and the connection a handler runs for. -/
structure DashExec (F : Type) where
  dbs : DbIndex → DashDb F
  nowMs : UInt64
  conn : ConnContext

namespace DashExec

variable {F : Type}

def new : DashExec F := ⟨fun _ => .new, 0, ⟨0⟩⟩

def table (d : DashExec F) (i : DbIndex) (kind : TableKind) : DashTable Bytes (kind.Value F) :=
  (d.dbs i).table kind

def setTable (d : DashExec F) (i : DbIndex) (kind : TableKind)
    (t : DashTable Bytes (kind.Value F)) : DashExec F :=
  { d with dbs := Function.update d.dbs i ((d.dbs i).setTable kind t) }

end DashExec

/-- What the hash builder of each table makes of a key. -/
abbrev Hashers := DbIndex → TableKind → Bytes → UInt64

/-- The calls on dash tables; `none` is a panic inside the table. -/
def StoreOp.dash {F : Type} (hash : Hashers) :
    (o : StoreOp F) → DashExec F → Option (o.Result × DashExec F)
  | .find kind i key, d => some ((d.table i kind).find (hash i kind) key, d)
  | .write kind i key value, d =>
    some ((), d.setTable i kind ((d.table i kind).findMut (hash i kind) key fun _ => value).1)
  | .insert kind i key value, d =>
    ((d.table i kind).insert (hash i kind) key value).map fun (t, old) => (old, d.setTable i kind t)
  | .remove kind i key, d =>
    ((d.table i kind).remove (hash i kind) key).map fun (t, old) => (old, d.setTable i kind t)
  | .len kind i, d => some ((d.table i kind).len, d)
  | .iter kind i, d => some ((d.table i kind).iter, d)
  | .scan kind i cursor count, d =>
    some (((d.table i kind).scan ⟨cursor⟩ count).map fun (entries, next) => (entries, next.value),
      d)
  | .clear kind i, d => some ((), d.setTable i kind (d.table i kind).clear)
  | .nowMs, d => some (d.nowMs, d)
  | .updateTime now, d => some ((), { d with nowMs := now })
  | .select i, d => some ((), { d with conn := ⟨i⟩ })

end ShrikeDb
