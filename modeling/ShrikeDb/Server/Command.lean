import ShrikeDb.Facade.Resp
import ShrikeDb.Lib.Program
import ShrikeDb.Server.DbSlice

/-! Command handlers are programs over the operations of the database slice. The
arguments are read as in the `arg` functions of the command families; unwrapping a
missing one is a panic. -/

namespace ShrikeDb

/-- What a handler can do: the operations of `DbSlice`, a write through the reference
of `find_mut`, and the choice of the connection's database. -/
inductive DbOp (F : Type)
  | nowMs
  | dbSize (i : DbIndex)
  | find (i : DbIndex) (key : Bytes)
  | findMut (i : DbIndex) (key : Bytes)
  | store (i : DbIndex) (key : Bytes) (value : PrimeValue F)
  | addOrUpdate (i : DbIndex) (key : Bytes) (value : PrimeValue F)
  | addIfAbsent (i : DbIndex) (key : Bytes) (value : PrimeValue F)
  | del (i : DbIndex) (key : Bytes)
  | addExpire (i : DbIndex) (key : Bytes) (deadlineMs : UInt64)
  | removeExpire (i : DbIndex) (key : Bytes)
  | ttlMs (i : DbIndex) (key : Bytes)
  | rename (i : DbIndex) (source dest : Bytes)
  | scan (i : DbIndex) (cursor count : UInt64) (pattern : Option Bytes)
  | keys (i : DbIndex) (pattern : Bytes)
  | flushDb (i : DbIndex)
  | randomEntry (i : DbIndex)
  | select (i : DbIndex)

namespace DbOp

variable {F : Type}

def Result : DbOp F → Type
  | .nowMs => UInt64
  | .dbSize _ => Nat
  | .find _ _ | .findMut _ _ => Option (FindResult F)
  | .addOrUpdate _ _ _ | .addIfAbsent _ _ _ | .del _ _ | .removeExpire _ _ | .rename _ _ _ => Bool
  | .ttlMs _ _ => TtlResult
  | .scan _ _ _ _ => Option (List Bytes × UInt64)
  | .keys _ _ => List Bytes
  | .randomEntry _ => Option Bytes
  | .store _ _ _ | .addExpire _ _ _ | .flushDb _ | .select _ => Unit

end DbOp

def dbOps (F : Type) : Interface := ⟨DbOp F, DbOp.Result⟩

abbrev Command (F α : Type) := Program (dbOps F) α

structure ConnContext where
  dbIndex : DbIndex

/-- The state a handler runs in. -/
structure Exec (F : Type) where
  slice : DbSlice F
  conn : ConnContext

/-- Carry out one operation on the databases. -/
def DbOp.apply {F : Type} (ω : Listing Bytes) : (o : DbOp F) → DbSlice F → o.Result × DbSlice F
  | .nowMs, s => (s.nowMs, s)
  | .dbSize i, s => (s.dbSize i, s)
  | .find i key, s => s.find i key
  | .findMut i key, s => s.findMut i key
  | .store i key value, s => ((), s.store i key value)
  | .addOrUpdate i key value, s => s.addOrUpdate i key value
  | .addIfAbsent i key value, s => s.addIfAbsent i key value
  | .del i key, s => s.del i key
  | .addExpire i key deadlineMs, s => ((), s.addExpire i key deadlineMs)
  | .removeExpire i key, s => s.removeExpire i key
  | .ttlMs i key, s => s.ttlMs i key
  | .rename i source dest, s => s.rename i source dest
  | .scan i cursor count pattern, s => (s.scan ω i cursor count pattern, s)
  | .keys i pattern, s => s.keys ω i pattern
  | .flushDb i, s => ((), s.flushDb i)
  | .randomEntry i, s => (s.randomEntry ω i, s)
  | .select _, s => ((), s)

def DbOp.connAfter {F : Type} (c : ConnContext) : DbOp F → ConnContext
  | .select i => ⟨i⟩
  | _ => c

def step {F : Type} (ω : Listing Bytes) (o : (dbOps F).Op) (x : Exec F) :
    (dbOps F).Result o × Exec F :=
  ((DbOp.apply ω o x.slice).1, ⟨(DbOp.apply ω o x.slice).2, DbOp.connAfter x.conn o⟩)

/-- Iteration order of hash sets and hash maps, a function of the keys they hold. -/
class HashOrder where
  order : Listing Bytes

@[reducible] noncomputable def HashOrder.arbitrary : HashOrder := ⟨.arbitrary Bytes⟩

/-- The arguments and the database selected when the handler starts. -/
structure CommandContext where
  args : List RespExpr
  dbIndex : DbIndex

namespace CommandContext

variable (ctx : CommandContext)

def argBytes (i : Nat) : Option Bytes := ctx.args[i]?.bind RespExpr.asBytes

def argStr (i : Nat) : Option Bytes := ctx.args[i]?.bind RespExpr.asStr

def argInt (i : Nat) : Option Int64 := ctx.args[i]?.bind RespExpr.asInt

def argPositiveInt (i : Nat) : Option UInt64 := ctx.args[i]?.bind RespExpr.asPositiveInt

/-- The arguments from position `i` on, if all are bulk strings. -/
def argsBytes (i : Nat) : Option (List Bytes) := (ctx.args.drop i).mapM RespExpr.asBytes

end CommandContext

theorem asBytes_eq_some {e : RespExpr} {b : Bytes} (h : e.asBytes = some b) : e = .string b := by
  cases e with
  | string data =>
    cases h
    rfl
  | _ => cases h

theorem mapM_asBytes {l : List RespExpr} {bs : List Bytes} :
    l.mapM RespExpr.asBytes = some bs ↔ l = bs.map .string := by
  constructor
  · intro h
    induction l generalizing bs with
    | nil =>
      cases h
      rfl
    | cons e l ih =>
      rw [List.mapM_cons] at h
      obtain ⟨b, hb, h⟩ := Option.bind_eq_some_iff.mp h
      obtain ⟨rest, hrest, h⟩ := Option.bind_eq_some_iff.mp h
      cases h
      rw [List.map_cons, asBytes_eq_some hb, ih hrest]
  · rintro rfl
    induction bs with
    | nil => rfl
    | cons b bs ih =>
      rw [List.map_cons, List.mapM_cons, ih]
      rfl

/-- The arguments from a position on are these bulk strings. -/
theorem argsBytes_eq_some {ctx : CommandContext} {i : Nat} {bs : List Bytes} :
    ctx.argsBytes i = some bs ↔ ctx.args.drop i = bs.map .string :=
  mapM_asBytes

namespace Command

variable {F κ : Type}

open Program ReplyBuilder

def arg (ctx : CommandContext) (i : Nat) : Command F Bytes := ofOption (ctx.argBytes i)

def args (ctx : CommandContext) (i : Nat) : Command F (List Bytes) := ofOption (ctx.argsBytes i)

def nowMs : Command F UInt64 := perform (S := dbOps F) .nowMs

def find (i : DbIndex) (key : Bytes) : Command F (Option (FindResult F)) :=
  perform (S := dbOps F) (.find i key)

def findMut (i : DbIndex) (key : Bytes) : Command F (Option (FindResult F)) :=
  perform (S := dbOps F) (.findMut i key)

def pairUp {α : Type} : List α → List (α × α)
  | a :: b :: rest => (a, b) :: pairUp rest
  | _ => []

def existsKey (i : DbIndex) (key : Bytes) : Command F Bool := do
  return (← find i key).isSome

def notAnInteger : Bytes := sendErr (ascii "value is not an integer or out of range")

def notAFloat : Bytes := sendErr (ascii "value is not a valid float")

/-! ## Handlers that read or edit one value

Most handlers look one key up, require its value to be of one kind, and answer from
it or edit it in place. -/

def stringOf (v : PrimeValue F) : Option (PrimeValue F) := if v.isString then some v else none

def listOf : PrimeValue F → Option (List Bytes)
  | .list items => some items
  | _ => none

def setOf : PrimeValue F → Option (Finset Bytes)
  | .set items => some items
  | _ => none

def hashOf : PrimeValue F → Option (Finmap fun _ : Bytes => Bytes)
  | .hash fields => some fields
  | _ => none

def zsetOf : PrimeValue F → Option ((Finmap fun _ : Bytes => F) × List (SortedSetEntry F))
  | .zset members scores => some (members, scores)
  | _ => none

theorem eq_of_zsetOf {v : PrimeValue F} {c : (Finmap fun _ : Bytes => F) × List (SortedSetEntry F)}
    (h : zsetOf v = some c) : v = .zset c.1 c.2 := by
  cases v with
  | zset members scores =>
    cases h
    rfl
  | _ => cases h

/-- First and last position of a range of a sequence, as `usize`. For the empty
sequence the last one wraps around. -/
def indexRange (len : Nat) (start stop : Int64) : Nat × Nat :=
  let n := Int64.ofNat len
  ((if start < 0 then max (n + start) 0 else min start n).toUInt64.toNat,
    (if stop < 0 then max (n + stop) 0 else min stop (n - 1)).toUInt64.toNat)

/-- The elements of an index range, empty if the range is. -/
def sliceRange {α : Type} (items : List α) (start stop : Int64) : List α :=
  let (s, e) := indexRange items.length start stop
  if e < s ∨ items.length ≤ s then [] else (items.drop s).take (e - s + 1)

/-- Answer from the value of a key. -/
def view (kind : PrimeValue F → Option κ) (i : DbIndex) (key : Bytes) (present : κ → Bytes)
    (absent : Bytes) : Command F Bytes := do
  match ← find i key with
  | some r =>
    match kind r.value with
    | some x => pure (present x)
    | none => pure (sendWrongType [])
  | none => pure absent

/-- What a handler does with the value it holds a reference to. -/
inductive Edit (F : Type)
  | keep (reply : Bytes)
  /-- The value is written, and the key deleted if the value is now empty. -/
  | put (value : PrimeValue F) (empty : Bool) (reply : Bytes)

def editValue (i : DbIndex) (key : Bytes) : Edit F → Command F Bytes
  | .keep reply => pure reply
  | .put value empty reply => do
    invoke (.store i key value)
    if empty then
      invoke (.del i key)
    pure reply

/-- Edit the value of a key in place; `absent` says what happens without the key. An error is
the value that a panic leaves behind. -/
def tryEdit (kind : PrimeValue F → Option κ) (i : DbIndex) (key : Bytes)
    (present : κ → Except (PrimeValue F) (Edit F)) (absent : Command F Bytes) :
    Command F Bytes := do
  match ← findMut i key with
  | some r =>
    match kind r.value with
    | some x =>
      match present x with
      | .ok e => editValue i key e
      | .error value =>
        invoke (.store i key value)
        Program.panic
    | none => pure (sendWrongType [])
  | none => absent

/-- An edit that does not panic. -/
def edit (kind : PrimeValue F → Option κ) (i : DbIndex) (key : Bytes) (present : κ → Edit F)
    (absent : Command F Bytes) : Command F Bytes :=
  tryEdit kind i key (fun x => .ok (present x)) absent

theorem ok_of_ite {α β : Type} {c : Prop} [Decidable c] {a : α} {b b' : β}
    (h : (if c then .error a else .ok b : Except α β) = .ok b') : ¬c ∧ b = b' := by
  split at h
  · cases h
  · cases h
    exact ⟨‹_›, rfl⟩

theorem error_of_ite {α β : Type} {c : Prop} [Decidable c] {a a' : α} {b : β}
    (h : (if c then .error a else .ok b : Except α β) = .error a') : c ∧ a = a' := by
  split at h
  · cases h
    exact ⟨‹_›, rfl⟩
  · cases h

/-- Store a value under a key that was not there. -/
def create (i : DbIndex) (key : Bytes) (value : PrimeValue F) (reply : Bytes) :
    Command F Bytes := do
  invoke (.addOrUpdate i key value)
  pure reply

end Command

end ShrikeDb
