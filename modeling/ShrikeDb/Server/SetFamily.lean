import ShrikeDb.Server.Command

/-! The handlers of `set_family.rs`. -/

namespace ShrikeDb.SetFamily

open Program Command ReplyBuilder

variable {F : Type}

/-- Insert the members one by one, counting the new ones. -/
def insertAll (members : List Bytes) (items : Finset Bytes) : Finset Bytes × Int64 :=
  members.foldl (fun (items, added) m =>
    (insert m items, if m ∈ items then added else added + 1)) (items, 0)

def removeAll (members : List Bytes) (items : Finset Bytes) : Finset Bytes × Int64 :=
  members.foldl (fun (items, removed) m =>
    (items.erase m, if m ∈ items then removed + 1 else removed)) (items, 0)

variable [HashOrder] (ctx : CommandContext)

def cmdSadd : Command F Bytes := do
  let key ← arg ctx 1
  let members ← args ctx 2
  edit setOf ctx.dbIndex key
    (fun items =>
      let (items, added) := insertAll members items
      .put (.set items) false (sendInteger added))
    (let (items, added) := insertAll members ∅
     create ctx.dbIndex key (.set items) (sendInteger added))

def cmdSrem : Command F Bytes := do
  let key ← arg ctx 1
  let members ← args ctx 2
  edit setOf ctx.dbIndex key
    (fun items =>
      let (items, removed) := removeAll members items
      .put (.set items) (items = ∅) (sendInteger removed))
    (pure (sendInteger 0))

def bit (b : Bool) : Int64 := if b then 1 else 0

def cmdSismember : Command F Bytes := do
  let key ← arg ctx 1
  let member ← arg ctx 2
  view setOf ctx.dbIndex key (fun items => sendInteger (bit (member ∈ items))) (sendInteger 0)

def cmdSmismember : Command F Bytes := do
  let key ← arg ctx 1
  let members ← args ctx 2
  let answer (items : Finset Bytes) :=
    sendArrayLen members.length ++ members.flatMap fun m => sendInteger (bit (m ∈ items))
  view setOf ctx.dbIndex key answer (answer ∅)

def cmdScard : Command F Bytes := do
  let key ← arg ctx 1
  view setOf ctx.dbIndex key (fun items => sendInteger (Int64.ofNat items.card)) (sendInteger 0)

section Ordered

def membersOf (items : Finset Bytes) : List Bytes := HashOrder.order.list items

def cmdSmembers : Command F Bytes := do
  let key ← arg ctx 1
  view setOf ctx.dbIndex key (fun items => sendStringArray (membersOf items)) (sendArrayLen 0)

def cmdSrandmember : Command F Bytes := do
  let key ← arg ctx 1
  view setOf ctx.dbIndex key (fun items => sendOptional (membersOf items).head?) sendNull

def cmdSpop : Command F Bytes := do
  let key ← arg ctx 1
  edit setOf ctx.dbIndex key
    (fun items =>
      match (membersOf items).head? with
      | some m => .put (.set (items.erase m)) (items.erase m = ∅) (sendBulkString m)
      | none => .keep sendNull)
    (pure sendNull)

/-! ## Set operations -/

inductive SetOp
  | inter
  | union
  | diff

/-- The sets under the keys, or `none` at the first value of another kind. -/
def collectSets (i : DbIndex) : List Bytes → Command F (Option (List (Finset Bytes)))
  | [] => pure (some [])
  | key :: rest => do
    let found : Option (Finset Bytes) :=
      match ← find i key with
      | some r => setOf r.value
      | none => some ∅
    match found with
    | none => pure none
    | some items =>
      match ← collectSets i rest with
      | none => pure none
      | some sets => pure (some (items :: sets))

def SetOp.combine : SetOp → Finset Bytes → Finset Bytes → Finset Bytes
  | .inter, a, b => a ∩ b
  | .union, a, b => a ∪ b
  | .diff, a, b => a \ b

def setOp (op : SetOp) : Command F Bytes := do
  let keys ← args ctx 1
  match ← collectSets ctx.dbIndex keys with
  | none => pure (sendWrongType [])
  | some [] => pure (sendArrayLen 0)
  | some (first :: rest) => pure (sendStringArray (membersOf (rest.foldl op.combine first)))

def cmdSinter : Command F Bytes := setOp ctx .inter

def cmdSunion : Command F Bytes := setOp ctx .union

def cmdSdiff : Command F Bytes := setOp ctx .diff

end Ordered

end ShrikeDb.SetFamily
