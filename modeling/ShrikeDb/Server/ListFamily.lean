import ShrikeDb.Server.Command

/-! The handlers of `list_family.rs`. -/

namespace ShrikeDb.ListFamily

open Program Command ReplyBuilder

variable {F : Type}

variable (items : List Bytes)

def length64 : Int64 := Int64.ofNat items.length

/-- `LPUSH` and `RPUSH`; `push` adds one value. -/
def pushList (push : List Bytes → Bytes → List Bytes) (ctx : CommandContext) : Command F Bytes := do
  let key ← arg ctx 1
  let values ← args ctx 2
  edit listOf ctx.dbIndex key
    (fun items =>
      let items := values.foldl push items
      .put (.list items) false (sendInteger (length64 items)))
    (let items := values.foldl push []
     create ctx.dbIndex key (.list items) (sendInteger (length64 items)))

variable (ctx : CommandContext)

def cmdLpush : Command F Bytes := pushList (fun items v => v :: items) ctx

def cmdRpush : Command F Bytes := pushList (fun items v => items ++ [v]) ctx

/-- `LPOP` and `RPOP`; `pop` takes up to `n` values off, in the order they come. -/
def popList (pop : Nat → List Bytes → List Bytes × List Bytes) (ctx : CommandContext) :
    Command F Bytes := do
  let key ← arg ctx 1
  let single : Bool := ctx.args.length ≤ 2
  let count := if single then 1 else ((ctx.argInt 2).getD 1).toInt.toNat
  edit listOf ctx.dbIndex key
    (fun items =>
      let (popped, rest) := pop (min count items.length) items
      let reply := if single then sendOptional popped.head? else sendStringArray popped
      .put (.list rest) rest.isEmpty reply)
    (pure sendNull)

def popFront (n : Nat) (items : List Bytes) :
    List Bytes × List Bytes := (items.take n, items.drop n)

def popBack (n : Nat) (items : List Bytes) : List Bytes × List Bytes :=
  (items.reverse.take n, items.take (items.length - n))

def cmdLpop : Command F Bytes := popList popFront ctx

def cmdRpop : Command F Bytes := popList popBack ctx

def cmdLlen : Command F Bytes := do
  let key ← arg ctx 1
  view listOf ctx.dbIndex key (fun items => sendInteger (length64 items)) (sendInteger 0)

def cmdLrange : Command F Bytes := do
  let key ← arg ctx 1
  let start := (ctx.argInt 2).getD 0
  let stop := (ctx.argInt 3).getD (-1)
  view listOf ctx.dbIndex key (fun items => sendStringArray (sliceRange items start stop))
    (sendArrayLen 0)

/-- A position counted from the end if negative, as `usize`. -/
def position (idx : Int64) : Nat :=
  (if idx < 0 then length64 items + idx else idx).toUInt64.toNat

def cmdLindex : Command F Bytes := do
  let key ← arg ctx 1
  let idx := (ctx.argInt 2).getD 0
  view listOf ctx.dbIndex key (fun items => sendOptional items[position items idx]?) sendNull

def cmdLset : Command F Bytes := do
  let key ← arg ctx 1
  let idx := (ctx.argInt 2).getD 0
  let value ← arg ctx 3
  edit listOf ctx.dbIndex key
    (fun items =>
      let i := position items idx
      if i < items.length then .put (.list (items.set i value)) false sendOk
      else .keep (sendErr (ascii "index out of range")))
    (pure (sendErr (ascii "no such key")))

/-! ## LREM -/

/-- The `retain` of a non-negative count: what stays, and how many are gone. -/
def retainUpTo (value : Bytes) (max : Int64) : List Bytes → Int64 → List Bytes × Int64
  | [], removed => ([], removed)
  | item :: items, removed =>
    if removed < max ∧ item = value then retainUpTo value max items (removed + 1)
    else
      let (kept, removed) := retainUpTo value max items removed
      (item :: kept, removed)

/-- The positions a negative count removes, from the tail. -/
def tailIndices (value : Bytes) (max : Int64) : List (Bytes × Nat) → Int64 → List Nat × Int64
  | [], removed => ([], removed)
  | (item, i) :: rest, removed =>
    if removed < max ∧ item = value then
      let (indices, removed) := tailIndices value max rest (removed + 1)
      (i :: indices, removed)
    else tailIndices value max rest removed

def removeOccurrences (count : Int64) (value : Bytes) : List Bytes × Int64 :=
  let max := if count = 0 then Int64.maxValue else if count < 0 then -count else count
  if 0 ≤ count then retainUpTo value max items 0
  else
    let (indices, removed) := tailIndices value max items.zipIdx.reverse 0
    (indices.foldl List.eraseIdx items, removed)

def cmdLrem : Command F Bytes := do
  let key ← arg ctx 1
  let count := (ctx.argInt 2).getD 0
  let value ← arg ctx 3
  edit listOf ctx.dbIndex key
    (fun items =>
      let (kept, removed) := removeOccurrences items count value
      .put (.list kept) kept.isEmpty (sendInteger removed))
    (pure (sendInteger 0))

def cmdLtrim : Command F Bytes := do
  let key ← arg ctx 1
  let start := (ctx.argInt 2).getD 0
  let stop := (ctx.argInt 3).getD (-1)
  edit listOf ctx.dbIndex key
    (fun items =>
      let kept := sliceRange items start stop
      .put (.list kept) kept.isEmpty sendOk)
    (pure sendOk)

def cmdLinsert : Command F Bytes := do
  let key ← arg ctx 1
  let where_ ← arg ctx 2
  let pivot ← arg ctx 3
  let value ← arg ctx 4
  let pos := toUppercase ((fromUtf8 where_).getD [])
  edit listOf ctx.dbIndex key
    (fun items =>
      match items.findIdx? (· = pivot) with
      | some i =>
        let items := items.insertIdx (if pos = ascii "BEFORE" then i else i + 1) value
        .put (.list items) false (sendInteger (length64 items))
      | none => .keep (sendInteger (-1)))
    (pure (sendInteger 0))

end ShrikeDb.ListFamily
