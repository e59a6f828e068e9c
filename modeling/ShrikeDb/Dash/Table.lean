import Mathlib.Data.List.Sort
import ShrikeDb.Dash.Segment

/-! `DashTable` (`dash/table.rs`): a vector of segments that doubles when an
insertion finds its segment full. A `none` result of an operation is a panic;
the hash function is a parameter, as the hash builder of the source is. -/

namespace ShrikeDb.Dash

/-- The segment vector is never empty, so `hash % len` is a segment. -/
structure DashTable (K V : Type) where
  numSegments : Nat
  numSegments_pos : 0 < numSegments
  segments : Fin numSegments → Segment K V
  size : Nat

namespace DashTable

variable {K V : Type}

/-- `n` fresh segments of local depth one. -/
def fresh (n : Nat) (h : 0 < n) : DashTable K V where
  numSegments := n
  numSegments_pos := h
  segments := fun _ => .new 1
  size := 0

def withHasher : DashTable K V := fresh 4 (by decide)

def len (t : DashTable K V) : Nat := t.size

def segId (t : DashTable K V) (hash : UInt64) : Fin t.numSegments :=
  ⟨(hash >>> 48).toNat % t.numSegments, Nat.mod_lt _ t.numSegments_pos⟩

def setSegment (t : DashTable K V) (sid : Fin t.numSegments) (s : Segment K V) : DashTable K V :=
  { t with segments := Function.update t.segments sid s }

/-- Insert into the segment of `hash`; the size counts a success. -/
def insertNew (t : DashTable K V) (key : K) (value : V) (hash : UInt64) :
    Option (Except (K × V) (DashTable K V)) :=
  match (t.segments (t.segId hash)).insertNew key value hash with
  | none => none
  | some (.error kv) => some (.error kv)
  | some (.ok (s, _)) => some (.ok { t.setSegment (t.segId hash) s with size := t.size + 1 })

def clear (_t : DashTable K V) : DashTable K V := fresh 4 (by decide)

def iter (t : DashTable K V) : List (K × V) :=
  (List.finRange t.numSegments).flatMap fun sid =>
    (t.segments sid).positions.filterMap fun pos =>
      match ((t.segments sid).buckets pos.bucketIdx).keys pos.slotIdx,
        ((t.segments sid).buckets pos.bucketIdx).values pos.slotIdx with
      | some k, some v => some (k, v)
      | _, _ => none

/-! ## Cursors -/

/-- `Cursor` (`dash/cursor.rs`). -/
structure Cursor where
  value : UInt64
  deriving DecidableEq

namespace Cursor

def done : Cursor := ⟨0⟩

def isDone (c : Cursor) : Bool := c.value == 0

end Cursor

/-- A page of the iteration and the cursor to resume from. The end of the page is computed
with wrapping addition, and `none` is the panic of a slice that would end before it starts. -/
def scan (t : DashTable K V) (cursor : Cursor) (count : UInt64) : Option (List (K × V) × Cursor) :=
  let start := cursor.value.toNat
  let entries := t.iter
  let total := entries.length
  if total ≤ start then some ([], .done)
  else
    let stop := min (cursor.value + count).toNat total
    if stop < start then none
    else
      let result := (entries.drop start).take (stop - start)
      some (result, if total ≤ stop then .done else ⟨UInt64.ofNat stop⟩)

/-! ## Growth -/

/-- The order `sort_by(|a, b| b.cmp(a))` sorts the collected triples into. -/
def DescLe (a b : SegmentPos × UInt64) : Prop :=
  b.1.bucketIdx < a.1.bucketIdx ∨ (b.1.bucketIdx = a.1.bucketIdx ∧
    (b.1.slotIdx < a.1.slotIdx ∨ (b.1.slotIdx = a.1.slotIdx ∧ b.2 ≤ a.2)))

instance : DecidableRel DescLe := fun a b => by unfold DescLe; infer_instance

/-- Delete the listed items one after the other and collect them. -/
def drain (s : Segment K V) : List (SegmentPos × UInt64) → Option (List (K × V × UInt64))
  | [] => some []
  | (pos, hash) :: rest =>
    if (s.buckets pos.bucketIdx).slots.busy.getLsbD pos.slotIdx.val = false then drain s rest
    else
      match s.delete pos hash with
      | none => none
      | some (s, k, v) => (drain s rest).map fun items => (k, v, hash) :: items

section Hashed

variable (hash : K → UInt64)

/-! ## Selective removal -/

section Retain

variable {σ : Type} (pred : σ → K → V → Bool × V × σ)

/-- Visit the listed positions in order. The predicate keeps a state of its own, which is
returned too, and may write the value; what it rejects is deleted and counted. -/
def retainLoop (t : DashTable K V) (st : σ) (removed : Nat) :
    List (Nat × SegmentPos × UInt64) → Option (DashTable K V × Nat × σ)
  | [] => some (t, removed, st)
  | (sid, pos, h) :: rest =>
    if hs : sid < t.numSegments then
      let bucket := (t.segments ⟨sid, hs⟩).buckets pos.bucketIdx
      if bucket.slots.busy.getLsbD pos.slotIdx.val = false then retainLoop t st removed rest
      else
        match bucket.item pos.slotIdx with
        | none => none
        | some (k, v) =>
          let (keep, v, st) := pred st k v
          let s := (t.segments ⟨sid, hs⟩).modifyBucket pos.bucketIdx fun b =>
            b.setValue pos.slotIdx v
          if keep then retainLoop (t.setSegment ⟨sid, hs⟩ s) st removed rest
          else
            match s.delete pos h with
            | none => none
            | some (s, _, _) =>
              retainLoop { t.setSegment ⟨sid, hs⟩ s with size := t.size - 1 } st (removed + 1) rest
    else none

/-- All items with their hashes, in iteration order. -/
def hashedItems (t : DashTable K V) : List (Nat × SegmentPos × UInt64) :=
  (List.finRange t.numSegments).flatMap fun sid =>
    (t.segments sid).positions.filterMap fun pos =>
      (((t.segments sid).buckets pos.bucketIdx).keys pos.slotIdx).map fun k =>
        (sid.val, pos, hash k)

/-- Keep what the predicate accepts; also returns how many were removed. -/
def retain (t : DashTable K V) (st : σ) : Option (DashTable K V × Nat) :=
  (retainLoop pred t st 0 (t.hashedItems hash).reverse).map fun r => (r.1, r.2.1)

end Retain

/-! ## Rebuilding -/

/-- The items of one segment with their hashes, in the order `grow` collects them. -/
def segItems (s : Segment K V) : Option (List (K × V × UInt64)) :=
  let found := s.positions.filterMap fun pos =>
    ((s.buckets pos.bucketIdx).keys pos.slotIdx).map fun k => (pos, hash k)
  drain s (found.insertionSort DescLe)

/-- Re-insert collected items; a full segment is the panic "item lost during grow". -/
def reinsert (t : DashTable K V) : List (K × V × UInt64) → Option (DashTable K V)
  | [] => some t
  | (k, v, h) :: rest =>
    match t.insertNew k v h with
    | some (.ok t) => reinsert t rest
    | _ => none

def grow (t : DashTable K V) : Option (DashTable K V) :=
  match (List.finRange t.numSegments).mapM fun sid => segItems hash (t.segments sid) with
  | none => none
  | some items =>
    reinsert (fresh (t.numSegments * 2) (by have := t.numSegments_pos; omega)) items.flatten

/-- Insert after a failed insertion and a growth, growing up to `fuel` more times. -/
def insertNoDup (t : DashTable K V) (key : K) (value : V) : Nat → Option (DashTable K V)
  | 0 => none
  | fuel + 1 =>
    match t.insertNew key value (hash key) with
    | none => none
    | some (.ok t) => some t
    | some (.error _) =>
      match grow hash t with
      | none => none
      | some t => insertNoDup t key value fuel

/-! ## Operations -/

variable [DecidableEq K]

/-- Segment and position of a key. -/
def locate (t : DashTable K V) (key : K) : Option SegmentPos :=
  (t.segments (t.segId (hash key))).find (hash key) (fun k => k == key)

def find (t : DashTable K V) (key : K) : Option V :=
  (t.locate hash key).bind fun pos =>
    ((t.segments (t.segId (hash key))).buckets pos.bucketIdx).values pos.slotIdx

/-- Store through the reference `find_mut` returned for `pos`. -/
def setValue (t : DashTable K V) (sid : Fin t.numSegments) (pos : SegmentPos) (value : V) :
    DashTable K V :=
  t.setSegment sid ((t.segments sid).modifyBucket pos.bucketIdx fun b =>
    b.setValue pos.slotIdx value)

/-- A write of `f old` through `find_mut`; nothing happens when the key is absent. -/
def findMut (t : DashTable K V) (key : K) (f : V → V) : DashTable K V × Option V :=
  match t.locate hash key with
  | none => (t, none)
  | some pos =>
    match ((t.segments (t.segId (hash key))).buckets pos.bucketIdx).values pos.slotIdx with
    | none => (t, none)
    | some old => (t.setValue (t.segId (hash key)) pos (f old), some old)

def insert (t : DashTable K V) (key : K) (value : V) : Option (DashTable K V × Option V) :=
  match t.locate hash key with
  | some pos =>
    some (t.setValue (t.segId (hash key)) pos value,
      ((t.segments (t.segId (hash key))).buckets pos.bucketIdx).values pos.slotIdx)
  | none =>
    match t.insertNew key value (hash key) with
    | none => none
    | some (.ok t) => some (t, none)
    | some (.error _) =>
      match grow hash t with
      | none => none
      | some t => (insertNoDup hash t key value 10).map fun t => (t, none)

def remove (t : DashTable K V) (key : K) : Option (DashTable K V × Option V) :=
  match t.locate hash key with
  | none => some (t, none)
  | some pos =>
    match (t.segments (t.segId (hash key))).delete pos (hash key) with
    | none => none
    | some (s, _, v) =>
      some ({ t.setSegment (t.segId (hash key)) s with size := t.size - 1 }, some v)

end Hashed

end DashTable

end ShrikeDb.Dash
