import ShrikeDb.Dash.Bucket

/-! Segments (`dash/segment.rs`): 64 regular buckets and four stash buckets.
A key is looked for in its home bucket, then as a probing item in the next
bucket, then in the stash as far as the home bucket's metadata says. -/

namespace ShrikeDb.Dash

open BitLoop

/-- Index of a bucket of a segment, the stash buckets after the regular ones. -/
abbrev BucketIdx := Fin totalBuckets

/-- A regular bucket as a bucket of the segment. -/
def regular (b : Fin numBuckets) : BucketIdx := Fin.castAdd numStash b

/-- Stash bucket `i` as a bucket of the segment. -/
def stash (i : StashId) : BucketIdx := Fin.natAdd numBuckets i

structure Segment (K V : Type) where
  buckets : BucketIdx → Bucket K V
  localDepth : UInt8
  itemCount : Nat

structure SegmentPos where
  bucketIdx : BucketIdx
  slotIdx : Slot
  deriving DecidableEq

namespace Segment

variable {K V : Type}

def new (localDepth : UInt8) : Segment K V where
  buckets := fun _ => .new
  localDepth := localDepth
  itemCount := 0

variable (s : Segment K V)

/-- Replace bucket `i` by its image under `f`. -/
def modifyBucket (i : BucketIdx) (f : Bucket K V → Bucket K V) : Segment K V :=
  { s with buckets := Function.update s.buckets i (f (s.buckets i)) }

def findInBucket (bucketIdx : BucketIdx) (fp : UInt8) (probe : Bool) (eq : K → Bool) :
    Option Slot :=
  let bucket := s.buckets bucketIdx
  (slotsOf (bucket.findMatching fp probe)).find? fun slot => (bucket.keys slot).any eq

def findInStashViaPtrs (bucketIdx : BucketIdx) (fp : UInt8) (probe : Bool) (eq : K → Bool) :
    Option SegmentPos :=
  let bucket := s.buckets bucketIdx
  (List.finRange numStash).findSome? fun i =>
    if bucket.stashBusy &&& (1#8 <<< i.val) = 0#8 then none
    else if bucket.stashFps i ≠ fp then none
    else if ((bucket.stashProbeMask >>> i.val) &&& 1#8 != 0#8) ≠ probe then none
    else
      let stashIdx := stash (Fin.ofNat numStash (bucket.stashPosAt i).toNat)
      let st := s.buckets stashIdx
      ((slotsOf st.slots.busy).find? fun slot =>
        st.fingerprints slot == fp && (st.keys slot).any eq).map fun slot => ⟨stashIdx, slot⟩

def find (hash : UInt64) (eq : K → Bool) : Option SegmentPos :=
  let home := homeBucket hash
  let fp := fingerprint hash
  let next := nextBucket home
  match s.findInBucket (regular home) fp false eq with
  | some slot => some ⟨regular home, slot⟩
  | none =>
    match s.findInBucket (regular next) fp true eq with
    | some slot => some ⟨regular next, slot⟩
    | none =>
      if !(s.buckets (regular home)).hasStash then none
      else if (s.buckets (regular home)).hasStashOverflow then
        (List.finRange numStash).findSome? fun i =>
          (s.findInBucket (stash i) fp false eq).map fun slot => ⟨stash i, slot⟩
      else
        (s.findInStashViaPtrs (regular home) fp false eq).or
          (s.findInStashViaPtrs (regular next) fp true eq)

/-- Remove the item at `pos`; a stash item also gives up a stash reference in
its home bucket and in the bucket after it. -/
def delete (pos : SegmentPos) (hash : UInt64) : Option (Segment K V × K × V) :=
  match (s.buckets pos.bucketIdx).delete pos.slotIdx with
  | none => none
  | some (bucket, k, v) =>
    let s := { s with buckets := Function.update s.buckets pos.bucketIdx bucket }
    let s :=
      if numBuckets ≤ pos.bucketIdx.val then
        let home := homeBucket hash
        let fp := fingerprint hash
        let stashId := BitVec.ofNat 8 (pos.bucketIdx.val - numBuckets)
        let s := s.modifyBucket (regular home) fun b => (b.unsetStashPtr fp stashId).1
        s.modifyBucket (regular (nextBucket home)) fun b => (b.unsetStashPtr fp stashId).1
      else s
    some ({ s with itemCount := s.itemCount - 1 }, k, v)

/-- The positions `iter` visits, in order. -/
def positions : List SegmentPos :=
  (List.finRange totalBuckets).flatMap fun bid =>
    (slotsOf (s.buckets bid).slots.busy).map fun slot => ⟨bid, slot⟩

/-- Insert into bucket `i`; `none` models the `unwrap` of a failed `try_insert`. -/
def insertAt (i : BucketIdx) (key : K) (value : V) (fp : UInt8) (probing : Bool) :
    Option (Segment K V × SegmentPos) :=
  match (s.buckets i).tryInsert key value fp probing with
  | none => none
  | some (bucket, slot) =>
    some ({ s with
      buckets := Function.update s.buckets i bucket
      itemCount := s.itemCount + 1 }, ⟨i, slot⟩)

/-- Insert a key that is not present. The inner `Except.error` is a full
segment giving the pair back. -/
def insertNew (key : K) (value : V) (hash : UInt64) :
    Option (Except (K × V) (Segment K V × SegmentPos)) :=
  let home := homeBucket hash
  let next := nextBucket home
  let fp := fingerprint hash
  if !(s.buckets (regular home)).slots.isFull then
    (s.insertAt (regular home) key value fp false).map .ok
  else if !(s.buckets (regular next)).slots.isFull then
    (s.insertAt (regular next) key value fp true).map .ok
  else
    match (List.finRange numStash).find? (fun i => !(s.buckets (stash i)).slots.isFull) with
    | some i =>
      (s.insertAt (stash i) key value fp false).map fun (s, pos) =>
        .ok (s.modifyBucket (regular home) (fun b => b.setStashPtr (BitVec.ofNat 8 i.val) fp false),
          pos)
    | none => some (.error (key, value))

end Segment

end ShrikeDb.Dash
