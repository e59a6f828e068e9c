import Mathlib.Logic.Function.Basic
import ShrikeDb.Dash.Bitmap

/-! Buckets of a `DashTable` segment (`dash/bucket.rs`): twelve slots with one
fingerprint each, and the stash metadata a home bucket keeps about the items
that overflowed into the segment's stash buckets. Uninitialised memory is
`none`; a read of it has no result. -/

namespace ShrikeDb.Dash

open BitLoop Function

/-! ## Buckets -/

structure Bucket (K V : Type) where
  slots : SlotBitmap
  fingerprints : Slot → UInt8
  stashFps : StashId → UInt8
  stashBusy : BitVec 8
  stashPos : BitVec 8
  stashProbeMask : BitVec 8
  overflowCount : BitVec 8
  keys : Slot → Option K
  values : Slot → Option V

namespace Bucket

variable {K V : Type}

def new : Bucket K V where
  slots := .default
  fingerprints := fun _ => 0
  stashFps := fun _ => 0
  stashBusy := 0#8
  stashPos := 0#8
  stashProbeMask := 0#8
  overflowCount := 0#8
  keys := fun _ => none
  values := fun _ => none

variable (b : Bucket K V)

/-- The mask of the busy slots with the given ownership and fingerprint. -/
def findMatching (fp : UInt8) (probe : Bool) : BitVec 32 :=
  (List.finRange numSlots).foldl (fun mask (i : Slot) =>
    if b.slots.busy.getLsbD i.val && (b.slots.probeMask probe).getLsbD i.val &&
        b.fingerprints i == fp
    then mask ||| (1#32 <<< i.val) else mask) 0#32

variable (slot : Slot)

/-- Write an item into a slot. -/
def place (key : K) (value : V) (fp : UInt8) (probing : Bool) :
    Bucket K V :=
  { b with
    fingerprints := update b.fingerprints slot fp
    keys := update b.keys slot (some key)
    values := update b.values slot (some value)
    slots := b.slots.setSlot slot probing }

def tryInsert (key : K) (value : V) (fp : UInt8) (probing : Bool) :
    Option (Bucket K V × Slot) :=
  b.slots.findEmpty.map fun slot => (b.place slot key value fp probing, slot)

/-- Clear a slot and leave it uninitialised. -/
def vacate : Bucket K V :=
  { b with
    slots := b.slots.clearSlot slot
    keys := update b.keys slot none
    values := update b.values slot none }

/-- Clear a slot and move its key and value out of it. -/
def delete : Option (Bucket K V × K × V) :=
  match b.keys slot, b.values slot with
  | some k, some v => some (b.vacate slot, k, v)
  | _, _ => none

def setValue (value : V) : Bucket K V :=
  { b with values := update b.values slot (some value) }

def hasStash : Bool := b.stashBusy &&& 0x10#8 != 0#8

def hasStashOverflow : Bool := decide (0#8 < b.overflowCount)

/-- The two-bit stash position recorded in fingerprint slot `i`. -/
def stashPosAt (i : StashId) : BitVec 8 := (b.stashPos >>> (i.val * 2)) &&& 3#8

def setStashPtr (stashBucketId : BitVec 8) (fp : UInt8) (isProbing : Bool) :
    Bucket K V :=
  match (List.finRange numStash).find? (fun i => b.stashBusy &&& (1#8 <<< i.val) == 0#8) with
  | some i =>
    { b with
      stashFps := update b.stashFps i fp
      stashPos := (b.stashPos &&& ~~~(3#8 <<< (i.val * 2))) ||| (stashBucketId <<< (i.val * 2))
      stashBusy := (b.stashBusy ||| (1#8 <<< i.val)) ||| 0x10#8
      stashProbeMask := if isProbing then b.stashProbeMask ||| (1#8 <<< i.val)
        else b.stashProbeMask &&& ~~~(1#8 <<< i.val) }
  | none =>
    { b with
      overflowCount := b.overflowCount + 1#8
      stashBusy := b.stashBusy ||| 0x10#8 }

/-- Drop the has-stash flag when no pointer and no overflow is left. -/
def clearStashFlag : Bucket K V :=
  if b.stashBusy &&& 0x0F#8 = 0#8 ∧ b.overflowCount = 0#8 then
    { b with stashBusy := b.stashBusy &&& ~~~0x10#8 }
  else b

def unsetStashPtr (fp : UInt8) (stashPos : BitVec 8) : Bucket K V × Bool :=
  match (List.finRange numStash).find? (fun i =>
      b.stashBusy &&& (1#8 <<< i.val) != 0#8 && b.stashFps i == fp && b.stashPosAt i ==
        stashPos) with
  | some i => (clearStashFlag { b with stashBusy := b.stashBusy &&& ~~~(1#8 <<< i.val) }, true)
  | none =>
    if 0#8 < b.overflowCount then
      (clearStashFlag { b with overflowCount := b.overflowCount - 1#8 }, true)
    else (b, false)

/-! ### Occupancy -/

/-- The pair stored in a slot. -/
def item (i : Slot) : Option (K × V) :=
  match b.keys i, b.values i with
  | some k, some v => some (k, v)
  | _, _ => none

/-- The bitmap is exact and tells which slots are initialised. -/
structure WF (b : Bucket K V) : Prop where
  slots : b.slots.WF
  keys : ∀ i, (b.keys i).isSome = b.slots.occupied i
  values : ∀ i, (b.values i).isSome = b.slots.occupied i

theorem wf_new : (new : Bucket K V).WF where
  slots := SlotBitmap.wf_default
  keys := by intro i; simp [new, SlotBitmap.occupied, SlotBitmap.default, SlotBitmap.busy]
  values := by intro i; simp [new, SlotBitmap.occupied, SlotBitmap.default, SlotBitmap.busy]

variable {b : Bucket K V} {slot : Slot}

theorem item_eq_some {i : Slot} {k : K} {v : V} :
    b.item i = some (k, v) ↔ b.keys i = some k ∧ b.values i = some v := by
  unfold item
  cases hk : b.keys i <;> cases hv : b.values i <;> simp

theorem WF.item_isSome (h : b.WF) (i : Slot) :
    (b.item i).isSome = b.slots.occupied i := by
  have hk := h.keys i
  have hv := h.values i
  unfold item
  cases ek : b.keys i <;> cases ev : b.values i <;> simp_all

theorem WF.item_eq_none (h : b.WF) {i : Slot} :
    b.item i = none ↔ b.slots.occupied i = false := by
  rw [← h.item_isSome, ← Option.not_isSome_iff_eq_none, Bool.not_eq_true]

theorem WF.keys_eq_item (h : b.WF) (i : Slot) :
    b.keys i = (b.item i).map Prod.fst := by
  have hk := h.keys i
  have hv := h.values i
  unfold item
  cases ek : b.keys i <;> cases ev : b.values i <;> simp_all

theorem WF.values_eq_item (h : b.WF) (i : Slot) :
    b.values i = (b.item i).map Prod.snd := by
  have hk := h.keys i
  have hv := h.values i
  unfold item
  cases ek : b.keys i <;> cases ev : b.values i <;> simp_all

theorem WF.slotsOf_busy (h : b.WF) :
    slotsOf b.slots.busy = (List.finRange numSlots).filter fun i => b.slots.occupied i :=
  slotsOf_eq_filter h.slots.busy_high

theorem getLsbD_foldl_mask (c : Slot → Bool) (l : List Slot) (m : BitVec 32) (j : Nat) :
    (l.foldl (fun mask (i : Slot) => if c i then mask ||| (1#32 <<< i.val) else mask) m).getLsbD j =
      (m.getLsbD j || l.any fun i => c i && decide (i.val = j)) := by
  induction l generalizing m with
  | nil => simp
  | cons i l ih =>
    have hi := slot_lt i
    rw [List.foldl_cons, ih, List.any_cons]
    cases hc : c i
    · simp
    · by_cases hj : i.val = j
      · have hw : j < 32 := by omega
        rw [if_pos rfl, BitVec.getLsbD_or, getLsbD_one_shiftLeft]
        simp [hj, hw]
      · rw [if_pos rfl, BitVec.getLsbD_or, getLsbD_one_shiftLeft]
        simp [hj]

theorem getLsbD_probeMask (b : SlotBitmap) (probe : Bool) (i : Slot) :
    (b.probeMask probe).getLsbD i.val = (b.probing i == probe) := by
  cases probe
  · simp [SlotBitmap.probeMask, SlotBitmap.probing, getLsbD_allocMask, -BitVec.getLsbD_eq_getElem]
  · simp [SlotBitmap.probeMask, SlotBitmap.probing, getLsbD_allocMask, -BitVec.getLsbD_eq_getElem]

/-- The slots a fingerprint search of a bucket looks at, in order. -/
theorem slotsOf_findMatching (b : Bucket K V) (fp : UInt8) (probe : Bool) :
    slotsOf (b.findMatching fp probe) = (List.finRange numSlots).filter fun i =>
      b.slots.occupied i && (b.slots.probing i == probe) && b.fingerprints i == fp := by
  have hbit : ∀ j, (b.findMatching fp probe).getLsbD j =
      (List.finRange numSlots).any fun i => (b.slots.occupied i && (b.slots.probing i == probe) &&
        b.fingerprints i == fp) && decide (i.val = j) := by
    intro j
    simp only [findMatching]
    rw [getLsbD_foldl_mask]
    simp only [getLsbD_probeMask, SlotBitmap.occupied, BitVec.getLsbD_zero, Bool.false_or]
  rw [slotsOf_eq_filter]
  · congr 1
    funext i
    rw [hbit, Bool.eq_iff_iff, List.any_eq_true]
    constructor
    · rintro ⟨i', _, h⟩
      rw [Bool.and_eq_true, decide_eq_true_eq] at h
      rw [← Fin.ext h.2]
      exact h.1
    · intro h
      exact ⟨i, List.mem_finRange i, by simp [h]⟩
  · intro j hj
    rw [hbit, List.any_eq_false]
    intro i _
    have hi := i.isLt
    have hne : i.val ≠ j := by omega
    simp [hne]

theorem WF.place (h : b.WF) (hfree : b.slots.occupied slot = false) (key : K) (value : V)
    (fp : UInt8) (probing : Bool) :
    (b.place slot key value fp probing).WF ∧
      (b.place slot key value fp probing).item = update b.item slot (some (key, value)) ∧
      (b.place slot key value fp probing).slots.probing =
        update b.slots.probing slot probing := by
  refine ⟨⟨h.slots.setSlot hfree probing, ?_, ?_⟩, ?_, ?_⟩
  · intro i
    rw [Bucket.place, SlotBitmap.setSlot_occupied h.slots.size_lt]
    by_cases e : i = slot
    · simp [e]
    · simp [e, h.keys i]
  · intro i
    rw [Bucket.place, SlotBitmap.setSlot_occupied h.slots.size_lt]
    by_cases e : i = slot
    · simp [e]
    · simp [e, h.values i]
  · funext i
    by_cases e : i = slot
    · subst e; simp [item, Bucket.place]
    · simp [item, Bucket.place, e]
  · funext i
    rw [Bucket.place, SlotBitmap.setSlot_probing h.slots.size_lt, update_apply]

theorem WF.tryInsert (h : b.WF) (hf : b.slots.isFull = false) (key : K) (value : V) (fp : UInt8)
    (probing : Bool) : ∃ slot, b.slots.occupied slot = false ∧
      b.tryInsert key value fp probing = some (b.place slot key value fp probing, slot) := by
  obtain ⟨slot, hs, hfree⟩ := h.slots.findEmpty_of_not_full hf
  exact ⟨slot, hfree, by rw [Bucket.tryInsert, hs]; rfl⟩

theorem WF.vacate (h : b.WF) (hocc : b.slots.occupied slot = true) :
    (b.vacate slot).WF ∧ (b.vacate slot).item = update b.item slot none ∧
      ∀ i, i ≠ slot → (b.vacate slot).slots.probing i = b.slots.probing i := by
  have hpos := h.slots.size_pos hocc
  refine ⟨⟨h.slots.clearSlot hocc, ?_, ?_⟩, ?_, ?_⟩
  · intro i
    rw [Bucket.vacate, SlotBitmap.clearSlot_occupied hpos]
    by_cases e : i = slot
    · simp [e]
    · simp [e, h.keys i]
  · intro i
    rw [Bucket.vacate, SlotBitmap.clearSlot_occupied hpos]
    by_cases e : i = slot
    · simp [e]
    · simp [e, h.values i]
  · funext i
    by_cases e : i = slot
    · subst e; simp [item, Bucket.vacate]
    · simp [item, Bucket.vacate, e]
  · intro i e
    rw [Bucket.vacate, SlotBitmap.clearSlot_probing hpos]
    simp [e]

theorem delete_of_item {k : K} {v : V} (hi : b.item slot = some (k, v)) :
    b.delete slot = some (b.vacate slot, k, v) := by
  obtain ⟨hk, hv⟩ := item_eq_some.mp hi
  rw [Bucket.delete, hk, hv]

theorem WF.setValue (h : b.WF) {k : K} {v : V} (hi : b.item slot = some (k, v)) (value : V) :
    (b.setValue slot value).WF ∧
      (b.setValue slot value).item = update b.item slot (some (k, value)) := by
  obtain ⟨hk, hv⟩ := item_eq_some.mp hi
  refine ⟨⟨h.slots, h.keys, ?_⟩, ?_⟩
  · intro i
    have hvi := h.values i
    by_cases e : i = slot
    · subst e
      rw [hv] at hvi
      simpa [Bucket.setValue] using hvi
    · simpa [Bucket.setValue, e] using hvi
  · funext i
    by_cases e : i = slot
    · subst e
      simp [item, Bucket.setValue, hk]
    · simp [item, Bucket.setValue, e]

end Bucket

/-! ## Addressing -/

def homeBucket (hash : UInt64) : Fin numBuckets := Fin.ofNat numBuckets (hash >>> 8).toNat

def fingerprint (hash : UInt64) : UInt8 := (hash &&& fpMask).toUInt8

def nextBucket (bid : Fin numBuckets) : Fin numBuckets :=
  if h : bid.val < numBuckets - 1 then ⟨bid.val + 1, by omega⟩ else 0

end ShrikeDb.Dash
