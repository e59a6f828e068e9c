import Mathlib.Data.Fintype.Card
import Mathlib.Data.Fin.Basic
import Mathlib.Data.List.FinRange
import ShrikeDb.Lib.BitLoop

/-! The occupancy bitmap of a bucket (`SlotBitmap` of `dash/bucket.rs`): size
counter, probing mask and busy mask packed into one 32-bit word. The facts
below read the word slot by slot, so that nothing after this module looks at
its bits. -/

namespace ShrikeDb.Dash

open BitLoop

abbrev numSlots : Nat := 12
abbrev numBuckets : Nat := 64
abbrev numStash : Nat := 4
abbrev totalBuckets : Nat := numBuckets + numStash
def fpMask : UInt64 := 0xFF

abbrev Slot := Fin numSlots
abbrev StashId := Fin numStash

instance neZeroNumStash : NeZero numStash := inferInstance

theorem slot_lt (i : Slot) : i.val < 12 := i.isLt

/-! ## The packed bitmap -/

/-- Bits 0-3 hold the size, bits 4-17 the probing mask, bits 18-31 the busy mask. -/
structure SlotBitmap where
  raw : BitVec 32
  deriving DecidableEq

def allocMask : BitVec 32 := (1#32 <<< numSlots) - 1#32
def sizeMask : BitVec 32 := 0xF#32

theorem getLsbD_sizeMask (j : Nat) : sizeMask.getLsbD j = decide (j < 4) := by
  have h := Nat.testBit_two_pow_sub_one 4 j
  rw [sizeMask, BitVec.getLsbD_ofNat]
  rw [show 2 ^ 4 - 1 = 15 by rfl] at h
  rw [h]
  by_cases hj : j < 4
  · simp [hj]; omega
  · simp [hj]

theorem getLsbD_allocMask (j : Nat) : allocMask.getLsbD j = decide (j < numSlots) := by
  have h := Nat.testBit_two_pow_sub_one numSlots j
  rw [show allocMask = BitVec.ofNat 32 (2 ^ numSlots - 1) by decide, BitVec.getLsbD_ofNat, h]
  by_cases hj : j < numSlots
  · have hw : j < 32 := Nat.lt_trans hj (by decide)
    simp [hj, hw]
  · simp [hj]

/-- Packing a size below 16 leaves every bit from 4 on alone. -/
theorem getLsbD_packSize (r x : BitVec 32) (hx : x.toNat < 16) (j : Nat) :
    ((r &&& ~~~sizeMask) ||| x).getLsbD j = if j < 4 then x.getLsbD j else r.getLsbD j := by
  rw [BitVec.getLsbD_or, BitVec.getLsbD_and, BitVec.getLsbD_not, getLsbD_sizeMask]
  by_cases hj : j < 4
  · simp [hj]
  · have hxj : x.getLsbD j = false := by
      apply Nat.testBit_lt_two_pow
      calc x.toNat < 2 ^ 4 := hx
        _ ≤ 2 ^ j := Nat.pow_le_pow_right (by decide) (by omega)
    rw [hxj]
    by_cases hw : j < 32
    · simp [hj, hw]
    · simp [hj, BitVec.getLsbD_of_ge r j (by omega)]

theorem packSize_size (r x : BitVec 32) (hx : x.toNat < 16) :
    (((r &&& ~~~sizeMask) ||| x) &&& sizeMask) = x := by
  apply BitVec.eq_of_getLsbD_eq
  intro j hj
  rw [BitVec.getLsbD_and, getLsbD_packSize r x hx, getLsbD_sizeMask]
  by_cases h : j < 4
  · simp [h]
  · have hxj : x.getLsbD j = false := by
      apply Nat.testBit_lt_two_pow
      calc x.toNat < 2 ^ 4 := hx
        _ ≤ 2 ^ j := Nat.pow_le_pow_right (by decide) (by omega)
    rw [hxj]
    simp [h]

namespace SlotBitmap

def default : SlotBitmap := ⟨0#32⟩

variable (b : SlotBitmap)

def busy : BitVec 32 := b.raw >>> 18

/-- The probing slots when `probe` is set, the slots that are not probing otherwise. -/
def probeMask (probe : Bool) : BitVec 32 :=
  let raw := (b.raw >>> 4) &&& allocMask
  if probe then raw else raw ^^^ allocMask

def size : Nat := (b.raw &&& sizeMask).toNat

def isFull : Bool := b.size == numSlots

def findEmpty : Option Slot :=
  let free := ~~~b.busy &&& allocMask
  if free = 0#32 then none else some (Fin.ofNat numSlots (trailingZeros free))

def setSlot (index : Slot) (probing : Bool) : SlotBitmap :=
  let raw := b.raw ||| (1#32 <<< (18 + index.val))
  let raw := if probing then raw ||| (1#32 <<< (4 + index.val))
    else raw &&& ~~~(1#32 <<< (4 + index.val))
  let sz := raw &&& sizeMask
  ⟨(raw &&& ~~~sizeMask) ||| (sz + 1#32)⟩

def clearSlot (index : Slot) : SlotBitmap :=
  let raw := b.raw &&& ~~~(1#32 <<< (18 + index.val))
  let raw := raw &&& ~~~(1#32 <<< (4 + index.val))
  let sz := raw &&& sizeMask
  ⟨(raw &&& ~~~sizeMask) ||| (sz - 1#32)⟩

/-! ### What the bitmap says about one slot -/

variable (i : Slot)

/-- Slot `i` holds an item. -/
def occupied : Bool := b.busy.getLsbD i.val

/-- Slot `i` is hosted for the previous bucket. -/
def probing : Bool := (b.raw >>> 4).getLsbD i.val

/-- The masks stay inside the twelve slots, probing slots are busy, and the
size field counts the busy slots. -/
structure WF (b : SlotBitmap) : Prop where
  busy_high : ∀ j, numSlots ≤ j → b.busy.getLsbD j = false
  probing_high : ∀ j, numSlots ≤ j → j < 14 → (b.raw >>> 4).getLsbD j = false
  probing_busy : ∀ i, b.probing i = true → b.occupied i = true
  size_eq : b.size = (Finset.univ.filter fun i => b.occupied i = true).card

theorem occupied_eq : b.occupied i = b.raw.getLsbD (18 + i.val) := by
  rw [occupied, busy, BitVec.getLsbD_ushiftRight]

theorem probing_eq : b.probing i = b.raw.getLsbD (4 + i.val) := by
  rw [probing, BitVec.getLsbD_ushiftRight]

theorem wf_default : default.WF where
  busy_high := by intro j _; simp [default, busy]
  probing_high := by intro j _ _; simp [default]
  probing_busy := by intro i h; simp [default, probing] at h
  size_eq := by decide

theorem and_sizeMask_congr {r r' : BitVec 32} (h : ∀ j < 4, r'.getLsbD j = r.getLsbD j) :
    r' &&& sizeMask = r &&& sizeMask := by
  apply BitVec.eq_of_getLsbD_eq
  intro j _
  rw [BitVec.getLsbD_and, BitVec.getLsbD_and, getLsbD_sizeMask]
  by_cases hj : j < 4
  · simp [h j hj]
  · simp [hj]

/-- `setSlot` counts one more item and touches the two bits of its slot only. -/
theorem setSlot_spec (p : Bool) (h : b.size < 15) :
    (b.setSlot i p).size = b.size + 1 ∧
      ∀ j, 4 ≤ j → j < 32 → (b.setSlot i p).raw.getLsbD j =
        if j = 18 + i.val then true else if j = 4 + i.val then p else b.raw.getLsbD j := by
  let r₁ := b.raw ||| (1#32 <<< (18 + i.val))
  let r₂ := if p then r₁ ||| (1#32 <<< (4 + i.val)) else r₁ &&& ~~~(1#32 <<< (4 + i.val))
  have hbit : ∀ j < 32, r₂.getLsbD j =
      if j = 4 + i.val then p else if j = 18 + i.val then true else b.raw.getLsbD j := by
    intro j hj
    have hi := slot_lt i
    cases p
    · simp only [r₂, r₁, Bool.false_eq_true, if_false, BitVec.getLsbD_and, BitVec.getLsbD_or,
        BitVec.getLsbD_not, getLsbD_one_shiftLeft, hj, decide_true, Bool.true_and]
      by_cases h4 : j = 4 + i.val
      · simp [h4]
      · by_cases h18 : j = 18 + i.val
        · simp [h18]
        · simp [h4, h18, Ne.symm h4, Ne.symm h18]
    · simp only [r₂, r₁, if_true, BitVec.getLsbD_or, getLsbD_one_shiftLeft, hj, decide_true,
        Bool.true_and]
      by_cases h4 : j = 4 + i.val
      · simp [h4]
      · by_cases h18 : j = 18 + i.val
        · simp [h18]
        · simp [h4, h18, Ne.symm h4, Ne.symm h18]
  have hsz : r₂ &&& sizeMask = b.raw &&& sizeMask := by
    apply and_sizeMask_congr
    intro j hj
    rw [hbit j (by omega), if_neg (by omega), if_neg (by omega)]
  have hnat : ((r₂ &&& sizeMask) + 1#32).toNat = b.size + 1 := by
    rw [hsz, BitVec.toNat_add]
    have : b.size = (b.raw &&& sizeMask).toNat := rfl
    rw [← this]
    simp only [BitVec.toNat_ofNat]
    omega
  have hset : (b.setSlot i p).raw = (r₂ &&& ~~~sizeMask) ||| ((r₂ &&& sizeMask) + 1#32) := rfl
  constructor
  · rw [size, hset, packSize_size _ _ (by omega), hnat]
  · intro j h4 hj
    have hi := slot_lt i
    rw [hset, getLsbD_packSize _ _ (by omega), if_neg (by omega), hbit j hj]
    by_cases e : j = 4 + i.val
    · rw [if_pos e, if_neg (by omega), if_pos e]
    · rw [if_neg e, if_neg e]

/-- `clearSlot` counts one item less and clears the two bits of its slot. -/
theorem clearSlot_spec (h : 0 < b.size) :
    (b.clearSlot i).size = b.size - 1 ∧
      ∀ j, 4 ≤ j → j < 32 → (b.clearSlot i).raw.getLsbD j =
        if j = 18 + i.val ∨ j = 4 + i.val then false else b.raw.getLsbD j := by
  let r := (b.raw &&& ~~~(1#32 <<< (18 + i.val))) &&& ~~~(1#32 <<< (4 + i.val))
  have hbit : ∀ j < 32, r.getLsbD j =
      if j = 18 + i.val ∨ j = 4 + i.val then false else b.raw.getLsbD j := by
    intro j hj
    simp only [r, BitVec.getLsbD_and, BitVec.getLsbD_not, getLsbD_one_shiftLeft, hj, decide_true,
      Bool.true_and]
    by_cases h4 : j = 4 + i.val
    · simp [h4]
    · by_cases h18 : j = 18 + i.val
      · simp [h18]
      · simp [h4, h18, Ne.symm h4, Ne.symm h18]
  have hi := slot_lt i
  have hsz : r &&& sizeMask = b.raw &&& sizeMask := by
    apply and_sizeMask_congr
    intro j hj
    rw [hbit j (by omega), if_neg (by omega)]
  have hle : b.size ≤ 15 := by
    rw [size, BitVec.toNat_and]
    exact Nat.and_le_right
  have hnat : ((r &&& sizeMask) - 1#32).toNat = b.size - 1 := by
    rw [hsz, BitVec.toNat_sub]
    have : b.size = (b.raw &&& sizeMask).toNat := rfl
    rw [← this]
    simp only [BitVec.toNat_ofNat]
    omega
  have hset : (b.clearSlot i).raw = (r &&& ~~~sizeMask) ||| ((r &&& sizeMask) - 1#32) := rfl
  constructor
  · rw [size, hset, packSize_size _ _ (by omega), hnat]
  · intro j h4 hj
    rw [hset, getLsbD_packSize _ _ (by omega), if_neg (by omega), hbit j hj]

variable {b : SlotBitmap} {i : Slot}

theorem setSlot_occupied {p : Bool} (h : b.size < 15) (j : Slot) :
    (b.setSlot i p).occupied j = (b.occupied j || decide (j = i)) := by
  have hj := slot_lt j
  have hi := slot_lt i
  rw [occupied_eq, occupied_eq, (setSlot_spec b i p h).2 _ (by omega) (by omega)]
  by_cases e : j = i
  · simp [e]
  · have hv : j.val ≠ i.val := fun hv => e (Fin.ext hv)
    rw [if_neg (by omega), if_neg (by omega)]
    simp [e]

theorem setSlot_probing {p : Bool} (h : b.size < 15) (j : Slot) :
    (b.setSlot i p).probing j = if j = i then p else b.probing j := by
  have hj := slot_lt j
  have hi := slot_lt i
  rw [probing_eq, probing_eq, (setSlot_spec b i p h).2 _ (by omega) (by omega)]
  by_cases e : j = i
  · subst e
    rw [if_neg (by omega), if_pos rfl, if_pos rfl]
  · have hv : j.val ≠ i.val := fun hv => e (Fin.ext hv)
    rw [if_neg (by omega), if_neg (by omega), if_neg e]

theorem clearSlot_occupied (h : 0 < b.size) (j : Slot) :
    (b.clearSlot i).occupied j = (b.occupied j && decide (j ≠ i)) := by
  have hj := slot_lt j
  have hi := slot_lt i
  rw [occupied_eq, occupied_eq, (clearSlot_spec b i h).2 _ (by omega) (by omega)]
  by_cases e : j = i
  · simp [e]
  · have hv : j.val ≠ i.val := fun hv => e (Fin.ext hv)
    rw [if_neg (by omega)]
    simp [e]

theorem clearSlot_probing (h : 0 < b.size) (j : Slot) :
    (b.clearSlot i).probing j = (b.probing j && decide (j ≠ i)) := by
  have hj := slot_lt j
  have hi := slot_lt i
  rw [probing_eq, probing_eq, (clearSlot_spec b i h).2 _ (by omega) (by omega)]
  by_cases e : j = i
  · simp [e]
  · have hv : j.val ≠ i.val := fun hv => e (Fin.ext hv)
    rw [if_neg (by omega)]
    simp [e]

theorem WF.size_le (h : b.WF) : b.size ≤ numSlots := by
  rw [h.size_eq]
  exact (Finset.card_le_univ _).trans_eq (Fintype.card_fin _)

theorem WF.size_lt (h : b.WF) : b.size < 15 :=
  Nat.lt_of_le_of_lt h.size_le (by decide)

theorem WF.size_pos (h : b.WF) (hi : b.occupied i = true) :
    0 < b.size := by
  rw [h.size_eq]
  exact Finset.card_pos.mpr ⟨i, by simp [hi]⟩

theorem WF.setSlot (h : b.WF) (hi : b.occupied i = false) (p : Bool) :
    (b.setSlot i p).WF := by
  have hlt := h.size_lt
  have hil := slot_lt i
  refine ⟨?_, ?_, ?_, ?_⟩
  · intro j hj
    have hj12 : 12 ≤ j := hj
    by_cases hw : 18 + j < 32
    · rw [busy, BitVec.getLsbD_ushiftRight, (setSlot_spec b i p hlt).2 _ (by omega) hw,
        if_neg (by omega), if_neg (by omega), ← BitVec.getLsbD_ushiftRight]
      exact h.busy_high j hj
    · rw [busy, BitVec.getLsbD_ushiftRight]
      exact BitVec.getLsbD_of_ge _ _ (by omega)
  · intro j hj hj'
    have hj12 : 12 ≤ j := hj
    rw [BitVec.getLsbD_ushiftRight, (setSlot_spec b i p hlt).2 _ (by omega) (by omega),
      if_neg (by omega), if_neg (by omega), ← BitVec.getLsbD_ushiftRight]
    exact h.probing_high j hj hj'
  · intro j hj
    rw [setSlot_probing hlt] at hj
    rw [setSlot_occupied hlt]
    by_cases e : j = i
    · simp [e]
    · rw [if_neg e] at hj
      simp [h.probing_busy j hj]
  · have hset : (Finset.univ.filter fun j => (b.setSlot i p).occupied j = true) =
        insert i (Finset.univ.filter fun j => b.occupied j = true) := by
      ext j
      simp [setSlot_occupied hlt, or_comm]
    rw [(setSlot_spec b i p hlt).1, hset, Finset.card_insert_of_notMem (by simp [hi]), h.size_eq]

theorem WF.clearSlot (h : b.WF) (hi : b.occupied i = true) :
    (b.clearSlot i).WF := by
  have hpos := h.size_pos hi
  have hil := slot_lt i
  refine ⟨?_, ?_, ?_, ?_⟩
  · intro j hj
    have hj12 : 12 ≤ j := hj
    by_cases hw : 18 + j < 32
    · rw [busy, BitVec.getLsbD_ushiftRight, (clearSlot_spec b i hpos).2 _ (by omega) hw,
        if_neg (by omega), ← BitVec.getLsbD_ushiftRight]
      exact h.busy_high j hj
    · rw [busy, BitVec.getLsbD_ushiftRight]
      exact BitVec.getLsbD_of_ge _ _ (by omega)
  · intro j hj hj'
    have hj12 : 12 ≤ j := hj
    rw [BitVec.getLsbD_ushiftRight, (clearSlot_spec b i hpos).2 _ (by omega) (by omega),
      if_neg (by omega), ← BitVec.getLsbD_ushiftRight]
    exact h.probing_high j hj hj'
  · intro j hj
    rw [clearSlot_probing hpos, Bool.and_eq_true] at hj
    rw [clearSlot_occupied hpos, h.probing_busy j hj.1, hj.2]
    rfl
  · have hset : (Finset.univ.filter fun j => (b.clearSlot i).occupied j = true) =
        (Finset.univ.filter fun j => b.occupied j = true).erase i := by
      ext j
      simp [clearSlot_occupied hpos, and_comm]
    rw [(clearSlot_spec b i hpos).1, hset, Finset.card_erase_of_mem (by simp [hi]), h.size_eq]

theorem getLsbD_free (b : SlotBitmap) (j : Nat) :
    (~~~b.busy &&& allocMask).getLsbD j = (decide (j < numSlots) && !b.busy.getLsbD j) := by
  rw [BitVec.getLsbD_and, BitVec.getLsbD_not, getLsbD_allocMask]
  by_cases hj : j < numSlots
  · have hw : j < 32 := Nat.lt_trans hj (by decide)
    simp [hj, hw]
  · simp [hj]

theorem findEmpty_some (h : b.findEmpty = some i) :
    b.occupied i = false := by
  simp only [findEmpty] at h
  split at h
  · cases h
  · next hne =>
    obtain ⟨_, ht, _⟩ := trailingZeros_spec hne
    rw [getLsbD_free, Bool.and_eq_true, decide_eq_true_eq] at ht
    have hi : i.val = trailingZeros (~~~b.busy &&& allocMask) := by
      rw [← Option.some.inj h]
      exact Nat.mod_eq_of_lt ht.1
    rw [occupied, hi]
    simpa using ht.2

theorem findEmpty_isSome (h : b.occupied i = false) :
    b.findEmpty.isSome = true := by
  simp only [findEmpty]
  split
  · next h0 =>
    have hf := getLsbD_free b i.val
    rw [h0, show b.busy.getLsbD i.val = false from h] at hf
    simp at hf
  · rfl

/-- A bitmap is full exactly when every slot is busy. -/
theorem WF.isFull_iff (h : b.WF) : b.isFull = true ↔ ∀ i, b.occupied i = true := by
  rw [isFull, beq_iff_eq, h.size_eq]
  constructor
  · intro hc i
    have huniv := (Finset.card_eq_iff_eq_univ _).mp (hc.trans (Fintype.card_fin _).symm)
    have hmem : i ∈ Finset.univ.filter fun i => b.occupied i = true := by
      rw [huniv]
      exact Finset.mem_univ i
    simpa using hmem
  · intro hall
    rw [Finset.filter_true_of_mem (fun i _ => hall i)]
    exact Fintype.card_fin _

theorem WF.findEmpty_of_not_full (h : b.WF) (hf : b.isFull = false) :
    ∃ i, b.findEmpty = some i ∧ b.occupied i = false := by
  have hex : ∃ i, b.occupied i = false := by
    by_contra hn
    push Not at hn
    have := h.isFull_iff.mpr (fun i => by simpa using hn i)
    rw [hf] at this
    cases this
  obtain ⟨i, hi⟩ := hex
  obtain ⟨j, hj⟩ := Option.isSome_iff_exists.mp (findEmpty_isSome hi)
  exact ⟨j, hj, findEmpty_some hj⟩

theorem WF.isFull_iff_findEmpty (h : b.WF) : b.isFull = true ↔ b.findEmpty = none := by
  constructor
  · intro hf
    rw [Option.eq_none_iff_forall_ne_some]
    intro i hi
    have hfree := findEmpty_some hi
    rw [h.isFull_iff.mp hf i] at hfree
    cases hfree
  · intro hnone
    by_contra hf
    obtain ⟨i, hi, _⟩ := h.findEmpty_of_not_full (Bool.eq_false_iff.mpr hf)
    rw [hnone] at hi
    cases hi

end SlotBitmap

/-- The slots the loop over a mask visits. -/
def slotsOf (mask : BitVec 32) : List Slot := (setBits mask).map (Fin.ofNat numSlots)

theorem slotsOf_eq_filter {m : BitVec 32} (h : ∀ j, numSlots ≤ j → m.getLsbD j = false) :
    slotsOf m = (List.finRange numSlots).filter fun i => m.getLsbD i.val := by
  have hsplit : (List.range 32).filter m.getLsbD = (List.range numSlots).filter m.getLsbD := by
    rw [show List.range 32 = List.range (numSlots + 20) by rfl, List.range_add, List.filter_append]
    have hnil : ((List.range 20).map (numSlots + ·)).filter m.getLsbD = [] := by
      rw [List.filter_eq_nil_iff]
      intro j hj
      obtain ⟨k, _, rfl⟩ := List.mem_map.mp hj
      simp [h (numSlots + k) (Nat.le_add_right ..)]
    rw [hnil, List.append_nil]
  rw [slotsOf, setBits_eq_filter, hsplit, ← List.map_coe_finRange_eq_range, List.filter_map,
    List.map_map]
  have hid : Fin.ofNat numSlots ∘ Fin.val = (id : Slot → Slot) := by
    funext i
    exact Fin.ofNat_val_eq_self i
  rw [hid, List.map_id]
  rfl

end ShrikeDb.Dash
