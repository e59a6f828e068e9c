import Mathlib.Data.Multiset.AddSub
import Mathlib.Data.Multiset.UnionInter
import ShrikeDb.Dash.Bucket
import ShrikeDb.Lib.IndexedLists

/-! The stash metadata of a home bucket, read as a multiset of references and an
overflow count. `setStashPtr` adds a reference or counts one more untracked
item; `unsetStashPtr` takes a matching reference back or, failing that, one of
the overflow. The four pointer slots, their packed positions and the flag bit
do not appear after this module. -/

namespace ShrikeDb.Dash

open BitLoop Multiset

/-- What a pointer records of a stash item: its fingerprint and stash bucket. -/
abbrev StashRef := UInt8 × StashId

/-! ## References to the stash -/

/-- The references a home bucket holds and the number of items it only counts. -/
@[ext] structure StashMeta where
  refs : Multiset StashRef
  overflow : Nat

namespace StashMeta

/-- An item with reference `r` is looked for in its stash bucket. -/
def Covers (m : StashMeta) (r : StashRef) : Prop := r ∈ m.refs ∨ 0 < m.overflow

/-- `m'` records one item more than `m`, by reference or by count. -/
def Adds (m : StashMeta) (r : StashRef) (m' : StashMeta) : Prop :=
  m' = ⟨r ::ₘ m.refs, m.overflow⟩ ∨ m' = ⟨m.refs, m.overflow + 1⟩

/-- One matching reference is given up or, if there is none, one of the count. -/
def take (m : StashMeta) (r : StashRef) : StashMeta :=
  ⟨m.refs.erase r, if r ∈ m.refs then m.overflow else m.overflow - 1⟩

/-- Nothing is recorded that is not among the items `R` of the bucket's stash. -/
structure Bounded (m : StashMeta) (R : Multiset StashRef) : Prop where
  refs_le : m.refs ≤ R
  card_le : card m.refs + m.overflow ≤ card R

variable {m m' : StashMeta} {r : StashRef} {R : Multiset StashRef}

theorem Adds.covers_new (h : Adds m r m') : m'.Covers r := by
  rcases h with rfl | rfl
  · exact Or.inl (mem_cons_self ..)
  · exact Or.inr (Nat.succ_pos _)

theorem Adds.covers {r' : StashRef} (h : Adds m r m') (hc : m.Covers r') :
    m'.Covers r' := by
  rcases h with rfl | rfl
  · exact hc.imp_left mem_cons_of_mem
  · exact Or.inr (Nat.succ_pos _)

theorem Adds.bounded (h : Adds m r m') (hb : m.Bounded R) : m'.Bounded (r ::ₘ R) := by
  have hc := hb.card_le
  rcases h with rfl | rfl
  · refine ⟨cons_le_cons r hb.refs_le, ?_⟩
    simp only [card_cons]
    omega
  · refine ⟨hb.refs_le.trans (le_cons_self _ _), ?_⟩
    simp only [card_cons]
    omega

theorem take_overflow_le (m : StashMeta) (r : StashRef) : (m.take r).overflow ≤ m.overflow := by
  unfold take
  split
  · exact Nat.le_refl _
  · exact Nat.sub_le _ _

theorem Bounded.take (hb : m.Bounded R) (r : StashRef) :
    (m.take r).Bounded R := by
  have hle : (m.take r).refs ≤ m.refs := erase_le _ _
  have ho := take_overflow_le m r
  have hcard := card_le_card hle
  exact ⟨hle.trans hb.refs_le, by have := hb.card_le; omega⟩

/-- The item that leaves the stash is no longer counted. -/
theorem Bounded.take_cons (hb : m.Bounded (r ::ₘ R)) : (m.take r).Bounded R := by
  have hle : (m.take r).refs ≤ R := by
    have := erase_le_erase r hb.refs_le
    rwa [erase_cons_head] at this
  refine ⟨hle, ?_⟩
  have hcard := hb.card_le
  rw [card_cons] at hcard
  by_cases hr : r ∈ m.refs
  · have h1 : (m.take r).overflow = m.overflow := if_pos hr
    have h2 : card (m.take r).refs + 1 = card m.refs := card_erase_add_one hr
    omega
  · have h1 : (m.take r).overflow = m.overflow - 1 := if_neg hr
    have h2 : (m.take r).refs = m.refs := erase_of_notMem hr
    have h3 := card_le_card hle
    rw [h2] at h3 ⊢
    omega

end StashMeta

/-! ## The metadata of a bucket -/

namespace Bucket

variable {K V : Type}

/-- The reference held by pointer slot `i`. -/
def ptr (b : Bucket K V) (i : StashId) : Option StashRef :=
  if b.stashBusy.getLsbD i.val then
    some (b.stashFps i, Fin.ofNat numStash (b.stashPosAt i).toNat)
  else none

/-- All references a bucket holds. -/
def refs (b : Bucket K V) : Multiset StashRef := ((List.finRange numStash).filterMap b.ptr : List _)

def overflow (b : Bucket K V) : Nat := b.overflowCount.toNat

def stashMeta (b : Bucket K V) : StashMeta := ⟨b.refs, b.overflow⟩

/-- The has-stash flag is set exactly when something is recorded, and no active
pointer is marked as probing. -/
structure StashWF (b : Bucket K V) : Prop where
  flag : b.hasStash = true ↔ b.refs ≠ 0 ∨ 0 < b.overflow
  owned : ∀ i : StashId, b.stashBusy.getLsbD i.val = true → b.stashProbeMask.getLsbD i.val = false

theorem stashWF_new : (new : Bucket K V).StashWF where
  flag := by
    have hp : (new : Bucket K V).refs = 0 := by simp [refs, ptr, new]
    rw [hp]
    simp [hasStash, overflow, new]
  owned := by intro i h; simp [new] at h

theorem stash_lt (i : StashId) : i.val < 4 := i.isLt

theorem and_bit_eq_zero (m : BitVec 8) (i : Nat) (hi : i < 8) :
    m &&& (1#8 <<< i) = 0#8 ↔ m.getLsbD i = false := by
  constructor
  · intro h
    have := congrArg (fun x => x.getLsbD i) h
    simpa [hi, -BitVec.getLsbD_eq_getElem] using this
  · intro h
    apply BitVec.eq_of_getLsbD_eq
    intro j _
    rw [BitVec.getLsbD_and, getLsbD_one_shiftLeft]
    by_cases e : i = j
    · subst e
      rw [h]
      simp
    · simp [e]

theorem hasStash_iff (b : Bucket K V) : b.hasStash = b.stashBusy.getLsbD 4 := by
  rw [hasStash, show (0x10#8) = 1#8 <<< 4 by decide, Bool.eq_iff_iff, bne_iff_ne, ne_eq,
    and_bit_eq_zero _ 4 (by decide), Bool.not_eq_false]

theorem getLsbD_three (k : Nat) : (3#8).getLsbD k = decide (k < 2) := by
  have h := Nat.testBit_two_pow_sub_one 2 k
  rw [BitVec.getLsbD_ofNat, show (3 : Nat) = 2 ^ 2 - 1 by rfl, h]
  by_cases hk : k < 2
  · have hw : k < 8 := by omega
    simp [hk, hw]
  · simp [hk]

theorem getLsbD_of_lt_four {x : BitVec 8} (h : x.toNat < 4) {k : Nat} (hk : 2 ≤ k) :
    x.getLsbD k = false := by
  apply Nat.testBit_lt_two_pow
  calc x.toNat < 2 ^ 2 := h
    _ ≤ 2 ^ k := Nat.pow_le_pow_right (by decide) hk

/-- A two-bit field is written without touching the others. -/
theorem field_write (x id : BitVec 8) (hid : id.toNat < 4) (i j : StashId) :
    ((((x &&& ~~~(3#8 <<< (i.val * 2))) ||| (id <<< (i.val * 2))) >>> (j.val * 2)) &&& 3#8) =
      if j = i then id else (x >>> (j.val * 2)) &&& 3#8 := by
  have hi := stash_lt i
  have hj := stash_lt j
  apply BitVec.eq_of_getLsbD_eq
  intro k hk
  by_cases hk2 : k < 2
  · have hw : j.val * 2 + k < 8 := by omega
    have hl : ((((x &&& ~~~(3#8 <<< (i.val * 2))) ||| (id <<< (i.val * 2))) >>> (j.val * 2)) &&&
        3#8).getLsbD k = (x.getLsbD (j.val * 2 + k) &&
          !(!decide (j.val * 2 + k < i.val * 2) && decide (j.val * 2 + k - i.val * 2 < 2)) ||
          (!decide (j.val * 2 + k < i.val * 2) && id.getLsbD (j.val * 2 + k - i.val * 2))) := by
      simp only [BitVec.getLsbD_and, BitVec.getLsbD_or, BitVec.getLsbD_not,
        BitVec.getLsbD_ushiftRight, BitVec.getLsbD_shiftLeft, getLsbD_three, hw, hk2, decide_true,
        Bool.true_and, Bool.and_true]
    rw [hl]
    by_cases e : j = i
    · subst e
      have h1 : ¬ j.val * 2 + k < j.val * 2 := by omega
      rw [if_pos rfl]
      simp [h1, hk2, -BitVec.getLsbD_eq_getElem]
    · have hv : j.val ≠ i.val := fun hv => e (Fin.ext hv)
      rw [if_neg e, BitVec.getLsbD_and, BitVec.getLsbD_ushiftRight, getLsbD_three]
      by_cases hlt : j.val < i.val
      · have h1 : j.val * 2 + k < i.val * 2 := by omega
        simp [h1, hk2, -BitVec.getLsbD_eq_getElem]
      · have h1 : ¬ j.val * 2 + k < i.val * 2 := by omega
        have h2 : ¬ j.val * 2 + k - i.val * 2 < 2 := by omega
        rw [getLsbD_of_lt_four hid (by omega : 2 ≤ j.val * 2 + k - i.val * 2)]
        simp [h1, h2, hk2, -BitVec.getLsbD_eq_getElem]
  · rw [BitVec.getLsbD_and, getLsbD_three]
    by_cases e : j = i
    · rw [if_pos e, getLsbD_of_lt_four hid (by omega)]
      simp [hk2]
    · rw [if_neg e, BitVec.getLsbD_and, getLsbD_three]
      simp [hk2]

theorem stashPosAt_lt (b : Bucket K V) (i : StashId) : (b.stashPosAt i).toNat < 4 := by
  rw [stashPosAt, BitVec.toNat_and]
  exact Nat.lt_of_le_of_lt Nat.and_le_right (by decide)

variable {b b' : Bucket K V}

theorem refs_eq_zero :
    b.refs = 0 ↔ ∀ i : StashId, b.stashBusy.getLsbD i.val = false := by
  rw [refs, coe_eq_zero, List.filterMap_eq_nil_iff]
  constructor
  · intro h i
    have hi := h i (List.mem_finRange i)
    by_contra hb
    simp [ptr, hb] at hi
  · intro h i _
    rw [ptr, h i]
    rfl

theorem mem_refs {r : StashRef} : r ∈ b.refs ↔ ∃ i, b.ptr i = some r := by
  simp [refs]

theorem low_bits_eq_zero (m : BitVec 8) :
    m &&& 0x0F#8 = 0#8 ↔ ∀ i : StashId, m.getLsbD i.val = false := by
  have hmask : ∀ j, (0x0F#8).getLsbD j = decide (j < 4) := by
    intro j
    have h := Nat.testBit_two_pow_sub_one 4 j
    rw [BitVec.getLsbD_ofNat, show (0x0F : Nat) = 2 ^ 4 - 1 by rfl, h]
    by_cases hj : j < 4
    · have hw : j < 8 := by omega
      simp [hj, hw]
    · simp [hj]
  constructor
  · intro h i
    have hi := stash_lt i
    have := congrArg (fun x => x.getLsbD i.val) h
    simpa [hmask, hi, -BitVec.getLsbD_eq_getElem] using this
  · intro h
    apply BitVec.eq_of_getLsbD_eq
    intro j _
    rw [BitVec.getLsbD_and, hmask]
    by_cases hj : j < 4
    · rw [h ⟨j, hj⟩]
      simp
    · simp [hj]

/-- Bit 4 is not a pointer bit. -/
theorem getLsbD_flag (i : StashId) : (0x10#8).getLsbD i.val = false := by
  have hi := stash_lt i
  rw [show (0x10#8) = 1#8 <<< 4 by decide, getLsbD_one_shiftLeft]
  simp
  omega

/-- Two buckets with the same items. -/
structure SameSlots (b b' : Bucket K V) : Prop where
  slots : b'.slots = b.slots
  fingerprints : b'.fingerprints = b.fingerprints
  keys : b'.keys = b.keys
  values : b'.values = b.values

theorem SameSlots.item (h : SameSlots b b') : b'.item = b.item := by
  funext i
  rw [Bucket.item, Bucket.item, h.keys, h.values]

theorem SameSlots.wf (h : SameSlots b b') (hb : b.WF) : b'.WF where
  slots := by rw [h.slots]; exact hb.slots
  keys := by rw [h.slots, h.keys]; exact hb.keys
  values := by rw [h.slots, h.values]; exact hb.values

theorem clearStashFlag_sameSlots (b : Bucket K V) : SameSlots b b.clearStashFlag := by
  unfold clearStashFlag
  split <;> exact ⟨rfl, rfl, rfl, rfl⟩

theorem setStashPtr_sameSlots (b : Bucket K V) (id : BitVec 8) (fp : UInt8) (probing : Bool) :
    SameSlots b (b.setStashPtr id fp probing) := by
  unfold setStashPtr
  split <;> exact ⟨rfl, rfl, rfl, rfl⟩

theorem unsetStashPtr_sameSlots (b : Bucket K V) (fp : UInt8) (id : BitVec 8) :
    SameSlots b (b.unsetStashPtr fp id).1 := by
  unfold unsetStashPtr
  split
  · rename_i i _
    have h := clearStashFlag_sameSlots { b with stashBusy := b.stashBusy &&& ~~~(1#8 <<< i.val) }
    exact ⟨h.slots, h.fingerprints, h.keys, h.values⟩
  · split
    · have h := clearStashFlag_sameSlots { b with overflowCount := b.overflowCount - 1#8 }
      exact ⟨h.slots, h.fingerprints, h.keys, h.values⟩
    · exact ⟨rfl, rfl, rfl, rfl⟩

theorem ptr_congr {i : StashId} (hbusy : b'.stashBusy.getLsbD i.val = b.stashBusy.getLsbD i.val)
    (hfp : b'.stashFps i = b.stashFps i) (hpos : b'.stashPosAt i = b.stashPosAt i) :
    b'.ptr i = b.ptr i := by
  rw [ptr, ptr, hbusy, hfp, hpos]

/-- What is left of the stash metadata after the flag is recomputed. -/
theorem clearStashFlag_spec (hflag : b.hasStash = true)
    (howned : ∀ i : StashId, b.stashBusy.getLsbD i.val = true →
      b.stashProbeMask.getLsbD i.val = false) :
    b.clearStashFlag.StashWF ∧ b.clearStashFlag.refs = b.refs ∧
      b.clearStashFlag.overflow = b.overflow := by
  by_cases hc : b.stashBusy &&& 0x0F#8 = 0#8 ∧ b.overflowCount = 0#8
  · have hdef : b.clearStashFlag = { b with stashBusy := b.stashBusy &&& ~~~0x10#8 } := if_pos hc
    have hbit : ∀ i : StashId,
        (b.stashBusy &&& ~~~0x10#8).getLsbD i.val = b.stashBusy.getLsbD i.val := by
      intro i
      have hi := stash_lt i
      have hw : i.val < 8 := by omega
      rw [BitVec.getLsbD_and, BitVec.getLsbD_not, getLsbD_flag]
      simp [hw]
    have hptr : b.clearStashFlag.ptr = b.ptr := by
      funext i
      rw [hdef]
      exact ptr_congr (hbit i) rfl rfl
    have hrefs : b.clearStashFlag.refs = b.refs := by rw [refs, refs, hptr]
    have hover : b.clearStashFlag.overflow = b.overflow := by rw [hdef]; rfl
    refine ⟨⟨?_, ?_⟩, hrefs, hover⟩
    · have hz : b.refs = 0 := refs_eq_zero.mpr ((low_bits_eq_zero _).mp hc.1)
      have ho : b.overflow = 0 := by rw [overflow, hc.2]; rfl
      rw [hrefs, hover, hz, ho, hasStash_iff, hdef]
      simp
    · intro i hi
      rw [hdef] at hi ⊢
      exact howned i (by rw [← hbit i]; exact hi)
  · have hdef : b.clearStashFlag = b := if_neg hc
    rw [hdef]
    refine ⟨⟨?_, howned⟩, rfl, rfl⟩
    constructor
    · intro _
      by_contra hn
      rw [not_or, not_not, Nat.not_lt, Nat.le_zero] at hn
      exact hc ⟨(low_bits_eq_zero _).mpr (refs_eq_zero.mp hn.1), BitVec.eq_of_toNat_eq hn.2⟩
    · intro _
      exact hflag

theorem id_toNat (id : StashId) : (BitVec.ofNat 8 id.val).toNat = id.val := by
  have hid := stash_lt id
  rw [BitVec.toNat_ofNat]
  exact Nat.mod_eq_of_lt (by omega)

theorem ofNat_stashId (id : StashId) : Fin.ofNat numStash id.val = id :=
  Fin.ext (Nat.mod_eq_of_lt id.isLt)

theorem getLsbD_set_busy (m : BitVec 8) (i j : StashId) :
    (m ||| (1#8 <<< i.val) ||| 0x10#8).getLsbD j.val = (m.getLsbD j.val || decide (j = i)) := by
  have hi := stash_lt i
  have hj := stash_lt j
  have hw : j.val < 8 := by omega
  rw [BitVec.getLsbD_or, BitVec.getLsbD_or, getLsbD_flag, getLsbD_one_shiftLeft]
  simp [hw, Fin.ext_iff, eq_comm]

theorem setStashPtr_of_free {b : Bucket K V} (h : b.StashWF) {i : StashId}
    (hfree : b.stashBusy.getLsbD i.val = false) (fp : UInt8) (id : StashId) (b' : Bucket K V)
    (hb' : b' = { b with
      stashFps := Function.update b.stashFps i fp
      stashPos := (b.stashPos &&& ~~~(3#8 <<< (i.val * 2))) |||
        (BitVec.ofNat 8 id.val <<< (i.val * 2))
      stashBusy := (b.stashBusy ||| (1#8 <<< i.val)) ||| 0x10#8
      stashProbeMask := b.stashProbeMask &&& ~~~(1#8 <<< i.val) }) :
    b'.StashWF ∧ b'.refs = (fp, id) ::ₘ b.refs ∧ b'.overflow = b.overflow := by
  have hbusy : ∀ j : StashId, b'.stashBusy.getLsbD j.val =
      (b.stashBusy.getLsbD j.val || decide (j = i)) := by
    intro j
    rw [hb']
    exact getLsbD_set_busy _ _ _
  have hpos : ∀ j : StashId, b'.stashPosAt j =
      if j = i then BitVec.ofNat 8 id.val else b.stashPosAt j := by
    intro j
    rw [hb']
    exact field_write _ _ (by rw [id_toNat]; exact stash_lt id) i j
  have hself : b'.ptr i = some (fp, id) := by
    have hfp : b'.stashFps i = fp := by rw [hb']; simp
    rw [ptr, hbusy, hpos, hfp, if_pos rfl, id_toNat, ofNat_stashId]
    simp
  have hother : ∀ j, j ≠ i → b'.ptr j = b.ptr j := by
    intro j e
    apply ptr_congr
    · rw [hbusy]; simp [e]
    · rw [hb']; simp [e]
    · rw [hpos, if_neg e]
  have hrefs : b'.refs = (fp, id) ::ₘ b.refs := by
    have hnone : b.ptr i = none := by simp [ptr, hfree]
    exact coe_eq_coe.mpr (IndexedLists.filterMap_perm_cons (List.nodup_finRange _)
      (List.mem_finRange i) (fun j _ e => hother j e) hnone hself)
  have hflag : b'.hasStash = true := by rw [hasStash_iff, hb']; simp
  refine ⟨⟨?_, ?_⟩, hrefs, by rw [hb']; rfl⟩
  · rw [hflag, hrefs]
    simp
  · intro j hj
    have hjl := stash_lt j
    have hw : j.val < 8 := by omega
    have hprobe : b'.stashProbeMask.getLsbD j.val =
        (b.stashProbeMask.getLsbD j.val && !decide (i.val = j.val)) := by
      rw [hb', BitVec.getLsbD_and, BitVec.getLsbD_not, getLsbD_one_shiftLeft]
      simp [hw, -BitVec.getLsbD_eq_getElem]
    rw [hprobe]
    by_cases e : j = i
    · simp [e]
    · rw [hbusy, Bool.or_eq_true, decide_eq_true_eq] at hj
      rw [h.owned j (hj.resolve_right e)]
      rfl

/-- A new stash item is recorded by a pointer, or counted when all four are in use. -/
theorem setStashPtr_spec (h : b.StashWF) (hover : b.overflow < 255) (fp : UInt8) (id : StashId) :
    (b.setStashPtr (BitVec.ofNat 8 id.val) fp false).StashWF ∧
      b.stashMeta.Adds (fp, id) (b.setStashPtr (BitVec.ofNat 8 id.val) fp false).stashMeta := by
  rcases hf : (List.finRange numStash).find? (fun i => b.stashBusy &&& (1#8 <<< i.val) == 0#8) with
    _ | i
  · have hdef : b.setStashPtr (BitVec.ofNat 8 id.val) fp false = { b with
        overflowCount := b.overflowCount + 1#8
        stashBusy := b.stashBusy ||| 0x10#8 } := by rw [setStashPtr, hf]
    rw [hdef]
    have hbit : ∀ i : StashId,
        (b.stashBusy ||| 0x10#8).getLsbD i.val = b.stashBusy.getLsbD i.val := by
      intro i
      rw [BitVec.getLsbD_or, getLsbD_flag, Bool.or_false]
    have hrefs : ({ b with
        overflowCount := b.overflowCount + 1#8
        stashBusy := b.stashBusy ||| 0x10#8 } : Bucket K V).refs = b.refs := by
      unfold refs
      congr 2
      funext i
      exact ptr_congr (hbit i) rfl rfl
    have hcount : ({ b with
        overflowCount := b.overflowCount + 1#8
        stashBusy := b.stashBusy ||| 0x10#8 } : Bucket K V).overflow = b.overflow + 1 := by
      unfold overflow at hover ⊢
      rw [BitVec.toNat_add]
      exact Nat.mod_eq_of_lt (by simpa using by omega)
    refine ⟨⟨?_, ?_⟩, Or.inr (StashMeta.ext hrefs hcount)⟩
    · rw [hasStash_iff, hcount]
      simp
    · intro i hi
      exact h.owned i (by rw [← hbit i]; exact hi)
  · have hfree := List.find?_some hf
    have hw := stash_lt i
    rw [beq_iff_eq, and_bit_eq_zero _ _ (by omega)] at hfree
    obtain ⟨hwf, hrefs, hsame⟩ := setStashPtr_of_free h hfree fp id
      (b.setStashPtr (BitVec.ofNat 8 id.val) fp false) (by rw [setStashPtr, hf]; rfl)
    exact ⟨hwf, Or.inl (StashMeta.ext hrefs hsame)⟩

theorem ptr_match (b : Bucket K V) (fp : UInt8) (id i : StashId) :
    (b.stashBusy &&& (1#8 <<< i.val) != 0#8 && b.stashFps i == fp &&
      b.stashPosAt i == BitVec.ofNat 8 id.val) = true ↔ b.ptr i = some (fp, id) := by
  have hw := stash_lt i
  have hlt := stashPosAt_lt b i
  have hpos : b.stashPosAt i = BitVec.ofNat 8 id.val ↔
      Fin.ofNat numStash (b.stashPosAt i).toNat = id := by
    rw [Fin.ext_iff, ← BitVec.toNat_inj, id_toNat]
    have hmod : (Fin.ofNat numStash (b.stashPosAt i).toNat).val = (b.stashPosAt i).toNat :=
      Nat.mod_eq_of_lt hlt
    rw [hmod]
  rw [Bool.and_eq_true, Bool.and_eq_true, bne_iff_ne, ne_eq, and_bit_eq_zero _ _ (by omega),
    beq_iff_eq, beq_iff_eq, hpos, Bool.not_eq_false, ptr]
  by_cases hb : b.stashBusy.getLsbD i.val = true
  · simp [hb, -BitVec.getLsbD_eq_getElem]
  · simp [hb, -BitVec.getLsbD_eq_getElem]

theorem unsetStashPtr_of_ptr (h : b.StashWF) {i : StashId} {r : StashRef} (hi : b.ptr i = some r)
    (hb' : b' = { b with stashBusy := b.stashBusy &&& ~~~(1#8 <<< i.val) }) :
    b'.clearStashFlag.StashWF ∧ b'.clearStashFlag.refs = b.refs.erase r ∧
      b'.clearStashFlag.overflow = b.overflow := by
  have hbusy : ∀ j : StashId, b'.stashBusy.getLsbD j.val =
      (b.stashBusy.getLsbD j.val && !decide (j = i)) := by
    intro j
    have hj := stash_lt j
    have hw : j.val < 8 := by omega
    rw [hb', BitVec.getLsbD_and, BitVec.getLsbD_not, getLsbD_one_shiftLeft]
    simp [hw, Fin.ext_iff, eq_comm, -BitVec.getLsbD_eq_getElem]
  have hrefs : b'.refs = b.refs.erase r := by
    have hcons : b.refs = r ::ₘ b'.refs := by
      refine coe_eq_coe.mpr (IndexedLists.filterMap_perm_cons (List.nodup_finRange _)
        (List.mem_finRange i) (fun j _ e => ?_) ?_ hi)
      · refine ptr_congr ?_ (by rw [hb']) (by rw [hb']; rfl)
        rw [hbusy]
        simp [e]
      · simp [ptr, hbusy]
    rw [hcons, erase_cons_head]
  have hflag : b'.hasStash = true := by
    have hne0 : b.refs ≠ 0 := by
      intro hz
      have hm := mem_refs.mpr ⟨i, hi⟩
      rw [hz] at hm
      exact notMem_zero _ hm
    have hb := h.flag.mpr (Or.inl hne0)
    have hi4 := stash_lt i
    have hne : ¬ i.val = 4 := by omega
    rw [hasStash_iff] at hb ⊢
    rw [hb', BitVec.getLsbD_and, BitVec.getLsbD_not, getLsbD_one_shiftLeft, hb]
    simp [hne]
  obtain ⟨hwf, hr, ho⟩ := clearStashFlag_spec hflag (by
    intro j hj
    rw [hbusy, Bool.and_eq_true] at hj
    rw [hb']
    exact h.owned j hj.1)
  exact ⟨hwf, hr.trans hrefs, ho.trans (by rw [hb']; rfl)⟩

/-- A deletion takes back one matching pointer or, if there is none, one overflow. -/
theorem unsetStashPtr_spec (h : b.StashWF) (fp : UInt8) (id : StashId) :
    (b.unsetStashPtr fp (BitVec.ofNat 8 id.val)).1.StashWF ∧
      (b.unsetStashPtr fp (BitVec.ofNat 8 id.val)).1.stashMeta = b.stashMeta.take (fp, id) := by
  rcases hf : (List.finRange numStash).find? (fun i => b.stashBusy &&& (1#8 <<< i.val) != 0#8 &&
      b.stashFps i == fp && b.stashPosAt i == BitVec.ofNat 8 id.val) with _ | i
  · have hmem : (fp, id) ∉ b.refs := by
      intro hm
      obtain ⟨i, hi⟩ := mem_refs.mp hm
      exact List.find?_eq_none.mp hf i (List.mem_finRange i) ((ptr_match b fp id i).mpr hi)
    have htake : b.stashMeta.take (fp, id) = ⟨b.refs, b.overflow - 1⟩ :=
      StashMeta.ext (erase_of_notMem hmem) (if_neg hmem)
    rw [htake, unsetStashPtr, hf]
    by_cases ho : 0#8 < b.overflowCount
    · have hpos : 0 < b.overflow := BitVec.lt_def.mp ho
      have hcount : ({ b with overflowCount := b.overflowCount - 1#8 } : Bucket K V).overflow =
          b.overflow - 1 := by
        have hlt := b.overflowCount.isLt
        unfold overflow at hpos ⊢
        rw [BitVec.toNat_sub_of_le (BitVec.le_def.mpr (by simpa using by omega))]
        rfl
      obtain ⟨hwf, hr, hov⟩ := clearStashFlag_spec
        (b := { b with overflowCount := b.overflowCount - 1#8 }) (h.flag.mpr (Or.inr hpos)) h.owned
      simp only [ho, if_true]
      exact ⟨hwf, StashMeta.ext hr (hov.trans hcount)⟩
    · have hz : b.overflow = 0 := by
        by_contra hne
        exact ho (BitVec.lt_def.mpr (Nat.pos_of_ne_zero hne))
      simp only [ho, if_false]
      exact ⟨h, StashMeta.ext rfl (by rw [stashMeta, hz])⟩
  · have hmatch := List.find?_some hf
    have hi := (ptr_match b fp id i).mp hmatch
    rw [unsetStashPtr, hf]
    obtain ⟨hwf, hr, hov⟩ := unsetStashPtr_of_ptr h hi rfl
    have hmem : (fp, id) ∈ b.refs := mem_refs.mpr ⟨i, hi⟩
    exact ⟨hwf, StashMeta.ext hr (hov.trans (if_pos hmem).symm)⟩

end Bucket

end ShrikeDb.Dash
