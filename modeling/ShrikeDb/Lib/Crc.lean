import Mathlib.Data.Nat.Bitwise
import Mathlib.Logic.Function.Iterate
import ShrikeDb.Lib.ByteOrder

/-! Reflected cyclic redundancy checks of 64 bits. The register is linear and, if the
polynomial has its top bit, reversible; so two byte strings that differ in at most eight
bytes in a row always have different checksums. -/

namespace Crc

open ByteOrder Function

/-- The register after one bit of zeros. -/
def bit (poly c : UInt64) : UInt64 := if c &&& 1 ≠ 0 then (c >>> 1) ^^^ poly else c >>> 1

def step (poly c : UInt64) (byte : UInt8) : UInt64 := (bit poly)^[8] (c ^^^ byte.toUInt64)

variable {poly : UInt64}

variable (c : UInt64)

theorem and_one_ne_zero : c &&& 1 ≠ 0 ↔ c.toNat % 2 = 1 := by
  have hand : (c &&& 1).toNat = c.toNat % 2 := by
    rw [UInt64.toNat_and]
    exact Nat.and_one_is_mod _
  rw [Ne, ← UInt64.toNat_inj, hand]
  have hzero : (0 : UInt64).toNat = 0 := rfl
  rw [hzero]
  omega

theorem bit_of_odd {c : UInt64} (h : c.toNat % 2 = 1) : bit poly c = (c >>> 1) ^^^ poly :=
  if_pos ((and_one_ne_zero c).mpr h)

theorem bit_of_even {c : UInt64} (h : c.toNat % 2 = 0) : bit poly c = c >>> 1 :=
  if_neg fun hodd => by
    have := (and_one_ne_zero c).mp hodd
    omega

theorem toNat_shiftRight_one : (c >>> 1).toNat = c.toNat / 2 := by
  rw [UInt64.toNat_shiftRight]
  exact Nat.shiftRight_one _

theorem bit_xor (a b : UInt64) : bit poly (a ^^^ b) = bit poly a ^^^ bit poly b := by
  have hparity : (a ^^^ b).toNat % 2 = (a.toNat + b.toNat) % 2 := by
    rw [UInt64.toNat_xor]
    exact Nat.xor_mod_two_eq
  rcases Nat.mod_two_eq_zero_or_one a.toNat with ha | ha <;>
    rcases Nat.mod_two_eq_zero_or_one b.toNat with hb | hb
  · rw [bit_of_even ha, bit_of_even hb, bit_of_even (by omega), UInt64.shiftRight_xor]
  · rw [bit_of_even ha, bit_of_odd hb, bit_of_odd (by omega), UInt64.shiftRight_xor,
      UInt64.xor_assoc]
  · rw [bit_of_odd ha, bit_of_even hb, bit_of_odd (by omega), UInt64.shiftRight_xor,
      UInt64.xor_assoc, UInt64.xor_assoc, UInt64.xor_comm poly]
  · have hcancel : ∀ x y p : UInt64, (x ^^^ p) ^^^ (y ^^^ p) = x ^^^ y := by
      intro x y p
      rw [UInt64.xor_comm y, UInt64.xor_assoc, ← UInt64.xor_assoc p, UInt64.xor_self,
        UInt64.zero_xor]
    rw [bit_of_odd ha, bit_of_odd hb, bit_of_even (by omega), UInt64.shiftRight_xor, hcancel]

theorem iterate_bit_xor (n : Nat) (a b : UInt64) :
    (bit poly)^[n] (a ^^^ b) = (bit poly)^[n] a ^^^ (bit poly)^[n] b := by
  induction n generalizing a b with
  | zero => rfl
  | succ n ih => rw [iterate_succ_apply, iterate_succ_apply, iterate_succ_apply,
      bit_xor, ih]

/-- The top bit tells whether the polynomial was added. -/
theorem bit_injective (hpoly : 2 ^ 63 ≤ poly.toNat) : Function.Injective (bit poly) := by
  have hhalf : ∀ c : UInt64, (c >>> 1).toNat < 2 ^ 63 := by
    intro c
    have := c.toNat_lt
    rw [toNat_shiftRight_one]
    omega
  have hmixed : ∀ a b : UInt64, (a >>> 1) ^^^ poly ≠ b >>> 1 := by
    intro a b h
    have hp : poly = (a >>> 1) ^^^ (b >>> 1) := by
      rw [← h, ← UInt64.xor_assoc, UInt64.xor_self, UInt64.zero_xor]
    have hlt := Nat.xor_lt_two_pow (hhalf a) (hhalf b)
    rw [← UInt64.toNat_xor, ← hp] at hlt
    omega
  have hshift : ∀ a b : UInt64, a.toNat % 2 = b.toNat % 2 → a >>> 1 = b >>> 1 → a = b := by
    intro a b hparity h
    have hnat := congrArg UInt64.toNat h
    rw [toNat_shiftRight_one, toNat_shiftRight_one] at hnat
    exact UInt64.toNat_inj.mp (by omega)
  intro a b h
  rcases Nat.mod_two_eq_zero_or_one a.toNat with ha | ha <;>
    rcases Nat.mod_two_eq_zero_or_one b.toNat with hb | hb
  · rw [bit_of_even ha, bit_of_even hb] at h
    exact hshift a b (by omega) h
  · rw [bit_of_even ha, bit_of_odd hb] at h
    exact absurd h.symm (hmixed b a)
  · rw [bit_of_odd ha, bit_of_even hb] at h
    exact absurd h (hmixed a b)
  · rw [bit_of_odd ha, bit_of_odd hb] at h
    exact hshift a b (by omega) ((UInt64.xor_left_inj poly).mp h)

/-- Zeros at the low end are shifted out. -/
theorem iterate_bit_shift {k n : Nat} (h : 2 ^ k * n < 2 ^ 64) :
    (bit poly)^[k] (UInt64.ofNat (2 ^ k * n)) = UInt64.ofNat n := by
  induction k with
  | zero => rw [iterate_zero_apply, Nat.pow_zero, Nat.one_mul]
  | succ k ih =>
    have hmul : 2 ^ (k + 1) * n = 2 * (2 ^ k * n) := by rw [Nat.pow_succ', Nat.mul_assoc]
    have hnat : (UInt64.ofNat (2 ^ (k + 1) * n)).toNat = 2 * (2 ^ k * n) := by
      rw [UInt64.toNat_ofNat', Nat.mod_eq_of_lt h, hmul]
    rw [iterate_succ_apply, bit_of_even (by omega)]
    have hhalf : UInt64.ofNat (2 ^ (k + 1) * n) >>> 1 = UInt64.ofNat (2 ^ k * n) := by
      apply UInt64.toNat_inj.mp
      rw [toNat_shiftRight_one, hnat, UInt64.toNat_ofNat', Nat.mod_eq_of_lt (by omega)]
      omega
    rw [hhalf, ih (by omega)]

/-- A byte below and the rest above it. -/
theorem ofNat_byte_add {n : Nat} (h : 256 * n < 2 ^ 64) (b : UInt8) :
    UInt64.ofNat (b.toNat + 256 * n) = b.toUInt64 ^^^ UInt64.ofNat (256 * n) := by
  have hb : b.toNat < 2 ^ 8 := b.toNat_lt
  apply UInt64.toNat_inj.mp
  rw [UInt64.toNat_xor, UInt64.toNat_ofNat', UInt64.toNat_ofNat', UInt8.toNat_toUInt64,
    Nat.mod_eq_of_lt h, Nat.mod_eq_of_lt (by omega)]
  apply Nat.eq_of_testBit_eq
  intro i
  have hhigh := Nat.testBit_two_pow_mul_add n (b := 0) (i := 8) (by decide) i
  rw [Nat.add_zero, Nat.zero_testBit] at hhigh
  rw [Nat.add_comm, Nat.testBit_xor]
  refine (Nat.testBit_two_pow_mul_add n hb i).trans ?_
  change _ = (b.toNat.testBit i ^^ (2 ^ 8 * n).testBit i)
  rw [hhigh]
  split
  · rw [Bool.xor_false]
  · next hi =>
    have hlow : b.toNat.testBit i = false :=
      Nat.testBit_lt_two_pow
        (Nat.lt_of_lt_of_le hb (Nat.pow_le_pow_right (by decide) (Nat.not_lt.mp hi)))
    rw [hlow, Bool.false_xor]

/-- The table of the high bits is not needed: they are shifted down. -/
theorem step_eq (byte : UInt8) :
    step poly c byte = (bit poly)^[8] (c.toUInt8 ^^^ byte).toUInt64 ^^^ (c >>> 8) := by
  have hc := c.toNat_lt
  have hsplit : c = c.toUInt8.toUInt64 ^^^ UInt64.ofNat (256 * (c.toNat / 256)) := by
    rw [← ofNat_byte_add (by omega)]
    apply UInt64.toNat_inj.mp
    rw [UInt64.toNat_ofNat', UInt64.toNat_toUInt8]
    omega
  have hshift : c >>> 8 = UInt64.ofNat (c.toNat / 256) := by
    apply UInt64.toNat_inj.mp
    rw [UInt64.toNat_shiftRight, UInt64.toNat_ofNat', Nat.mod_eq_of_lt (b := 2 ^ 64) (by omega)]
    exact Nat.shiftRight_eq_div_pow _ 8
  have hxor : c ^^^ byte.toUInt64 =
      (c.toUInt8 ^^^ byte).toUInt64 ^^^ UInt64.ofNat (2 ^ 8 * (c.toNat / 256)) := by
    rw [UInt8.toUInt64_xor, UInt64.xor_assoc, UInt64.xor_comm byte.toUInt64, ← UInt64.xor_assoc]
    exact congrArg (· ^^^ byte.toUInt64) hsplit
  rw [step, hxor, iterate_bit_xor, iterate_bit_shift (by omega), hshift]

theorem step_injective (hpoly : 2 ^ 63 ≤ poly.toNat) (byte : UInt8) :
    Function.Injective fun c => step poly c byte := by
  intro a b h
  exact (UInt64.xor_left_inj _).mp ((bit_injective hpoly).iterate 8 h)

variable {x : List UInt8}

/-- A string of at most eight bytes is added to the register at once. -/
theorem foldl_step (hx : x.length ≤ 8) :
    x.foldl (step poly) c = (bit poly)^[8 * x.length] (c ^^^ UInt64.ofNat (ofLeBytes x)) := by
  induction x generalizing c with
  | nil => exact UInt64.xor_zero.symm
  | cons b x ih =>
    rw [List.length_cons] at hx
    have hlt : 256 * ofLeBytes x < 2 ^ 64 := by
      have hle : 256 ^ x.length ≤ 256 ^ 7 := Nat.pow_le_pow_right (by decide) (by omega)
      have := ofLeBytes_lt x
      omega
    have hshift : UInt64.ofNat (ofLeBytes x) = (bit poly)^[8] (UInt64.ofNat (256 * ofLeBytes x)) :=
      (iterate_bit_shift (k := 8) hlt).symm
    rw [List.foldl_cons, ih _ (by omega), hshift, step, ← iterate_bit_xor, UInt64.xor_assoc,
      ← ofNat_byte_add hlt, ← iterate_add_apply, List.length_cons, Nat.mul_succ]
    rfl

theorem ofLeBytes_injective {y : List UInt8} (hlen : x.length = y.length)
    (h : ofLeBytes x = ofLeBytes y) : x = y := by
  induction x generalizing y with
  | nil => exact (List.length_eq_zero_iff.mp hlen.symm).symm
  | cons b x ih =>
    cases y with
    | nil => cases hlen
    | cons c y =>
      have hb := b.toNat_lt
      have hc := c.toNat_lt
      rw [ofLeBytes, ofLeBytes] at h
      rw [UInt8.toNat_inj.mp (by omega : b.toNat = c.toNat), ih (Nat.succ.inj hlen) (by omega)]

/-- A change within eight bytes in a row changes the register for good. -/
theorem foldl_step_ne (hpoly : 2 ^ 63 ≤ poly.toNat) (c : UInt64) {y : List UInt8}
    (hlen : x.length = y.length) (hx : x.length ≤ 8) (hne : x ≠ y) (rest : List UInt8) :
    (x ++ rest).foldl (step poly) c ≠ (y ++ rest).foldl (step poly) c := by
  intro h
  rw [List.foldl_append, List.foldl_append] at h
  have hword : x.foldl (step poly) c = y.foldl (step poly) c := by
    clear hne hx
    generalize x.foldl (step poly) c = a at h ⊢
    generalize y.foldl (step poly) c = b at h ⊢
    induction rest generalizing a b with
    | nil => exact h
    | cons byte rest ih => exact step_injective hpoly byte (ih _ _ h)
  rw [foldl_step c hx, foldl_step c (hlen ▸ hx), hlen] at hword
  have hnat :=
    congrArg UInt64.toNat ((UInt64.xor_right_inj c).mp ((bit_injective hpoly).iterate _ hword))
  have hlt : ∀ z : List UInt8, z.length ≤ 8 → ofLeBytes z < 2 ^ 64 := by
    intro z hz
    have hle : 256 ^ z.length ≤ 256 ^ 8 := Nat.pow_le_pow_right (by decide) hz
    have := ofLeBytes_lt z
    omega
  rw [UInt64.toNat_ofNat', UInt64.toNat_ofNat', Nat.mod_eq_of_lt (hlt x hx),
    Nat.mod_eq_of_lt (hlt y (hlen ▸ hx))] at hnat
  exact hne (ofLeBytes_injective hlen hnat)

/-! ## Registers that are shifted to the left -/

/-- The bits in the opposite order. -/
def reflect : UInt64 := ⟨c.toBitVec.reverse⟩

/-- One bit of input, with the register shifted to the left. -/
def msbBit (poly c : UInt64) (b : Bool) : UInt64 :=
  if (decide (c &&& 0x8000000000000000 ≠ 0) ^^ b) = true then (c <<< 1) ^^^ poly else c <<< 1

/-- The bits of a byte from the lowest on. -/
def msbStep (poly c : UInt64) (byte : UInt8) : UInt64 :=
  (List.range 8).foldl (fun c i => msbBit poly c (byte.toNat.testBit i)) c

/-- The checksum of reflected input with reflected output, bit by bit. -/
def bitwise (poly : UInt64) (data : List UInt8) : UInt64 := reflect (data.foldl (msbStep poly) 0)

theorem reflect_xor (a b : UInt64) : reflect (a ^^^ b) = reflect a ^^^ reflect b := by
  apply UInt64.toBitVec_inj.mp
  apply BitVec.eq_of_getLsbD_eq
  intro i _
  simp [reflect, BitVec.getLsbD_reverse, BitVec.getMsbD_xor]

theorem reflect_shiftLeft_one : reflect (c <<< 1) = reflect c >>> 1 := by
  apply UInt64.toBitVec_inj.mp
  apply BitVec.eq_of_getLsbD_eq
  intro i _
  simp [reflect, BitVec.getLsbD_reverse, BitVec.getMsbD_shiftLeft, BitVec.getLsbD_ushiftRight,
    Nat.add_comm]

theorem odd_iff : c.toNat % 2 = 1 ↔ c.toBitVec.getLsbD 0 = true := by
  rw [BitVec.getLsbD, Nat.testBit_zero, decide_eq_true_iff]
  exact Iff.rfl

theorem reflect_odd_iff : (reflect c).toNat % 2 = 1 ↔ c &&& 0x8000000000000000 ≠ 0 := by
  have htop : (c &&& 0x8000000000000000).toNat = c.toNat / 2 ^ 63 * 2 ^ 63 := by
    rw [UInt64.toNat_and]
    have hnat := Nat.and_two_pow c.toNat 63
    rw [Nat.testBit_eq_decide_div_mod_eq] at hnat
    refine hnat.trans ?_
    have := c.toNat_lt
    rcases Nat.mod_two_eq_zero_or_one (c.toNat / 2 ^ 63) with h | h
    · rw [h]
      simp
      omega
    · rw [h]
      simp
      omega
  have hmsb : c.toBitVec.getMsbD 0 = decide (2 ^ 63 ≤ c.toNat) := BitVec.msb_eq_decide c.toBitVec
  rw [odd_iff, reflect, BitVec.getLsbD_reverse, hmsb, decide_eq_true_iff, Ne, ← UInt64.toNat_inj,
    htop]
  have hzero : (0 : UInt64).toNat = 0 := rfl
  have := c.toNat_lt
  omega

/-- A bit of input goes into the low end of the register that is shifted to the right. -/
theorem reflect_msbBit (poly c : UInt64) (b : Bool) :
    reflect (msbBit poly c b) = bit (reflect poly) (reflect c ^^^ b.toUInt64) := by
  have hb : b.toUInt64.toNat % 2 = b.toNat := by cases b <;> rfl
  have hshift : b.toUInt64 >>> 1 = 0 := by cases b <;> rfl
  have hhalf : (reflect c ^^^ b.toUInt64) >>> 1 = reflect c >>> 1 := by
    rw [UInt64.shiftRight_xor, hshift, UInt64.xor_zero]
  have hparity : (reflect c ^^^ b.toUInt64).toNat % 2 = ((reflect c).toNat + b.toNat) % 2 := by
    rw [UInt64.toNat_xor, Nat.xor_mod_two_eq]
    omega
  have hodd : (reflect c ^^^ b.toUInt64) &&& 1 ≠ 0 ↔
      (decide (c &&& 0x8000000000000000 ≠ 0) ^^ b) = true := by
    rw [and_one_ne_zero, hparity]
    by_cases htop : c &&& 0x8000000000000000 ≠ 0
    · have := (reflect_odd_iff c).mpr htop
      cases b <;> simp [htop] <;> omega
    · have := mt (reflect_odd_iff c).mp htop
      cases b <;> simp [htop] <;> omega
  rw [msbBit, bit, hhalf]
  by_cases h : (decide (c &&& 0x8000000000000000 ≠ 0) ^^ b) = true
  · rw [if_pos h, if_pos (hodd.mpr h), reflect_xor, reflect_shiftLeft_one]
  · rw [if_neg h, if_neg (mt hodd.mp h), reflect_shiftLeft_one]

theorem mod_two_pow_succ_eq_xor (x n : Nat) :
    x % 2 ^ (n + 1) = x % 2 ^ n ^^^ 2 ^ n * (x.testBit n).toNat := by
  apply Nat.eq_of_testBit_eq
  intro i
  have hbit : (2 ^ n * (x.testBit n).toNat).testBit i = (decide (n = i) && x.testBit n) := by
    cases x.testBit n <;> simp [Nat.testBit_two_pow]
  rw [Nat.testBit_xor, Nat.testBit_mod_two_pow, Nat.testBit_mod_two_pow, hbit]
  rcases Nat.lt_trichotomy i n with h | rfl | h
  · simp [h, h.ne', Nat.lt_succ_of_lt h]
  · simp
  · simp [h.ne, Nat.not_lt.mpr h.le, Nat.not_lt.mpr h]

/-- Bits that go in one after another can be added to the register beforehand. -/
theorem foldl_bits (x : Nat) {n : Nat} (hn : n < 64) :
    (List.range n).foldl (fun c i => bit poly (c ^^^ (x.testBit i).toUInt64)) c =
      (bit poly)^[n] (c ^^^ UInt64.ofNat (x % 2 ^ n)) := by
  induction n with
  | zero =>
    rw [Nat.pow_zero, Nat.mod_one]
    exact UInt64.xor_zero.symm
  | succ n ih =>
    have hpow : 2 ^ n * (x.testBit n).toNat < 2 ^ 64 := by
      have hlt : 2 ^ n < 2 ^ 64 := Nat.pow_lt_pow_right (by decide) (by omega)
      cases x.testBit n
      · exact Nat.two_pow_pos 64
      · exact (Nat.mul_one _).trans_lt hlt
    have hbit : (x.testBit n).toUInt64 =
        (bit poly)^[n] (UInt64.ofNat (2 ^ n * (x.testBit n).toNat)) := by
      rw [iterate_bit_shift hpow]
      cases x.testBit n <;> rfl
    rw [List.range_succ, List.foldl_append, ih (by omega), List.foldl_cons, List.foldl_nil, hbit,
      ← iterate_bit_xor, UInt64.xor_assoc, iterate_succ_apply', mod_two_pow_succ_eq_xor,
      UInt64.ofNat_xor]

theorem reflect_msbStep (poly c : UInt64) (byte : UInt8) :
    reflect (msbStep poly c byte) = step (reflect poly) (reflect c) byte := by
  have hfold : ∀ l : List Nat,
      reflect (l.foldl (fun c i => msbBit poly c (byte.toNat.testBit i)) c) =
      l.foldl (fun c i => bit (reflect poly) (c ^^^ (byte.toNat.testBit i).toUInt64))
        (reflect c) := by
    intro l
    induction l generalizing c with
    | nil => rfl
    | cons i l ih => rw [List.foldl_cons, List.foldl_cons, ih, reflect_msbBit]
  have hbyte : UInt64.ofNat (byte.toNat % 2 ^ 8) = byte.toUInt64 := by
    rw [Nat.mod_eq_of_lt byte.toNat_lt, UInt64.ofNat_uInt8ToNat]
  rw [msbStep, hfold, foldl_bits _ _ (by decide), hbyte, step]

/-- The two ways to shift differ in the order of the polynomial's bits only. -/
theorem bitwise_eq (poly : UInt64) (data : List UInt8) :
    bitwise poly data = data.foldl (step (reflect poly)) 0 := by
  have hfold : ∀ c, reflect (data.foldl (msbStep poly) c) =
      data.foldl (step (reflect poly)) (reflect c) := by
    induction data with
    | nil => exact fun c => rfl
    | cons byte data ih =>
      intro c
      rw [List.foldl_cons, List.foldl_cons, ih, reflect_msbStep]
  have hzero : reflect 0 = 0 := by decide +kernel
  rw [bitwise, hfold, hzero]

end Crc
