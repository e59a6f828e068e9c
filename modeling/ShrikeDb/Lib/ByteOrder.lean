import Mathlib.Algebra.Ring.Nat

/-! Numbers as byte strings of a fixed width, least significant byte first or
last. Decoding the encoding of a number gives the number modulo the width. -/

namespace ByteOrder

def toLeBytes : Nat → Nat → List UInt8
  | 0, _ => []
  | w + 1, n => UInt8.ofNat n :: toLeBytes w (n / 256)

def ofLeBytes : List UInt8 → Nat
  | [] => 0
  | b :: bs => b.toNat + 256 * ofLeBytes bs

variable (w n : Nat)

def toBeBytes : List UInt8 := (toLeBytes w n).reverse

def ofBeBytes (bs : List UInt8) : Nat := ofLeBytes bs.reverse

@[simp] theorem length_toLeBytes : (toLeBytes w n).length = w := by
  induction w generalizing n with
  | zero => rfl
  | succ w ih => rw [toLeBytes, List.length_cons, ih]

@[simp] theorem length_toBeBytes : (toBeBytes w n).length = w := by
  rw [toBeBytes, List.length_reverse, length_toLeBytes]

theorem ofLeBytes_toLeBytes : ofLeBytes (toLeBytes w n) = n % 256 ^ w := by
  induction w generalizing n with
  | zero => rw [toLeBytes, ofLeBytes, Nat.pow_zero, Nat.mod_one]
  | succ w ih =>
    have hb : (UInt8.ofNat n).toNat = n % 256 := UInt8.toNat_ofNat'
    rw [toLeBytes, ofLeBytes, ih, hb, Nat.pow_succ, Nat.mul_comm (256 ^ w), Nat.mod_mul]

theorem ofBeBytes_toBeBytes : ofBeBytes (toBeBytes w n) = n % 256 ^ w := by
  rw [ofBeBytes, toBeBytes, List.reverse_reverse, ofLeBytes_toLeBytes]

theorem ofLeBytes_lt (bs : List UInt8) : ofLeBytes bs < 256 ^ bs.length := by
  induction bs with
  | nil => exact Nat.one_pos
  | cons b bs ih =>
    have hb := b.toNat_lt
    rw [ofLeBytes, List.length_cons, Nat.pow_succ]
    omega

/-- Two's complement: the signed number with these low bits. -/
def signed : Int := (n : Int).bmod (256 ^ w)

/-- The low bits of a signed number. -/
def unsigned (w : Nat) (z : Int) : Nat := (z % (256 ^ w : Nat)).toNat

theorem signed_unsigned (w : Nat) (z : Int) (hlo : -((256 ^ w : Nat) / 2 : Int) ≤ z)
    (hhi : z < ((256 ^ w : Nat) + 1 : Int) / 2) : signed w (unsigned w z) = z := by
  have hpos : (0 : Int) < (256 ^ w : Nat) := Int.natCast_pos.mpr (Nat.pow_pos (by decide))
  have hnn : 0 ≤ z % (256 ^ w : Nat) := Int.emod_nonneg _ (Int.ne_of_gt hpos)
  rw [signed, unsigned, Int.toNat_of_nonneg hnn, Int.emod_bmod, Int.bmod_eq_of_le hlo hhi]

theorem unsigned_lt (w : Nat) (z : Int) : unsigned w z < 256 ^ w := by
  have hpos : (0 : Int) < (256 ^ w : Nat) := Int.natCast_pos.mpr (Nat.pow_pos (by decide))
  have hlt := Int.emod_lt_of_pos z hpos
  have hnn := Int.emod_nonneg z (Int.ne_of_gt hpos)
  rw [unsigned]
  omega

end ByteOrder
