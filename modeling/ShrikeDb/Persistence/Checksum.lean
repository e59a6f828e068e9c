import ShrikeDb.Lib.Crc
import ShrikeDb.Persistence.RdbFormat

/-! What the checksum of a dump notices, and how it compares with the one that Redis writes.
The table is built from the polynomial as it stands, and the register goes in and comes out
complemented; in the files of Redis the bits of the polynomial are reversed and nothing is
complemented. -/

namespace ShrikeDb.Persistence

open List

/-! ## Changes -/

theorem crc64Step_eq : crc64Step = Crc.step crc64Poly :=
  funext fun c => funext fun byte => (Crc.step_eq c byte).symm

/-- A change within eight bytes in a row changes the checksum. -/
theorem crc64_ne (crc : UInt64) {u x y v : Bytes} (hlen : x.length = y.length) (hx : x.length ≤ 8)
    (hne : x ≠ y) : crc64 crc (u ++ (x ++ v)) ≠ crc64 crc (u ++ (y ++ v)) := by
  rw [crc64_append crc u, crc64_append crc u]
  generalize crc64 crc u = start
  rw [crc64, crc64, crc64Step_eq]
  intro h
  have hpoly : 2 ^ 63 ≤ crc64Poly.toNat := by decide
  exact Crc.foldl_step_ne hpoly _ hlen hx hne v (UInt64.not_inj.mp h)

/-- Strings of the same length that differ, and only within eight bytes in a row, have
different checksums. -/
theorem short_burst_changes_crc64 (c : UInt64) (x y : Bytes) (hlen : x.length = y.length)
    (hne : x ≠ y) (i : Nat) (hwindow : ∀ j, j < i ∨ i + 8 ≤ j → x[j]? = y[j]?) :
    crc64 c x ≠ crc64 c y := by
  have hbefore : x.take i = y.take i := by
    refine ext_getElem? fun j => ?_
    rw [getElem?_take, getElem?_take]
    split
    · next hj => exact hwindow j (.inl hj)
    · rfl
  have hafter : (x.drop i).drop 8 = (y.drop i).drop 8 := by
    refine ext_getElem? fun j => ?_
    rw [drop_drop, drop_drop, getElem?_drop, getElem?_drop]
    exact hwindow (i + 8 + j) (.inr (Nat.le_add_right _ _))
  have hsplit : ∀ z : Bytes, z = z.take i ++ ((z.drop i).take 8 ++ (z.drop i).drop 8) := by
    intro z
    rw [take_append_drop, take_append_drop]
  have hmiddle : (x.drop i).take 8 ≠ (y.drop i).take 8 := by
    intro h
    apply hne
    rw [hsplit x, hsplit y, hbefore, hafter, h]
  rw [hsplit x, hsplit y, hbefore, hafter]
  refine crc64_ne c ?_ (length_take_le ..) hmiddle
  rw [length_take, length_take, length_drop, length_drop, hlen]

theorem short_burst_changes_crc64_bit :
    ([1, 2, 3] : Bytes).length = ([1, 0, 3] : Bytes).length ∧ ([1, 2, 3] : Bytes) ≠ [1, 0, 3] ∧
      crc64 7 [1, 2, 3] ≠ crc64 7 [1, 0, 3] := by
  refine ⟨rfl,
    by decide, short_burst_changes_crc64 7 [1, 2, 3] [1, 0, 3] rfl (by decide) 1 fun j hj => ?_⟩
  rcases hj with hj | hj
  · obtain rfl : j = 0 := by omega
    rfl
  · rw [getElem?_eq_none (by simp; omega), getElem?_eq_none (by simp; omega)]

/-! ## The checksum of Redis -/

/-- The checksum in the dumps of Redis, bit by bit: the polynomial of Jones, reflected input
and output, nothing added at the start or at the end. -/
def redisCrc64 (data : Bytes) : UInt64 := Crc.bitwise 0xad93d23594c935a9 data

theorem redisCrc64_eq (data : Bytes) :
    redisCrc64 data = data.foldl (Crc.step 0x95ac9329ac4bc9b5) 0 := by
  have hpoly : Crc.reflect 0xad93d23594c935a9 = 0x95ac9329ac4bc9b5 := by decide +kernel
  rw [redisCrc64, Crc.bitwise_eq, hpoly]

/-- The two tables have only their first entry in common. -/
theorem tables_differ {d : UInt8}
    (h : (Crc.bit crc64Poly)^[8] d.toUInt64 = (Crc.bit 0x95ac9329ac4bc9b5)^[8] d.toUInt64) :
    d = 0 := by
  have hall : ∀ n < 256, (Crc.bit crc64Poly)^[8] (UInt64.ofNat n) =
      (Crc.bit 0x95ac9329ac4bc9b5)^[8] (UInt64.ofNat n) → n = 0 := by
    decide +kernel
  rw [← UInt64.ofNat_uInt8ToNat] at h
  exact UInt8.toNat_inj.mp (hall d.toNat d.toNat_lt h)

theorem xor_eq_of_not_xor {a b x x' y y' : UInt64} (h : ~~~(a ^^^ x) = b ^^^ y)
    (h' : ~~~(a ^^^ x') = b ^^^ y') : x ^^^ x' = y ^^^ y' := by
  have hy : ∀ {x y : UInt64}, ~~~(a ^^^ x) = b ^^^ y → y = b ^^^ ~~~(a ^^^ x) := by
    rintro x y hxy
    rw [hxy, ← UInt64.xor_assoc, UInt64.xor_self, UInt64.zero_xor]
  rw [hy h, hy h']
  apply UInt64.toBitVec_inj.mp
  apply BitVec.eq_of_getLsbD_eq
  intro i hi
  simp only [UInt64.toBitVec_xor, UInt64.toBitVec_not, BitVec.getLsbD_xor, BitVec.getLsbD_not, hi]
  cases a.toBitVec.getLsbD i <;> cases b.toBitVec.getLsbD i <;> cases x.toBitVec.getLsbD i <;>
    cases x'.toBitVec.getLsbD i <;> rfl

/-- Whatever comes before, at most one last byte gives both checksums the same value. -/
theorem last_byte_unique {p : Bytes} {b b' : UInt8} (h : crc64 0 (p ++ [b]) = redisCrc64 (p ++ [b]))
    (h' : crc64 0 (p ++ [b']) = redisCrc64 (p ++ [b'])) : b = b' := by
  rw [redisCrc64_eq, crc64, crc64Step_eq, foldl_append, foldl_append, foldl_cons, foldl_cons,
    foldl_nil, foldl_nil, Crc.step, Crc.step, Crc.iterate_bit_xor, Crc.iterate_bit_xor] at h h'
  have hxor := xor_eq_of_not_xor h h'
  rw [← Crc.iterate_bit_xor, ← Crc.iterate_bit_xor, ← UInt8.toUInt64_xor] at hxor
  exact UInt8.xor_eq_zero_iff.mp (tables_differ hxor)

/-- Checksums can be computed piece by piece. Of the strings of one length, only the empty one
always has the checksum of Redis, and any beginning goes on with at most one byte to a string
that has it. -/
theorem crc64_is_redis_iff (n : Nat) :
    ((∀ data : Bytes, data.length = n → crc64 0 data = redisCrc64 data) ↔ n = 0) ∧
      (∀ c a b, crc64 (crc64 c a) b = crc64 c (a ++ b)) ∧
      ∀ (p : Bytes) (b b' : UInt8), crc64 0 (p ++ [b]) = redisCrc64 (p ++ [b]) →
        crc64 0 (p ++ [b']) = redisCrc64 (p ++ [b']) → b = b' := by
  refine ⟨⟨fun hall => ?_, ?_⟩, fun c a b => (crc64_append c a b).symm,
    fun p b b' => last_byte_unique⟩
  · cases n with
    | zero => rfl
    | succ n =>
      have hlen : ∀ b : UInt8, (replicate n 0 ++ [b]).length = n + 1 := by
        intro b
        rw [length_append, length_replicate, length_singleton]
      exact absurd (last_byte_unique (hall _ (hlen 0)) (hall _ (hlen 1))) (by decide)
  · rintro rfl data hlen
    rw [length_eq_zero_iff.mp hlen, crc64_nil]
    decide +kernel

/-- For the nine digits the check value of the polynomial comes out, and this server writes
another. -/
theorem crc64_digits_not_redis :
    redisCrc64 (ascii "123456789") = 0xe9c6d914c4b8d9ca ∧
      crc64 0 (ascii "123456789") ≠ redisCrc64 (ascii "123456789") := by
  decide +kernel

end ShrikeDb.Persistence
