import ShrikeDb.Core.Text
import ShrikeDb.Lib.Loop
import ShrikeDb.Lib.Words

/-! Byte slices, read by index. An index is a `usize` and wraps around; one that is out of range
is a panic. -/

namespace ShrikeDb

/-- The `usize` of a number, which may have wrapped around. -/
def usize (n : Nat) : UInt64 := .ofNat n

@[simp] theorem usize_add (n k : Nat) :
    usize n + no_index (OfNat.ofNat k : UInt64) = usize (n + OfNat.ofNat k) :=
  (UInt64.ofNat_add n k).symm

theorem usize_add_usize (n m : Nat) : usize n + usize m = usize (n + m) :=
  (UInt64.ofNat_add n m).symm

/-- `n as usize` -/
theorem toUInt64_eq_usize {n : Int64} (h : ¬ n < 0) : n.toUInt64 = usize n.toInt.toNat := by
  have hnonneg : 0 ≤ n.toInt := by
    rw [Int64.lt_iff_toInt_lt] at h
    exact Int.not_lt.mp h
  have hword := Words.toNat_toUInt64_of_nonneg hnonneg
  have hnat : n.toInt.toNat = n.toUInt64.toNat := by omega
  rw [hnat, usize, UInt64.ofNat_toNat]

/-- No slice is longer than `isize::MAX`. -/
structure Slice where
  bytes : Bytes
  fits : bytes.length < 2 ^ 63

namespace Slice

theorem fits_of_brief {bytes : Bytes} (h : bytes.length < 100) : bytes.length < 2 ^ 63 :=
  h.trans (by decide)

/-- A slice of a few bytes, to evaluate the model on. -/
def brief (bytes : Bytes) (h : bytes.length < 100) : Slice := ⟨bytes, fits_of_brief h⟩

variable (s : Slice) {i j : Nat} {b : UInt8}

def len : UInt64 := usize s.bytes.length

/-- `s[i]` -/
def get (i : UInt64) : Exit UInt8 :=
  match s.bytes[i.toNat]? with
  | some b => .value b
  | none => .panic

/-- `&s[start..stop]` -/
def range (start stop : UInt64) : Exit Bytes :=
  if start ≤ stop ∧ stop ≤ s.len then .value ((s.bytes.take stop.toNat).drop start.toNat)
    else .panic

/-- `i < s.len() && test(s[i])` -/
def holds (i : UInt64) (test : UInt8 → Exit Bool) : Exit Bool :=
  pure (decide (i < s.len)) <&&> (s.get i >>= test)

theorem toNat_usize (hi : i ≤ s.bytes.length) : (usize i).toNat = i := by
  have := s.fits
  rw [usize, UInt64.toNat_ofNat']
  omega

theorem toNat_len : s.len.toNat = s.bytes.length :=
  s.toNat_usize le_rfl

theorem usize_lt_len (hi : i < 2 ^ 64) : usize i < s.len ↔ i < s.bytes.length := by
  rw [UInt64.lt_iff_toNat_lt, toNat_len, usize, UInt64.toNat_ofNat', Nat.mod_eq_of_lt hi]

theorem usize_le_len (hi : i < 2 ^ 64) : usize i ≤ s.len ↔ i ≤ s.bytes.length := by
  rw [UInt64.le_iff_toNat_le, toNat_len, usize, UInt64.toNat_ofNat', Nat.mod_eq_of_lt hi]

theorem get_of_some (h : s.bytes[i]? = some b) : s.get (usize i) = .value b := by
  have hlt := (List.getElem?_eq_some_iff.mp h).1
  rw [get, s.toNat_usize hlt.le, h]

theorem drop_of_some (h : s.bytes[i]? = some b) : s.bytes.drop i = b :: s.bytes.drop (i + 1) := by
  rw [List.drop_eq_getElem_cons (List.getElem?_eq_some_iff.mp h).1,
    (List.getElem?_eq_some_iff.mp h).2]

theorem holds_of_some (h : s.bytes[i]? = some b) (test : UInt8 → Exit Bool) :
    s.holds (usize i) test = test b := by
  have hlt := (List.getElem?_eq_some_iff.mp h).1
  have := s.fits
  simp [holds, (s.usize_lt_len (by omega)).mpr hlt, s.get_of_some h]

theorem holds_of_none (hi : i < 2 ^ 64) (h : s.bytes[i]? = none) (test : UInt8 → Exit Bool) :
    s.holds (usize i) test = .value false := by
  have hge := List.getElem?_eq_none_iff.mp h
  simp [holds, mt (s.usize_lt_len hi).mp hge.not_gt]

theorem holds_beq (hi : i < 2 ^ 64) (b : UInt8) :
    s.holds (usize i) (fun x => .value (x == b)) = .value (decide (s.bytes[i]? = some b)) := by
  cases h : s.bytes[i]? with
  | none =>
    rw [s.holds_of_none hi h]
    rfl
  | some x =>
    rw [s.holds_of_some h]
    simp [beq_eq_decide]

theorem range_of_le (hij : i ≤ j) (hj : j ≤ s.bytes.length) :
    s.range (usize i) (usize j) = .value ((s.bytes.take j).drop i) := by
  have hi' := s.toNat_usize (hij.trans hj)
  have hj' := s.toNat_usize hj
  have hle : usize i ≤ usize j ∧ usize j ≤ s.len := by
    rw [UInt64.le_iff_toNat_le, UInt64.le_iff_toNat_le, toNat_len, hi', hj']
    exact ⟨hij, hj⟩
  rw [range, if_pos hle, hi', hj']

end Slice

end ShrikeDb
