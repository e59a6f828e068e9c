import ShrikeDb.Facade.Resp

/-! Replies read back (`parse_resp_integer`, `parse_resp_array`): what a handler wrote
for another shard is what the coordinator reads. -/

namespace ShrikeDb

open ReplyBuilder List

/-! ## Numbers on a line -/

variable (n : Int64)

theorem i64ToString_byte : ∀ b ∈ i64ToString n, b < 0x80 ∧ b ≠ 13 ∧ b ≠ 10 := by
  intro b hb
  obtain ⟨hlo, hhi⟩ := i64ToString_visible n b hb
  refine ⟨hhi, ?_, ?_⟩ <;> rintro rfl <;> exact absurd hlo (by decide)

/-- A length that fits an `i64` is written with its digits. -/
theorem ofNat_eq_i64ToString {n : Nat} (h : n < 2 ^ 63) :
    Decimal.ofNat n = i64ToString (Int64.ofNat n) ∧ (Int64.ofNat n).toInt = n := by
  have hint : (Int64.ofNat n).toInt = n := Int64.toInt_ofNat_of_lt h
  refine ⟨?_, hint⟩
  rw [i64ToString, hint, Decimal.ofInt, if_neg (Int.not_lt.mpr (Int.natCast_nonneg n))]
  rfl

/-- The number stands before the end of its line. -/
theorem takeWhile_number (rest : Bytes) :
    (writeInt n ++ crlf ++ rest).takeWhile (· ≠ 13) = i64ToString n ∧
      (writeInt n ++ crlf ++ rest).dropWhile (· ≠ 13) = crlf ++ rest := by
  have hno : ∀ b ∈ i64ToString n, decide (b ≠ 13) = true :=
    fun b hb => decide_eq_true (i64ToString_byte n b hb).2.1
  rw [append_assoc, writeInt, takeWhile_append_of_pos hno, dropWhile_append_of_pos hno]
  exact ⟨append_nil _, rfl⟩

/-! ## Integers -/

@[simp] theorem parseRespInteger_sendInteger : parseRespInteger (sendInteger n) = some n := by
  have hline : sendInteger n = 58 :: (writeInt n ++ crlf ++ []) := by
    rw [append_nil]
    rfl
  have hmem : (13 : UInt8) ∈ writeInt n ++ crlf ++ [] := by simp [crlf]
  rw [hline, parseRespInteger, if_pos ⟨rfl, hmem⟩, (takeWhile_number n []).1, fromUtf8_i64ToString,
    Option.bind_some, parseI64_i64ToString]

theorem sendInteger_injective : Function.Injective sendInteger := by
  intro a b h
  have hp := congrArg parseRespInteger h
  rw [parseRespInteger_sendInteger, parseRespInteger_sendInteger] at hp
  exact Option.some.inj hp

/-- Lines that start with the same numbers go on in the same way. -/
theorem writeInt_append_inj {n m : Int64} {rest rest' : Bytes}
    (h : writeInt n ++ crlf ++ rest = writeInt m ++ crlf ++ rest') : n = m ∧ rest = rest' := by
  obtain ⟨htake, hdrop⟩ := takeWhile_number n rest
  obtain ⟨htake', hdrop'⟩ := takeWhile_number m rest'
  rw [h, htake'] at htake
  rw [h, hdrop'] at hdrop
  have hparse := congrArg parseI64 htake
  rw [parseI64_i64ToString, parseI64_i64ToString] at hparse
  exact ⟨(Option.some.inj hparse).symm, (append_cancel_left hdrop).symm⟩

/-! ## Arrays of bulk strings -/

theorem skipLine_number (b : UInt8) (hb : b ≠ 10) (rest : Bytes) :
    skipLine (b :: (writeInt n ++ crlf ++ rest)) = rest := by
  have hno : ∀ c ∈ b :: i64ToString n ++ [13], decide (c ≠ 10) = true := by
    intro c hc
    rw [mem_append, mem_cons, mem_singleton] at hc
    rcases hc with (rfl | hc) | rfl
    · exact decide_eq_true hb
    · exact decide_eq_true (i64ToString_byte n c hc).2.2
    · rfl
  have hsplit : b :: (writeInt n ++ crlf ++ rest) = (b :: i64ToString n ++ [13]) ++ 10 :: rest := by
    simp [writeInt, crlf]
  rw [hsplit, skipLine, dropWhile_append_of_pos hno]
  rfl

/-- A length that fits an `i64` is read back as it is. -/
theorem toNat_ofNat_i64 {len : Nat} (h : len < 2 ^ 63) :
    ¬Int64.ofNat len < 0 ∧ (Int64.ofNat len).toInt.toNat = len := by
  have hint : (Int64.ofNat len).toInt = len := Int64.toInt_ofNat_of_lt h
  refine ⟨fun hlt => ?_, by rw [hint]; rfl⟩
  rw [Int64.lt_iff_toInt_lt, hint] at hlt
  exact absurd hlt (Int.not_lt.mpr (Int.natCast_nonneg len))

/-- One element is read and the rest is left. -/
theorem parseElements_sendOptional (item : Option Bytes)
    (hitem : ∀ v, item = some v → v.length < 2 ^ 63) (rest : Bytes) (fuel : Nat) :
    parseElements (fuel + 1) (sendOptional item ++ rest) = item :: parseElements fuel rest := by
  cases item with
  | none =>
    have hnull : sendOptional none ++ rest = 36 :: (writeInt (-1) ++ crlf ++ rest) := rfl
    obtain ⟨htake, hdrop⟩ := takeWhile_number (-1) rest
    rw [hnull, parseElements, if_pos rfl, htake, hdrop, fromUtf8_i64ToString, Option.getD_some,
      parseI64_i64ToString, Option.getD_some]
    rfl
  | some v =>
    obtain ⟨hneg, hlen⟩ := toNat_ofNat_i64 (hitem v rfl)
    have hbulk : sendOptional (some v) ++ rest =
        36 :: (writeInt (Int64.ofNat v.length) ++ crlf ++ (v ++ crlf ++ rest)) := by
      simp [sendOptional, sendBulkString, ascii]
    obtain ⟨htake, hdrop⟩ := takeWhile_number (Int64.ofNat v.length) (v ++ crlf ++ rest)
    have hfits : 2 + v.length ≤ (crlf ++ (v ++ crlf ++ rest)).length := by
      simp [crlf]
      omega
    rw [hbulk, parseElements, if_pos rfl, htake, hdrop, fromUtf8_i64ToString, Option.getD_some,
      parseI64_i64ToString, Option.getD_some]
    simp only [hneg, hlen, hfits, if_true, if_false]
    have hbody : (crlf ++ (v ++ crlf ++ rest)).drop 2 = v ++ crlf ++ rest := rfl
    rw [hbody, append_assoc, take_left, ← drop_drop, drop_left]
    rfl

theorem length_sendOptional_pos (item : Option Bytes) : 0 < (sendOptional item).length := by
  cases item with
  | none => decide
  | some v => simp [sendOptional, sendBulkString, ascii]

/-- The elements of an array are read back, whatever bytes the values hold. -/
theorem parseElements_flatMap {items : List (Option Bytes)}
    (h : ∀ v, some v ∈ items → v.length < 2 ^ 63) {fuel : Nat}
    (hfuel : (items.flatMap sendOptional).length ≤ fuel) :
    parseElements fuel (items.flatMap sendOptional) = items := by
  induction items generalizing fuel with
  | nil => cases fuel <;> rfl
  | cons item items ih =>
    have hpos := length_sendOptional_pos item
    rw [flatMap_cons, length_append] at hfuel
    obtain ⟨fuel, rfl⟩ : ∃ m, fuel = m + 1 := ⟨fuel - 1, by omega⟩
    rw [flatMap_cons, parseElements_sendOptional item fun v hv => h v (hv ▸ mem_cons_self),
      ih (fun v hv => h v (mem_cons_of_mem item hv)) (by omega)]

theorem sendArrayLen_append_inj {n m : Nat} (hn : n < 2 ^ 63) (hm : m < 2 ^ 63) {rest rest' : Bytes}
    (h : sendArrayLen n ++ rest = sendArrayLen m ++ rest') : n = m ∧ rest = rest' := by
  obtain ⟨hlen, hrest⟩ := writeInt_append_inj (cons.inj h).2
  have hint := congrArg Int64.toInt hlen
  rw [Int64.toInt_ofNat_of_lt hn, Int64.toInt_ofNat_of_lt hm] at hint
  exact ⟨Int.ofNat.inj hint, hrest⟩

theorem sendBulkString_injective : Function.Injective sendBulkString := by
  intro a b h
  have hline : ∀ v, sendBulkString v =
      36 :: (writeInt (Int64.ofNat v.length) ++ crlf ++ (v ++ crlf)) := by
    intro v
    simp [sendBulkString, ascii]
  rw [hline, hline] at h
  exact append_cancel_right (writeInt_append_inj (cons.inj h).2).2

theorem parseRespArray_sendArray {items : List (Option Bytes)} (n : Nat)
    (h : ∀ v, some v ∈ items → v.length < 2 ^ 63) :
    parseRespArray (sendArrayLen n ++ items.flatMap sendOptional) = items := by
  have hline : sendArrayLen n ++ items.flatMap sendOptional =
      42 :: (writeInt (Int64.ofNat n) ++ crlf ++ items.flatMap sendOptional) := rfl
  rw [hline, parseRespArray, head?_cons, if_pos rfl, skipLine_number _ _ (by decide)]
  refine parseElements_flatMap h ?_
  simp only [length_cons, length_append]
  omega

end ShrikeDb
