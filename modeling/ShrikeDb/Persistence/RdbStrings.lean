import ShrikeDb.Persistence.RdbLoad
import ShrikeDb.Persistence.RdbSave

/-! Lengths, integers and strings of the RDB format: what the writer appends for
each, and that the loader reads it back and stands right after it. -/

namespace ShrikeDb.Persistence

open ByteOrder

/-! ## Writing appends -/

namespace RdbSaver

theorem writeBytes_append (w : RdbSaver) (a b : Bytes) :
    (w.writeBytes a).writeBytes b = w.writeBytes (a ++ b) := by
  simp only [writeBytes, List.append_assoc, crc64_append, List.length_append, UInt64.ofNat_add,
    UInt64.add_assoc]

end RdbSaver

def encLength (len : UInt64) : Bytes :=
  if len < 64 then [len.toUInt8]
  else if len < 16384 then [(0x40 : UInt8) ||| (len >>> 8).toUInt8, (len &&& 0xFF).toUInt8]
  else if len ≤ 0xFFFFFFFF then 0x80 :: toBeBytes 4 len.toUInt32.toNat
  else 0x81 :: toBeBytes 8 len.toNat

def encInteger (n : Int64) : Bytes :=
  if -128 ≤ n.toInt ∧ n.toInt ≤ 127 then [0xC0, UInt8.ofNat (unsigned 1 n.toInt)]
  else if -32768 ≤ n.toInt ∧ n.toInt ≤ 32767 then 0xC1 :: toLeBytes 2 (unsigned 2 n.toInt)
  else if -2147483648 ≤ n.toInt ∧ n.toInt ≤ 2147483647 then 0xC2 :: toLeBytes 4 (unsigned 4 n.toInt)
  else encLength (UInt64.ofNat (i64ToString n).length) ++ i64ToString n

def encString (data : Bytes) : Bytes :=
  match if data.length ≤ 11 then RdbSaver.tryParseInteger data else none with
  | some n => encInteger n
  | none => encLength (UInt64.ofNat data.length) ++ data

namespace RdbSaver

theorem writeLength_eq (w : RdbSaver) (len : UInt64) :
    w.writeLength len = w.writeBytes (encLength len) := by
  unfold writeLength encLength writeByte
  split
  · rfl
  · split
    · rw [writeBytes_append]
      rfl
    · split <;> rw [writeBytes_append] <;> rfl

theorem writeIntegerAsString_eq (w : RdbSaver) (n : Int64) :
    w.writeIntegerAsString n = w.writeBytes (encInteger n) := by
  unfold writeIntegerAsString encInteger writeByte
  split
  · rw [writeBytes_append]
    rfl
  · split
    · rw [writeBytes_append]
      rfl
    · split
      · rw [writeBytes_append]
        rfl
      · rw [writeLength_eq, writeBytes_append]

theorem writeString_eq (w : RdbSaver) (data : Bytes) :
    w.writeString data = w.writeBytes (encString data) := by
  unfold writeString encString
  cases if data.length ≤ 11 then tryParseInteger data else none with
  | some n => exact writeIntegerAsString_eq w n
  | none =>
    simp only
    rw [writeLength_eq, writeBytes_append]

end RdbSaver

/-! ## Reading -/

namespace RdbLoader

/-- The loader after reading `bs` with `rest` still to come. -/
def past (l : RdbLoader) (bs rest : Bytes) : RdbLoader :=
  { l with reader := rest, crc := crc64 l.crc bs }

/-- `x` reads exactly `bs` and returns `a`. -/
def Reads {α : Type} (x : Load α) (bs : Bytes) (a : α) : Prop :=
  ∀ l rest, l.reader = bs ++ rest → x l = .ok (a, l.past bs rest)

theorem past_past (l : RdbLoader) (bs bs' rest rest' : Bytes) :
    (l.past bs rest).past bs' rest' = l.past (bs ++ bs') rest' := by
  simp only [past, crc64_append]

variable {α : Type} {bs data : Bytes} {len : UInt64}

theorem bind_ok {β : Type} {x : Load α} {f : α → Load β} {l l' : RdbLoader} {a : α}
    (h : x l = .ok (a, l')) : (x >>= f) l = f a l' := by
  show Except.bind (x l) _ = _
  rw [h]
  rfl

theorem Reads.bind {β : Type} {x : Load α} {f : α → Load β} {bs' : Bytes} {a : α} {b : β}
    (hx : Reads x bs a) (hf : Reads (f a) bs' b) : Reads (x >>= f) (bs ++ bs') b := by
  intro l rest hl
  rw [bind_ok (hx l (bs' ++ rest) (by rw [hl, List.append_assoc])), hf _ rest rfl, past_past]

theorem Reads.pure (a : α) : Reads (Pure.pure a) [] a := by
  intro l rest hl
  obtain ⟨reader, crc, currentDb, rdbVersion⟩ := l
  simp only [List.nil_append] at hl
  subst hl
  simp only [past, crc64_nil]
  rfl

/-- A reading followed by a pure step. -/
theorem Reads.map {β : Type} {x : Load α} {a : α} (hx : Reads x bs a) (f : α → β) :
    Reads (x >>= fun a => Pure.pure (f a)) bs (f a) := by
  have h := hx.bind (f := fun a => Pure.pure (f a)) (Reads.pure (f a))
  rwa [List.append_nil] at h

theorem reads_exact (bs : Bytes) : Reads (readExact bs.length) bs bs := by
  intro l rest hl
  have htake : takeBytes bs.length l = .ok (bs, { l with reader := rest }) := by
    unfold takeBytes
    rw [hl, if_pos (by simp), List.take_left, List.drop_left]
  rw [readExact, bind_ok htake]
  rfl

theorem reads_exact' {n : Nat} (h : bs.length = n) : Reads (readExact n) bs bs := by
  subst h
  exact reads_exact bs

theorem reads_byte (b : UInt8) : Reads readByte [b] b :=
  (reads_exact [b]).map fun buf => buf.headD 0

theorem toNat_lt_eight_bytes (v : UInt64) : v.toNat < 256 ^ 8 := v.toNat_lt

theorem reads_u64Le (v : UInt64) : Reads readU64Le (toLeBytes 8 v.toNat) v := by
  have h := (reads_exact' (length_toLeBytes 8 v.toNat)).map fun buf => UInt64.ofNat (ofLeBytes buf)
  rw [ofLeBytes_toLeBytes, Nat.mod_eq_of_lt (toNat_lt_eight_bytes v), UInt64.ofNat_toNat] at h
  exact h

theorem reads_signed {w : Nat} {z : Int} (hlo : -((256 ^ w : Nat) / 2 : Int) ≤ z)
    (hhi : z < ((256 ^ w : Nat) + 1 : Int) / 2) :
    Reads (readSigned w) (toLeBytes w (unsigned w z)) (Decimal.ofInt z) := by
  have h := (reads_exact' (length_toLeBytes w (unsigned w z))).map
    fun buf => Decimal.ofInt (signed w (ofLeBytes buf))
  rw [ofLeBytes_toLeBytes, Nat.mod_eq_of_lt (unsigned_lt w z), signed_unsigned w z hlo hhi] at h
  exact h

theorem reads_buffer (h : data.length < 2 ^ 63) :
    Reads (readBuffer (UInt64.ofNat data.length)) data data := by
  have hn : (UInt64.ofNat data.length).toNat = data.length := by
    rw [UInt64.toNat_ofNat']
    exact Nat.mod_eq_of_lt (by omega)
  have hlt : ¬ 2 ^ 63 ≤ (UInt64.ofNat data.length).toNat := by omega
  rw [readBuffer, if_neg hlt, hn]
  exact reads_exact data

/-- The two fields of a length's first byte. -/
theorem split_first {b : UInt8} {t x : Nat} (hb : b.toNat = 64 * t + x) (ht : t < 4) (hx : x < 64) :
    (b >>> 6) &&& 0x03 = UInt8.ofNat t ∧ (b &&& 0x3F).toUInt64 = UInt64.ofNat x := by
  constructor
  · apply UInt8.toNat_inj.mp
    have h3 : (3 : Nat) = 2 ^ 2 - 1 := rfl
    rw [UInt8.toNat_and, UInt8.toNat_shiftRight, hb]
    simp only [UInt8.reduceToNat, UInt8.toNat_ofNat', Nat.shiftRight_eq_div_pow]
    rw [h3, Nat.and_two_pow_sub_one_eq_mod, show (2 ^ (6 % 8) : Nat) = 64 by rfl]
    omega
  · apply UInt64.toNat_inj.mp
    have h63 : (63 : Nat) = 2 ^ 6 - 1 := rfl
    rw [UInt8.toNat_toUInt64, UInt8.toNat_and, hb]
    simp only [UInt8.reduceToNat, UInt64.toNat_ofNat']
    rw [h63, Nat.and_two_pow_sub_one_eq_mod]
    omega

theorem reads_lengthWithEncoding {b : UInt8} {t x : Nat} (hb : b.toNat = 64 * t + x) (ht : t < 4)
    (hx : x < 64) {r : UInt64 × Bool}
    (h : Reads (readLengthTail (UInt8.ofNat t) (UInt64.ofNat x)) bs r) :
    Reads readLengthWithEncoding (b :: bs) r := by
  obtain ⟨htype, hlow⟩ := split_first hb ht hx
  rw [← htype, ← hlow] at h
  exact (reads_byte b).bind h

theorem reads_length_six (h : len < 64) :
    Reads readLengthWithEncoding [len.toUInt8] (len, false) := by
  have hlt : len.toNat < 64 := UInt64.lt_iff_toNat_lt.mp h
  have hb : len.toUInt8.toNat = 64 * 0 + len.toNat := by
    rw [UInt64.toNat_toUInt8]
    omega
  refine reads_lengthWithEncoding hb (by decide) hlt ?_
  rw [UInt64.ofNat_toNat]
  exact Reads.pure _

theorem reads_length_fourteen (h : len < 16384) :
    Reads readLengthWithEncoding [(0x40 : UInt8) ||| (len >>> 8).toUInt8, (len &&& 0xFF).toUInt8]
      (len, false) := by
  have hlt : len.toNat < 16384 := UInt64.lt_iff_toNat_lt.mp h
  have hhi : (len >>> 8).toUInt8.toNat = len.toNat / 256 := by
    rw [UInt64.toNat_toUInt8, UInt64.toNat_shiftRight]
    simp only [UInt64.reduceToNat, Nat.shiftRight_eq_div_pow]
    rw [show (2 ^ (8 % 64) : Nat) = 256 by rfl]
    omega
  have hlo : (len &&& 0xFF).toUInt8.toNat = len.toNat % 256 := by
    have h255 : (255 : Nat) = 2 ^ 8 - 1 := rfl
    rw [UInt64.toNat_toUInt8, UInt64.toNat_and]
    simp only [UInt64.reduceToNat]
    rw [h255, Nat.and_two_pow_sub_one_eq_mod]
    omega
  have hb : ((0x40 : UInt8) ||| (len >>> 8).toUInt8).toNat = 64 * 1 + len.toNat / 256 := by
    have hor := Nat.two_pow_add_eq_or_of_lt (i := 6) (b := len.toNat / 256) (by omega) 1
    rw [UInt8.toNat_or, hhi]
    simpa using hor.symm
  refine reads_lengthWithEncoding hb (by decide) (by omega) ?_
  have hread := (reads_byte (len &&& 0xFF).toUInt8).map fun second =>
    (((UInt64.ofNat (len.toNat / 256)) <<< 8) ||| second.toUInt64, false)
  have hval : (UInt64.ofNat (len.toNat / 256) <<< 8) ||| (len &&& 0xFF).toUInt8.toUInt64 = len := by
    have hx : (UInt64.ofNat (len.toNat / 256)).toNat = len.toNat / 256 := by
      rw [UInt64.toNat_ofNat']
      omega
    have hor := Nat.shiftLeft_add_eq_or_of_lt (i := 8) (b := len.toNat % 256) (by omega)
      (len.toNat / 256)
    have hsh : (UInt64.ofNat (len.toNat / 256) <<< 8).toNat = (len.toNat / 256) <<< 8 := by
      rw [UInt64.toNat_shiftLeft, hx]
      simp only [UInt64.reduceToNat, Nat.shiftLeft_eq]
      rw [show (2 ^ (8 % 64) : Nat) = 256 by rfl]
      omega
    apply UInt64.toNat_inj.mp
    rw [UInt64.toNat_or, hsh, UInt8.toNat_toUInt64, hlo, ← hor, Nat.shiftLeft_eq]
    omega
  rw [hval] at hread
  exact hread

theorem reads_length_thirtyTwo (h : len ≤ 0xFFFFFFFF) :
    Reads readLengthWithEncoding (0x80 :: toBeBytes 4 len.toUInt32.toNat) (len, false) := by
  have hle : len.toNat ≤ 4294967295 := UInt64.le_iff_toNat_le.mp h
  refine reads_lengthWithEncoding (t := 2) (x := 0) rfl (by decide) (by decide) ?_
  have hread := (reads_exact' (length_toBeBytes 4 len.toUInt32.toNat)).map fun buf =>
    (UInt64.ofNat (ofBeBytes buf), false)
  have hval : UInt64.ofNat (ofBeBytes (toBeBytes 4 len.toUInt32.toNat)) = len := by
    rw [ofBeBytes_toBeBytes, UInt64.toNat_toUInt32]
    apply UInt64.toNat_inj.mp
    rw [UInt64.toNat_ofNat']
    omega
  rw [hval] at hread
  exact hread

theorem reads_length_sixtyFour (len : UInt64) :
    Reads readLengthWithEncoding (0x81 :: toBeBytes 8 len.toNat) (len, false) := by
  refine reads_lengthWithEncoding (t := 2) (x := 1) rfl (by decide) (by decide) ?_
  have hread := (reads_exact' (length_toBeBytes 8 len.toNat)).map fun buf =>
    (UInt64.ofNat (ofBeBytes buf), false)
  have hval : UInt64.ofNat (ofBeBytes (toBeBytes 8 len.toNat)) = len := by
    rw [ofBeBytes_toBeBytes, Nat.mod_eq_of_lt (toNat_lt_eight_bytes len), UInt64.ofNat_toNat]
  rw [hval] at hread
  exact hread

/-- Each of the four forms of a length is read back. -/
theorem reads_encLength (len : UInt64) :
    Reads readLengthWithEncoding (encLength len) (len, false) := by
  unfold encLength
  split
  · rename_i h
    exact reads_length_six h
  · split
    · rename_i h
      exact reads_length_fourteen h
    · split
      · rename_i h
        exact reads_length_thirtyTwo h
      · exact reads_length_sixtyFour len

theorem reads_length (len : UInt64) : Reads readLength (encLength len) len :=
  (reads_encLength len).map fun r => r.1

theorem reads_raw (h : data.length < 2 ^ 63) :
    Reads readString (encLength (UInt64.ofNat data.length) ++ data) data :=
  (reads_encLength (UInt64.ofNat data.length)).bind (reads_buffer h)

/-- A first byte with both high bits set announces an encoding. -/
theorem reads_encoding {b : UInt8} {x : Nat} (hb : b.toNat = 64 * 3 + x) (hx : x < 64) :
    Reads readLengthWithEncoding [b] (UInt64.ofNat x, true) :=
  reads_lengthWithEncoding hb (by decide) hx (Reads.pure _)

theorem reads_int8 (h : Reads (readSigned 1) bs data) :
    Reads readString (0xC0 :: bs) data :=
  (reads_encoding (x := 0) rfl (by decide)).bind h

theorem reads_int16 (h : Reads (readSigned 2) bs data) :
    Reads readString (0xC1 :: bs) data :=
  (reads_encoding (x := 1) rfl (by decide)).bind h

theorem reads_int32 (h : Reads (readSigned 4) bs data) :
    Reads readString (0xC2 :: bs) data :=
  (reads_encoding (x := 2) rfl (by decide)).bind h

theorem length_i64ToString_lt (n : Int64) : (i64ToString n).length < 2 ^ 63 := by
  have hlo := n.le_toInt
  have hhi := n.toInt_lt
  have hlen : (i64ToString n).length ≤ 19 + 1 := Decimal.length_ofInt_le (by decide) (by omega)
  omega

/-- Each of the three integer forms, and the decimal text for the others, reads
back as the decimal text. -/
theorem reads_encInteger (n : Int64) : Reads readString (encInteger n) (i64ToString n) := by
  unfold encInteger
  split
  · rename_i h
    have hr := reads_signed (w := 1) (z := n.toInt) (by norm_num; omega) (by norm_num; omega)
    exact reads_int8 hr
  · split
    · rename_i h
      exact reads_int16 (reads_signed (by norm_num; omega) (by norm_num; omega))
    · split
      · rename_i h
        exact reads_int32 (reads_signed (by norm_num; omega) (by norm_num; omega))
      · exact reads_raw (length_i64ToString_lt n)

/-- A string is read back, whether it was written raw or as an integer. -/
theorem reads_encString (h : data.length < 2 ^ 63) : Reads readString (encString data) data := by
  unfold encString
  split
  · rename_i n hn
    have hdata : i64ToString n = data := by
      split at hn
      · obtain ⟨m, _, hm⟩ := Option.bind_eq_some_iff.mp hn
        split at hm
        · rename_i heq
          cases hm
          exact heq
        · cases hm
      · cases hn
    rw [← hdata]
    exact reads_encInteger n
  · exact reads_raw h

end RdbLoader

/-! ## What is written is read back -/

open RdbLoader

/-- `write` appends bytes, and a loader that comes to them with the checksum of the writer reads
`a`, stands right behind them, and again has the checksum of the writer. -/
def ReadsBack {α : Type} (write : RdbSaver → RdbSaver) (read : Load α) (a : α) : Prop :=
  ∀ w : RdbSaver, ∃ bs, (write w).writer = w.writer ++ bs ∧
    ∀ (l : RdbLoader) (rest : Bytes), l.crc = w.crc → l.reader = bs ++ rest →
      read l = .ok (a, { l with reader := rest, crc := (write w).crc })

theorem RdbLoader.Reads.back {α : Type} {write : RdbSaver → RdbSaver} {read : Load α} {a : α}
    {bs : Bytes} (hread : Reads read bs a) (hwrite : ∀ w, write w = w.writeBytes bs) :
    ReadsBack write read a := by
  intro w
  refine ⟨bs, by rw [hwrite]; rfl, fun l rest hcrc hl => ?_⟩
  rw [hread l rest hl, hwrite, past, hcrc]
  rfl

theorem ReadsBack.unique {α : Type} {write : RdbSaver → RdbSaver} {read : Load α} {a : α}
    {bs : Bytes} (h : ReadsBack write read a) (hwrite : ∀ w, write w = w.writeBytes bs)
    (l : RdbLoader) (hl : l.reader = bs) : ∃ l', read l = .ok (a, l') ∧ l'.reader = [] := by
  obtain ⟨bs', hbs, hread⟩ := h ⟨[], l.crc, 0⟩
  rw [hwrite] at hbs
  obtain rfl : bs = bs' := hbs
  exact ⟨_, hread l [] rfl (by rw [hl, List.append_nil]), rfl⟩

/-- A string of more than `isize::MAX` bytes is not read back. -/
theorem not_readsBack_overlong {data : Bytes} (h : 2 ^ 63 ≤ data.length) :
    ¬ReadsBack (fun w => w.writeString data) readString data := by
  intro hback
  have henc : encString data = encLength (UInt64.ofNat data.length) ++ data := by
    have hlong : ¬data.length ≤ 11 := by omega
    rw [encString, if_neg hlong]
  obtain ⟨l', hread, -⟩ :=
    hback.unique (RdbSaver.writeString_eq · data) ⟨encString data, 0, 0, 0⟩ rfl
  rw [readString, bind_ok (reads_encLength (UInt64.ofNat data.length) _ data henc)] at hread
  change readBuffer (UInt64.ofNat data.length) _ = _ at hread
  rw [readBuffer] at hread
  split at hread
  · cases hread
  · next hshort =>
    -- the length has wrapped, and only a part of the string comes back
    have htake : (data.take (UInt64.ofNat data.length).toNat).length =
        (UInt64.ofNat data.length).toNat := by
      rw [List.length_take]
      omega
    rw [reads_exact' htake _ _ (List.take_append_drop _ data).symm] at hread
    have hall := congrArg List.length (Prod.mk.inj (Except.ok.inj hread)).1
    omega

/-- Lengths and integers are read back, and strings exactly if they have at most `isize::MAX`
bytes. -/
theorem written_reads_back_iff (data : Bytes) :
    (ReadsBack (fun w => w.writeString data) readString data ↔ data.length < 2 ^ 63) ∧
      (∀ n, ReadsBack (fun w => w.writeIntegerAsString n) readString (i64ToString n)) ∧
      ∀ len, ReadsBack (fun w => w.writeLength len) readLength len := by
  refine ⟨⟨fun hback => ?_, fun h => ?_⟩, fun n => ?_, fun len => ?_⟩
  · by_contra hlong
    exact not_readsBack_overlong (Nat.not_lt.mp hlong) hback
  · exact (reads_encString h).back fun w => w.writeString_eq data
  · exact (reads_encInteger n).back fun w => w.writeIntegerAsString_eq n
  · exact (reads_length len).back fun w => w.writeLength_eq len

theorem overlong_not_read_back : ∃ data : Bytes, data.length < 2 ^ 64 ∧
    ¬ReadsBack (fun w => w.writeString data) readString data := by
  have hlen : (List.replicate (2 ^ 63) (0 : UInt8)).length = 2 ^ 63 := List.length_replicate
  refine ⟨List.replicate (2 ^ 63) 0, ?_, not_readsBack_overlong hlen.ge⟩
  rw [hlen]
  norm_num

end ShrikeDb.Persistence
