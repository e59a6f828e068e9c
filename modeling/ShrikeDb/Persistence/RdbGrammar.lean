import ShrikeDb.Persistence.RoundTrip

/-! The file format the loader reads, as a grammar, and that the loader follows it. A
reader either takes one word of its grammar off the file, meets a declared length that
no buffer can have, or fails with an error. -/

namespace ShrikeDb.Persistence

open ByteOrder RdbLoader

/-! ## Words -/

/-- A length: its value, and whether it stands for a special encoding. -/
inductive LengthWord : Bytes → UInt64 × Bool → Prop
  | six {b : UInt8} (h : b.toNat < 64) : LengthWord [b] (UInt64.ofNat b.toNat, false)
  | fourteen {b c : UInt8} (hlo : 64 ≤ b.toNat) (hhi : b.toNat < 128) :
    LengthWord [b, c] (UInt64.ofNat (256 * (b.toNat - 64) + c.toNat), false)
  | thirtyTwo {w : Bytes} (h : w.length = 4) :
      LengthWord (0x80 :: w) (UInt64.ofNat (ofBeBytes w), false)
  | sixtyFour {w : Bytes} (h : w.length = 8) :
      LengthWord (0x81 :: w) (UInt64.ofNat (ofBeBytes w), false)
  | special {b : UInt8} (h : 192 ≤ b.toNat) : LengthWord [b] (UInt64.ofNat (b.toNat - 192), true)

/-- A string: plain, an integer of one, two or four bytes, or compressed, which reads
as the empty string. -/
inductive StringWord : Bytes → Bytes → Prop
  | plain {u data : Bytes} {len : UInt64} (hu : LengthWord u (len, false))
    (hfit : len.toNat < 2 ^ 63) (hlen : data.length = len.toNat) : StringWord (u ++ data) data
  | integer {b : UInt8} {v : Bytes}
    (h : (b, v.length) ∈ [((0xC0 : UInt8), 1), (0xC1, 2), (0xC2, 4)]) :
    StringWord (b :: v) (Decimal.ofInt (signed v.length (ofLeBytes v)))
  | lzf {u v data : Bytes} {clen ulen : UInt64} {e e' : Bool} (hu : LengthWord u (clen, e))
    (hv : LengthWord v (ulen, e')) (hfit : clen.toNat < 2 ^ 63) (hlen : data.length = clen.toNat) :
    StringWord (0xC3 :: (u ++ (v ++ data))) []

/-- The start of a string, up to a declared length above `isize::MAX`. -/
inductive OverlongWord : Bytes → Prop
  | plain {u : Bytes} {len : UInt64} (hu : LengthWord u (len, false)) (hlen : 2 ^ 63 ≤ len.toNat) :
    OverlongWord u
  | lzf {u v : Bytes} {clen ulen : UInt64} {e e' : Bool} (hu : LengthWord u (clen, e))
    (hv : LengthWord v (ulen, e')) (hlen : 2 ^ 63 ≤ clen.toNat) : OverlongWord (0xC3 :: (u ++ v))

/-- What the file says between the header and the end marker. -/
inductive Item
  | select (db : UInt64)
  | skipped
  | entry (key data : Bytes) (expireMs : Option UInt64)

/-- What follows a type byte: a key, and after the type of strings a value. -/
inductive TypedBody : UInt8 → Option UInt64 → Bytes → Item → Prop
  | other {t : UInt8} {expireMs : Option UInt64} {u key : Bytes} (ht : t ≠ rdbTypeString)
    (hu : StringWord u key) : TypedBody t expireMs u .skipped
  | entry {expireMs : Option UInt64} {u v key data : Bytes} (hu : StringWord u key)
    (hv : StringWord v data) : TypedBody rdbTypeString expireMs (u ++ v) (.entry key data expireMs)

/-- An opcode or type byte, and what follows it. -/
inductive ItemBody : UInt8 → Bytes → Item → Prop
  | select {u : Bytes} {db : UInt64} {e : Bool} (hu : LengthWord u (db, e)) :
    ItemBody rdbOpcodeSelectdb u (.select db)
  | resizedb {u v : Bytes} {r s : UInt64 × Bool} (hu : LengthWord u r) (hv : LengthWord v s) :
    ItemBody rdbOpcodeResizedb (u ++ v) .skipped
  | aux {u v key value : Bytes} (hu : StringWord u key) (hv : StringWord v value) :
    ItemBody rdbOpcodeAux (u ++ v) .skipped
  | expiretime {w v : Bytes} {t : UInt8} {item : Item} (hw : w.length = 4)
    (hv : TypedBody t (some ((UInt32.ofNat (ofLeBytes w)).toUInt64 * 1000)) v item) :
    ItemBody rdbOpcodeExpiretime (w ++ t :: v) item
  | expiretimeMs {w v : Bytes} {t : UInt8} {item : Item} (hw : w.length = 8)
    (hv : TypedBody t (some (UInt64.ofNat (ofLeBytes w))) v item) :
    ItemBody rdbOpcodeExpiretimeMs (w ++ t :: v) item
  | freq (b : UInt8) : ItemBody rdbOpcodeFreq [b] .skipped
  | idle {u : Bytes} {r : UInt64 × Bool} (hu : LengthWord u r) : ItemBody rdbOpcodeIdle u .skipped
  | typed {t : UInt8} {v : Bytes} {item : Item} (ht : t < rdbOpcodeSlotInfo)
    (hv : TypedBody t none v item) : ItemBody t v item

/-- The start of what follows a type byte, up to an overlong string. -/
inductive TypedTrap : UInt8 → Bytes → Prop
  | key {t : UInt8} {u : Bytes} (hu : OverlongWord u) : TypedTrap t u
  | value {u v key : Bytes} (hu : StringWord u key) (hv : OverlongWord v) :
      TypedTrap rdbTypeString (u ++ v)

/-- The start of what follows an opcode or type byte, up to an overlong string. -/
inductive ItemTrap : UInt8 → Bytes → Prop
  | auxKey {u : Bytes} (hu : OverlongWord u) : ItemTrap rdbOpcodeAux u
  | auxValue {u v key : Bytes} (hu : StringWord u key) (hv : OverlongWord v) :
      ItemTrap rdbOpcodeAux (u ++ v)
  | expiretime {w v : Bytes} {t : UInt8} (hw : w.length = 4) (hv : TypedTrap t v) :
    ItemTrap rdbOpcodeExpiretime (w ++ t :: v)
  | expiretimeMs {w v : Bytes} {t : UInt8} (hw : w.length = 8) (hv : TypedTrap t v) :
    ItemTrap rdbOpcodeExpiretimeMs (w ++ t :: v)
  | typed {t : UInt8} {v : Bytes} (ht : t < rdbOpcodeSlotInfo) (hv : TypedTrap t v) : ItemTrap t v

inductive Body : Bytes → List Item → Prop
  | nil : Body [] []
  | cons {op : UInt8} {w rest : Bytes} {item : Item} {items : List Item} (h : ItemBody op w item)
    (hrest : Body rest items) : Body (op :: w ++ rest) (item :: items)

/-- The magic word and a version that is supported. -/
inductive HeaderWord : Bytes → Prop
  | mk {ver : Bytes} {version : UInt32} (hlen : ver.length = 4)
    (hver : (fromUtf8 ver).bind parseU32 = some version) (hle : version ≤ 12) :
    HeaderWord (ascii "REDIS" ++ ver)

/-! ## Readers -/

/-- The reader takes a word of the grammar off the file and returns its value, or comes
to the end of a trap; else it fails with an error. -/
structure Parses {α : Type} (x : Load α) (word : Bytes → α → Prop) (trap : Bytes → Prop) :
    Prop where
  reads {w : Bytes} {a : α} : word w a → Reads x w a
  overflows {w rest : Bytes} {l : RdbLoader} : trap w → l.reader = w ++ rest →
    x l = .error .capacityOverflow
  of_ok {l l' : RdbLoader} {a : α} : x l = .ok (a, l') → ∃ w rest, word w a ∧ l.reader = w ++ rest
  of_overflow {l : RdbLoader} : x l = .error .capacityOverflow → ∃ w rest, trap w ∧
    l.reader = w ++ rest

namespace Parses

variable {α β : Type} {x : Load α} {f : α → Load β} {P P' : Bytes → α → Prop} {T T' : Bytes → Prop}
  {Q : α → Bytes → β → Prop} {U : α → Bytes → Prop}

theorem congr (h : Parses x P T) (hP : ∀ w a, P' w a ↔ P w a) (hT : ∀ w, T' w ↔ T w) :
    Parses x P' T' := by
  obtain rfl : P' = P := funext fun w => funext fun a => propext (hP w a)
  obtain rfl : T' = T := funext fun w => propext (hT w)
  exact h

theorem bind (hx : Parses x P T) (hf : ∀ a, (∃ u, P u a) → Parses (f a) (Q a) (U a)) :
    Parses (x >>= f) (fun w b => ∃ u v a, P u a ∧ Q a v b ∧ w = u ++ v)
      (fun w => T w ∨ ∃ u v a, P u a ∧ U a v ∧ w = u ++ v) where
  reads := by
    rintro w b ⟨u, v, a, hu, hv, rfl⟩
    exact (hx.reads hu).bind ((hf a ⟨u, hu⟩).reads hv)
  overflows := by
    rintro w rest l (hw | ⟨u, v, a, hu, hv, rfl⟩) hl
    · show Except.bind (x l) _ = _
      rw [hx.overflows hw hl]
      rfl
    · rw [List.append_assoc] at hl
      rw [(hx.reads hu).at f hl]
      exact (hf a ⟨u, hu⟩).overflows hv rfl
  of_ok := by
    intro l l' b h
    obtain ⟨a, l1, h1, h2⟩ := bind_eq_ok h
    obtain ⟨u, rest, hu, hl⟩ := hx.of_ok h1
    obtain ⟨v, rest', hv, hl1⟩ := (hf a ⟨u, hu⟩).of_ok h2
    cases h1.symm.trans (hx.reads hu l rest hl)
    refine ⟨u ++ v, rest', ⟨u, v, a, hu, hv, rfl⟩, ?_⟩
    rw [hl, List.append_assoc, ← hl1]
    rfl
  of_overflow := by
    intro l h
    change Except.bind (x l) _ = _ at h
    cases hxl : x l with
    | error e =>
      rw [hxl] at h
      cases h
      obtain ⟨w, rest, hw, hl⟩ := hx.of_overflow hxl
      exact ⟨w, rest, .inl hw, hl⟩
    | ok r =>
      obtain ⟨a, l1⟩ := r
      rw [hxl] at h
      obtain ⟨u, rest, hu, hl⟩ := hx.of_ok hxl
      obtain ⟨v, rest', hv, hl1⟩ := (hf a ⟨u, hu⟩).of_overflow h
      cases hxl.symm.trans (hx.reads hu l rest hl)
      refine ⟨u ++ v, rest', .inr ⟨u, v, _, hu, hv, rfl⟩, ?_⟩
      rw [hl, List.append_assoc, ← hl1]
      rfl

theorem pure (a : α) : Parses (Pure.pure a) (fun w b => w = [] ∧ b = a) fun _ => False where
  reads := by
    rintro w b ⟨rfl, rfl⟩
    exact Reads.pure b
  overflows h _ := h.elim
  of_ok := by
    intro l l' b h
    cases h
    exact ⟨[], l.reader, ⟨rfl, rfl⟩, rfl⟩
  of_overflow := by
    intro l h
    cases h

theorem fail (e : RdbLoadError) :
    Parses (RdbLoader.fail e : Load α) (fun _ _ => False) fun _ => False where
  reads h := h.elim
  overflows h _ := h.elim
  of_ok := by
    intro l l' a h
    cases h
  of_overflow := by
    intro l h
    cases h

theorem map (hx : Parses x P T) (g : α → β) :
    Parses (x >>= fun a => Pure.pure (g a)) (fun w b => ∃ a, P w a ∧ b = g a) T := by
  refine (hx.bind fun a _ => Parses.pure (g a)).congr (fun w b => ?_) fun w => ?_
  · constructor
    · rintro ⟨a, ha, rfl⟩
      exact ⟨w, [], a, ha, ⟨rfl, rfl⟩, (List.append_nil w).symm⟩
    · rintro ⟨u, v, a, ha, ⟨rfl, rfl⟩, rfl⟩
      rw [List.append_nil]
      exact ⟨a, ha, rfl⟩
  · constructor
    · exact .inl
    · rintro (h | ⟨_, _, _, _, h, _⟩)
      · exact h
      · exact h.elim

end Parses

theorem parses_exact (n : Nat) :
    Parses (readExact n) (fun w a => w.length = n ∧ a = w) fun _ => False where
  reads := by
    rintro w a ⟨hlen, rfl⟩
    exact reads_exact' hlen
  overflows h _ := h.elim
  of_ok := by
    intro l l' a h
    have hle : n ≤ l.reader.length := by
      have hlen := readExact_length h
      omega
    have hlen : (l.reader.take n).length = n := List.length_take_of_le hle
    have hl : l.reader = l.reader.take n ++ l.reader.drop n := (List.take_append_drop n _).symm
    cases h.symm.trans (reads_exact' hlen l _ hl)
    exact ⟨_, _, ⟨hlen, rfl⟩, hl⟩
  of_overflow := by
    intro l h
    by_cases hle : n ≤ l.reader.length
    · have hlen : (l.reader.take n).length = n := List.length_take_of_le hle
      cases h.symm.trans (reads_exact' hlen l _ (List.take_append_drop n _).symm)
    · change Except.bind (takeBytes n l) _ = _ at h
      rw [takeBytes, if_neg hle] at h
      cases h

theorem parses_byte : Parses readByte (fun w b => w = [b]) fun _ => False := by
  refine ((parses_exact 1).map fun buf => buf.headD 0).congr (fun w b => ?_) fun _ => Iff.rfl
  constructor
  · rintro rfl
    exact ⟨[b], ⟨rfl, rfl⟩, rfl⟩
  · rintro ⟨a, ⟨hlen, rfl⟩, rfl⟩
    obtain ⟨c, rfl⟩ := List.length_eq_one_iff.mp hlen
    rfl

theorem parses_buffer (len : UInt64) :
    Parses (readBuffer len) (fun w a => len.toNat < 2 ^ 63 ∧ w.length = len.toNat ∧ a = w)
      fun w => 2 ^ 63 ≤ len.toNat ∧ w = [] := by
  rw [readBuffer]
  by_cases hlen : 2 ^ 63 ≤ len.toNat
  · rw [if_pos hlen]
    refine ⟨fun h => absurd h.1 (Nat.not_lt.mpr hlen), fun _ _ => rfl, (by rintro _ _ _ ⟨⟩),
      fun {l} _ => ?_⟩
    exact ⟨[], l.reader, ⟨hlen, rfl⟩, rfl⟩
  · rw [if_neg hlen]
    refine (parses_exact _).congr (fun w a => and_iff_right (Nat.lt_of_not_le hlen)) fun w => ?_
    exact iff_of_false (fun h => hlen h.1) id

/-! ### Lengths -/

theorem shiftLeft_or (x : Nat) (hx : x < 64) (c : UInt8) :
    (UInt64.ofNat x <<< 8) ||| c.toUInt64 = UInt64.ofNat (256 * x + c.toNat) := by
  have hc : c.toNat < 2 ^ 8 := c.toNat_lt
  have hshift : (UInt64.ofNat x <<< 8).toNat = x <<< 8 := by
    rw [UInt64.toNat_shiftLeft, UInt64.toNat_ofNat', Nat.mod_eq_of_lt (by omega : x < 2 ^ 64)]
    have hlt : x <<< 8 < 2 ^ 64 := by
      rw [Nat.shiftLeft_eq]
      omega
    exact Nat.mod_eq_of_lt hlt
  apply UInt64.toNat_inj.mp
  rw [UInt64.toNat_or, hshift, UInt8.toNat_toUInt64, ← Nat.shiftLeft_add_eq_or_of_lt hc,
    UInt64.toNat_ofNat', Nat.mod_eq_of_lt (by omega), Nat.shiftLeft_eq]
  omega

variable {b : UInt8} {len : UInt64}

/-- The encodings of 32 and 64 bits; the other bytes with these high bits are refused. -/
theorem parses_lengthTail_two (hlo : 128 ≤ b.toNat) (hhi : b.toNat < 192) :
    Parses (readLengthTail (UInt8.ofNat 2) (UInt64.ofNat (b.toNat - 128)))
      (fun w r => LengthWord (b :: w) r) fun _ => False := by
  have hlow : ∀ k, k < 64 →
      (UInt64.ofNat (b.toNat - 128) = UInt64.ofNat k ↔ b = UInt8.ofNat (128 + k)) := by
    intro k hk
    rw [← UInt64.toNat_inj, ← UInt8.toNat_inj, UInt64.toNat_ofNat', UInt64.toNat_ofNat',
      UInt8.toNat_ofNat']
    omega
  have hword : ∀ w r, LengthWord (b :: w) r ↔
      (b = 0x80 ∧ w.length = 4 ∨ b = 0x81 ∧ w.length = 8) ∧
      r = (UInt64.ofNat (ofBeBytes w), false) := by
    intro w r
    constructor
    · intro hw
      cases hw with
      | six h => omega
      | fourteen _ h => omega
      | thirtyTwo h => exact ⟨.inl ⟨rfl, h⟩, rfl⟩
      | sixtyFour h => exact ⟨.inr ⟨rfl, h⟩, rfl⟩
      | special h => omega
    · rintro ⟨⟨rfl, h⟩ | ⟨rfl, h⟩, rfl⟩
      · exact .thirtyTwo h
      · exact .sixtyFour h
  have hexact : ∀ n, Parses (readExact n >>= fun buf => pure (UInt64.ofNat (ofBeBytes buf), false))
      (fun w r => w.length = n ∧ r = (UInt64.ofNat (ofBeBytes w), false)) fun _ => False := by
    intro n
    refine ((parses_exact n).map _).congr (fun w r => ?_) fun _ => Iff.rfl
    constructor
    · rintro ⟨hlen, rfl⟩
      exact ⟨w, ⟨hlen, rfl⟩, rfl⟩
    · rintro ⟨buf, ⟨hlen, rfl⟩, rfl⟩
      exact ⟨hlen, rfl⟩
  rw [readLengthTail, if_neg (by decide), if_neg (by decide), if_pos (by decide)]
  split
  · next h0 =>
    obtain rfl : b = 0x80 := (hlow 0 (by decide)).mp h0
    exact (hexact 4).congr (fun w r => by simp [hword]) fun _ => Iff.rfl
  · next h0 =>
    split
    · next h1 =>
      obtain rfl : b = 0x81 := (hlow 1 (by decide)).mp h1
      exact (hexact 8).congr (fun w r => by simp [hword]) fun _ => Iff.rfl
    · next h1 =>
      refine (Parses.fail _).congr (fun w r => iff_of_false (fun hw => ?_) id) fun _ => Iff.rfl
      rcases ((hword w r).mp hw).1 with ⟨hb, -⟩ | ⟨hb, -⟩
      · exact h0 ((hlow 0 (by decide)).mpr hb)
      · exact h1 ((hlow 1 (by decide)).mpr hb)

theorem parses_lengthTail (b : UInt8) :
    Parses (readLengthTail ((b >>> 6) &&& 0x03) (b &&& 0x3F).toUInt64) (fun w r =>
      LengthWord (b :: w) r) fun _ => False := by
  have hlt : b.toNat < 256 := b.toNat_lt
  obtain ⟨htype, hlow⟩ := split_first (b := b) (t := b.toNat / 64) (x := b.toNat % 64)
    (Nat.div_add_mod _ _).symm (by omega) (by omega)
  rw [htype, hlow]
  have hcases : b.toNat < 64 ∨ (64 ≤ b.toNat ∧ b.toNat < 128) ∨ (128 ≤ b.toNat ∧ b.toNat < 192) ∨
      192 ≤ b.toNat := by omega
  rcases hcases with h | ⟨hlo, hhi⟩ | ⟨hlo, hhi⟩ | h
  · have ht : b.toNat / 64 = 0 := by omega
    have hx : b.toNat % 64 = b.toNat := by omega
    rw [ht, hx]
    refine (Parses.pure _).congr (fun w r => ?_) fun _ => Iff.rfl
    constructor
    · intro hw
      cases hw with
      | six _ => exact ⟨rfl, rfl⟩
      | fourteen hlo _ => omega
      | thirtyTwo _ => exact absurd h (by decide)
      | sixtyFour _ => exact absurd h (by decide)
      | special hlo => omega
    · rintro ⟨rfl, rfl⟩
      exact .six h
  · have ht : b.toNat / 64 = 1 := by omega
    have hx : b.toNat % 64 = b.toNat - 64 := by omega
    rw [ht, hx]
    refine (parses_byte.map _).congr (fun w r => ?_) fun _ => Iff.rfl
    constructor
    · intro hw
      cases hw with
      | six h => omega
      | @fourteen _ c _ _ => exact ⟨c, rfl, by rw [shiftLeft_or _ (by omega)]⟩
      | thirtyTwo _ => exact absurd hhi (by decide)
      | sixtyFour _ => exact absurd hhi (by decide)
      | special hlo => omega
    · rintro ⟨c, rfl, rfl⟩
      rw [shiftLeft_or _ (by omega)]
      exact .fourteen hlo hhi
  · have ht : b.toNat / 64 = 2 := by omega
    have hx : b.toNat % 64 = b.toNat - 128 := by omega
    rw [ht, hx]
    exact parses_lengthTail_two hlo hhi
  · have ht : b.toNat / 64 = 3 := by omega
    have hx : b.toNat % 64 = b.toNat - 192 := by omega
    rw [ht, hx]
    refine (Parses.pure _).congr (fun w r => ?_) fun _ => Iff.rfl
    constructor
    · intro hw
      cases hw with
      | six _ => omega
      | fourteen _ _ => omega
      | thirtyTwo _ => exact absurd h (by decide)
      | sixtyFour _ => exact absurd h (by decide)
      | special _ => exact ⟨rfl, rfl⟩
    · rintro ⟨rfl, rfl⟩
      exact .special h

theorem parses_lengthWithEncoding : Parses readLengthWithEncoding LengthWord fun _ => False := by
  refine (parses_byte.bind fun b _ => parses_lengthTail b).congr (fun w r => ?_) fun w => ?_
  · constructor
    · intro hw
      have hne : w ≠ [] := by cases hw <;> exact List.cons_ne_nil _ _
      obtain ⟨b, v, rfl⟩ := List.exists_cons_of_ne_nil hne
      exact ⟨[b], v, b, rfl, hw, rfl⟩
    · rintro ⟨u, v, b, rfl, hw, rfl⟩
      exact hw
  · simp

theorem parses_length :
    Parses readLength (fun w len => ∃ e, LengthWord w (len, e)) fun _ => False := by
  refine (parses_lengthWithEncoding.map Prod.fst).congr (fun w len => ?_) fun _ => Iff.rfl
  constructor
  · rintro ⟨e, hw⟩
    exact ⟨_, hw, rfl⟩
  · rintro ⟨r, hw, rfl⟩
    exact ⟨r.2, hw⟩

/-! ### Strings -/

theorem LengthWord.eq_special {w : Bytes} (h : LengthWord w (len, true)) :
    ∃ b : UInt8, 192 ≤ b.toNat ∧ w = [b] ∧ len = UInt64.ofNat (b.toNat - 192) := by
  generalize hr : (len, true) = r at h
  cases h with
  | special h => exact ⟨_, h, rfl, congrArg Prod.fst hr⟩
  | _ => exact absurd (congrArg Prod.snd hr) (by simp)

theorem LengthWord.eq_of_special {u v : Bytes} (hu : LengthWord u (len, true))
    (hv : LengthWord v (len, true)) : u = v := by
  obtain ⟨b, hb, rfl, hlen⟩ := hu.eq_special
  obtain ⟨c, hc, rfl, hlen'⟩ := hv.eq_special
  have hnat := congrArg UInt64.toNat (hlen.symm.trans hlen')
  rw [UInt64.toNat_ofNat', UInt64.toNat_ofNat'] at hnat
  have hb' := b.toNat_lt
  have hc' := c.toNat_lt
  have heq : b.toNat = c.toNat := by omega
  rw [UInt8.toNat_inj.mp heq]

theorem LengthWord.lt_of_plain {w : Bytes} (h : LengthWord (b :: w) (len, false)) :
    b.toNat < 192 := by
  generalize hr : (len, false) = r at h
  cases h with
  | six h => omega
  | fourteen _ h => omega
  | thirtyTwo h => decide
  | sixtyFour h => decide
  | special h => exact absurd (congrArg Prod.snd hr) (by simp)

/-- After a special length there is an integer or a compressed string. -/
theorem stringWord_special (h : 192 ≤ b.toNat) (v data : Bytes) : StringWord (b :: v) data ↔
    ((b, v.length) ∈ [((0xC0 : UInt8), 1), (0xC1, 2), (0xC2, 4)] ∧
        data = Decimal.ofInt (signed v.length (ofLeBytes v))) ∨
      (b = 0xC3 ∧ data = [] ∧ ∃ clen, (∃ u w ulen d, (∃ e, LengthWord u (clen, e)) ∧
        (∃ e, LengthWord w (ulen, e)) ∧ (clen.toNat < 2 ^ 63 ∧ d.length = clen.toNat) ∧
        v = u ++ (w ++ d))) := by
  constructor
  · intro hw
    generalize hbv : b :: v = s at hw
    cases hw with
    | @plain u _ len hu _ _ =>
      cases u with
      | nil => cases hu
      | cons c u =>
        cases hbv
        have := hu.lt_of_plain
        omega
    | integer hb =>
      cases hbv
      exact .inl ⟨hb, rfl⟩
    | lzf hu hw hfit hlen =>
      cases hbv
      exact .inr ⟨rfl, rfl, _, _, _, _, _, ⟨_, hu⟩, ⟨_, hw⟩, ⟨hfit, hlen⟩, rfl⟩
  · rintro (⟨hb, rfl⟩ | ⟨rfl, rfl, clen, u, w, ulen, d, ⟨e, hu⟩, ⟨e', hw⟩, ⟨hfit, hlen⟩, rfl⟩)
    · exact .integer hb
    · exact .lzf hu hw hfit hlen

theorem overlongWord_special (h : 192 ≤ b.toNat) (v : Bytes) : OverlongWord (b :: v) ↔
    b = 0xC3 ∧ ∃ u w clen ulen, (∃ e, LengthWord u (clen, e)) ∧ (∃ e, LengthWord w (ulen, e)) ∧
      2 ^ 63 ≤ clen.toNat ∧ v = u ++ w := by
  constructor
  · intro hw
    generalize hbv : b :: v = s at hw
    cases hw with
    | plain hu _ =>
      cases hbv
      have := hu.lt_of_plain
      omega
    | lzf hu hw hlen =>
      cases hbv
      exact ⟨rfl, _, _, _, _, ⟨_, hu⟩, ⟨_, hw⟩, hlen, rfl⟩
  · rintro ⟨rfl, u, w, clen, ulen, ⟨e, hu⟩, ⟨e', hw⟩, hlen, rfl⟩
    exact .lzf hu hw hlen

theorem parses_signed (n : Nat) : Parses (readSigned n)
    (fun v data => v.length = n ∧ data = Decimal.ofInt (signed v.length (ofLeBytes v))) fun _ =>
      False := by
  refine ((parses_exact n).map _).congr (fun v data => ?_) fun _ => Iff.rfl
  constructor
  · rintro ⟨rfl, rfl⟩
    exact ⟨v, ⟨rfl, rfl⟩, rfl⟩
  · rintro ⟨buf, ⟨rfl, rfl⟩, rfl⟩
    exact ⟨rfl, rfl⟩

theorem parses_lzf :
    Parses (do
        let clen ← readLength
        let _ulen ← readLength
        let _ ← readBuffer clen
        pure ([] : Bytes))
      (fun v data => data = [] ∧ ∃ clen, (∃ u w ulen d, (∃ e, LengthWord u (clen, e)) ∧
        (∃ e, LengthWord w (ulen, e)) ∧ (clen.toNat < 2 ^ 63 ∧ d.length = clen.toNat) ∧
        v = u ++ (w ++ d)))
      fun v => ∃ u w clen ulen, (∃ e, LengthWord u (clen, e)) ∧ (∃ e, LengthWord w (ulen, e)) ∧
        2 ^ 63 ≤ clen.toNat ∧ v = u ++ w := by
  refine (parses_length.bind fun clen _ => parses_length.bind fun _ _ =>
    (parses_buffer clen).map fun _ => []).congr (fun v data => ?_) fun v => ?_
  · constructor
    · rintro ⟨rfl, clen, u, w, ulen, d, hu, hw, ⟨hfit, hlen⟩, rfl⟩
      exact ⟨u, w ++ d, clen, hu, ⟨w, d, ulen, hw, ⟨d, ⟨hfit, hlen, rfl⟩, rfl⟩, rfl⟩, rfl⟩
    · rintro ⟨u, _, clen, hu, ⟨w, d, ulen, hw, ⟨_, ⟨hfit, hlen, -⟩, rfl⟩, rfl⟩, rfl⟩
      exact ⟨rfl, clen, u, w, ulen, d, hu, hw, ⟨hfit, hlen⟩, rfl⟩
  · constructor
    · rintro ⟨u, w, clen, ulen, hu, hw, hlen, rfl⟩
      exact .inr ⟨u, w, clen, hu, .inr ⟨w, [], ulen, hw, ⟨hlen, rfl⟩, (List.append_nil w).symm⟩,
        rfl⟩
    · rintro (h | ⟨u, _, clen, hu, h | ⟨w, _, ulen, hw, ⟨hlen, rfl⟩, rfl⟩, rfl⟩)
      · exact h.elim
      · exact h.elim
      · exact ⟨u, w, clen, ulen, hu, hw, hlen, by rw [List.append_nil]⟩

/-- What `read_string` does after a length. -/
theorem parses_special (h : 192 ≤ b.toNat) (hlen : len = UInt64.ofNat (b.toNat - 192)) :
    Parses (if len.toUInt8 = rdbEncInt8 then readSigned 1
      else if len.toUInt8 = rdbEncInt16 then readSigned 2
      else if len.toUInt8 = rdbEncInt32 then readSigned 4
      else if len.toUInt8 = rdbEncLzf then do
        let clen ← readLength
        let _ulen ← readLength
        let _ ← readBuffer clen
        pure []
      else fail (.corrupt (ascii "unknown string encoding " ++ u64ToString len)))
      (fun v data => StringWord (b :: v) data) fun v => OverlongWord (b :: v) := by
  have hkind : ∀ k : UInt8, k.toNat < 64 → (len.toUInt8 = k ↔ b = 192 + k) := by
    intro k hk
    have hb := b.toNat_lt
    have h192 : (192 : UInt8).toNat = 192 := rfl
    rw [← UInt8.toNat_inj, ← UInt8.toNat_inj, hlen, UInt64.toNat_toUInt8, UInt64.toNat_ofNat',
      UInt8.toNat_add, h192]
    omega
  simp only [stringWord_special h, overlongWord_special h]
  split
  · next hk =>
    obtain rfl : b = 0xC0 := (hkind 0 (by decide)).mp hk
    exact (parses_signed 1).congr (fun v data => by simp) fun v => by simp
  · next h0 =>
    split
    · next hk =>
      obtain rfl : b = 0xC1 := (hkind 1 (by decide)).mp hk
      exact (parses_signed 2).congr (fun v data => by simp) fun v => by simp
    · next h1 =>
      split
      · next hk =>
        obtain rfl : b = 0xC2 := (hkind 2 (by decide)).mp hk
        exact (parses_signed 4).congr (fun v data => by simp) fun v => by simp
      · next h2 =>
        split
        · next hk =>
          obtain rfl : b = 0xC3 := (hkind 3 (by decide)).mp hk
          exact parses_lzf.congr (fun v data => by simp) fun v => by simp
        · next h3 =>
          have hb0 : b ≠ 0xC0 := fun hb => h0 ((hkind 0 (by decide)).mpr hb)
          have hb1 : b ≠ 0xC1 := fun hb => h1 ((hkind 1 (by decide)).mpr hb)
          have hb2 : b ≠ 0xC2 := fun hb => h2 ((hkind 2 (by decide)).mpr hb)
          have hb3 : b ≠ 0xC3 := fun hb => h3 ((hkind 3 (by decide)).mpr hb)
          exact (Parses.fail _).congr (fun v data => by simp [hb0, hb1, hb2, hb3])
            fun v => by simp [hb3]

theorem parses_string : Parses readString StringWord OverlongWord := by
  have htail : ∀ r : UInt64 × Bool, (∃ u, LengthWord u r) → Parses
      (if r.2 then
        if r.1.toUInt8 = rdbEncInt8 then readSigned 1
        else if r.1.toUInt8 = rdbEncInt16 then readSigned 2
        else if r.1.toUInt8 = rdbEncInt32 then readSigned 4
        else if r.1.toUInt8 = rdbEncLzf then do
          let clen ← readLength
          let _ulen ← readLength
          let _ ← readBuffer clen
          pure []
        else fail (.corrupt (ascii "unknown string encoding " ++ u64ToString r.1))
      else readBuffer r.1)
      (fun v data => if r.2 then ∀ u, LengthWord u r → StringWord (u ++ v) data
        else r.1.toNat < 2 ^ 63 ∧ v.length = r.1.toNat ∧ data = v)
      (fun v => if r.2 then ∀ u, LengthWord u r → OverlongWord (u ++ v)
        else 2 ^ 63 ≤ r.1.toNat ∧ v = []) := by
    rintro ⟨len, e⟩ ⟨u, hu⟩
    cases e with
    | false => exact parses_buffer len
    | true =>
      obtain ⟨b, hb, rfl, hlen⟩ := hu.eq_special
      refine (parses_special hb hlen).congr (fun v data => ?_) fun v => ?_
      · exact ⟨fun h => h [b] hu, fun h u hu' => hu.eq_of_special hu' ▸ h⟩
      · exact ⟨fun h => h [b] hu, fun h u hu' => hu.eq_of_special hu' ▸ h⟩
  refine (parses_lengthWithEncoding.bind htail).congr (fun w data => ?_) fun w => ?_
  · constructor
    · intro hw
      have hspecial : ∀ {b : UInt8} {v : Bytes}, 192 ≤ b.toNat → StringWord (b :: v) data →
          ∃ u v' r, LengthWord u r ∧ (if r.2 then ∀ u, LengthWord u r → StringWord (u ++ v') data
            else r.1.toNat < 2 ^ 63 ∧ v'.length = r.1.toNat ∧ data = v') ∧ b :: v = u ++ v' := by
        intro b v hb hw
        exact ⟨[b], v, _, .special hb, fun u hu => (LengthWord.special hb).eq_of_special hu ▸ hw,
          rfl⟩
      cases hw with
      | plain hu hfit hlen => exact ⟨_, _, _, hu, ⟨hfit, hlen, rfl⟩, rfl⟩
      | integer h =>
        refine hspecial ?_ (.integer h)
        simp only [List.mem_cons, Prod.mk.injEq, List.not_mem_nil, or_false] at h
        rcases h with ⟨rfl, -⟩ | ⟨rfl, -⟩ | ⟨rfl, -⟩ <;> decide
      | lzf hu hv hfit hlen => exact hspecial (by decide) (.lzf hu hv hfit hlen)
    · rintro ⟨u, v, ⟨len, e⟩, hu, hv, rfl⟩
      cases e with
      | true => exact hv u hu
      | false =>
        obtain ⟨hfit, hlen, rfl⟩ := hv
        exact .plain hu hfit hlen
  · constructor
    · intro hw
      refine .inr ?_
      cases hw with
      | plain hu hlen => exact ⟨w, [], _, hu, ⟨hlen, rfl⟩, (List.append_nil w).symm⟩
      | lzf hu hv hlen =>
        have hb : 192 ≤ (0xC3 : UInt8).toNat := by decide
        have hw := OverlongWord.lzf hu hv hlen
        exact ⟨[0xC3], _, _, .special hb,
          fun u hu => (LengthWord.special hb).eq_of_special hu ▸ hw, rfl⟩
    · rintro (h | ⟨u, v, ⟨len, e⟩, hu, hv, rfl⟩)
      · exact h.elim
      · cases e with
        | true => exact hv u hu
        | false =>
          obtain ⟨hlen, rfl⟩ := hv
          rw [List.append_nil]
          exact .plain hu hlen

end ShrikeDb.Persistence
