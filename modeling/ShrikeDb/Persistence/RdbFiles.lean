import ShrikeDb.Persistence.RdbGrammar

/-! Which files the loader accepts, what it reads from them, and on which it panics: the
loader goes through a file item by item, so both are read off the items. -/

namespace ShrikeDb.Persistence

open ByteOrder RdbLoader

/-! ## Items -/

/-- The item after its first byte, the end marker apart. -/
def readTyped (typeByte : UInt8) (expireMs : Option UInt64) : Load Item := do
  let key ← readString
  if typeByte = rdbTypeString then
    let data ← readString
    pure (.entry key data expireMs)
  else pure .skipped

def readItem (opcode : UInt8) : Load Item :=
  if opcode = rdbOpcodeSelectdb then do
    let len ← readLength
    pure (.select len)
  else if opcode = rdbOpcodeResizedb then do
    let _dbSize ← readLength
    let _expireSize ← readLength
    pure .skipped
  else if opcode = rdbOpcodeAux then do
    let _key ← readString
    let _value ← readString
    pure .skipped
  else if opcode = rdbOpcodeExpiretime then do
    let secs ← readU32Le
    let typeByte ← readByte
    readTyped typeByte (some (secs.toUInt64 * 1000))
  else if opcode = rdbOpcodeExpiretimeMs then do
    let ms ← readU64Le
    let typeByte ← readByte
    readTyped typeByte (some ms)
  else if opcode = rdbOpcodeFreq then do
    let _freq ← readByte
    pure .skipped
  else if opcode = rdbOpcodeIdle then do
    let _idle ← readLength
    pure .skipped
  else if opcode = rdbOpcodeModuleAux ∨ opcode = rdbOpcodeFunction ∨ opcode = rdbOpcodeFunction2 ∨
      opcode = rdbOpcodeSlotInfo then fail (.unsupportedType opcode)
  else readTyped opcode none

section Resume

variable {F : Type}

variable (next : Load (Option (RdbEntry F)))

/-- What `read_entry` goes on with after an item. -/
def Item.resume : Item → Load (Option (RdbEntry F))
  | .select db => do
    modify fun l => { l with currentDb := db.toUInt32 }
    next
  | .skipped => next
  | .entry key data expireMs => do
    let l ← get
    pure (some ⟨l.currentDb, key, PrimeValue.fromBytes data, expireMs⟩)

theorem readEntryWithType_eq (typeByte : UInt8) (expireMs : Option UInt64) :
    readEntryWithType next typeByte expireMs = readTyped typeByte expireMs >>=
      Item.resume next := by
  rw [readEntryWithType, readTyped, bind_assoc]
  congr 1
  funext key
  split
  · rw [bind_assoc]
    rfl
  · rfl

theorem readOpcode_eq {opcode : UInt8} (h : opcode ≠ rdbOpcodeEof) :
    readOpcode next opcode = readItem opcode >>= Item.resume next := by
  rw [readOpcode, if_neg h, readItem]
  split
  · rw [bind_assoc]
    rfl
  · split
    · simp only [bind_assoc]
      rfl
    · split
      · simp only [bind_assoc]
        rfl
      · split
        · simp only [bind_assoc, readTypedEntry, readEntryWithType_eq]
        · split
          · simp only [bind_assoc, readTypedEntry, readEntryWithType_eq]
          · split
            · simp only [bind_assoc]
              rfl
            · split
              · simp only [bind_assoc]
                rfl
              · split
                · rfl
                · exact readEntryWithType_eq next opcode none

end Resume

theorem parses_typed (t : UInt8) (expireMs : Option UInt64) :
    Parses (readTyped t expireMs) (TypedBody t expireMs) (TypedTrap t) := by
  rw [readTyped]
  by_cases ht : t = rdbTypeString
  · subst ht
    refine (parses_string.bind fun key _ => parses_string.map fun data =>
      Item.entry key data expireMs).congr (fun w item => ?_) fun w => ?_
    · constructor
      · intro hw
        generalize htype : rdbTypeString = t at hw
        cases hw with
        | other ht hu => exact absurd htype.symm ht
        | entry hu hv => exact ⟨_, _, _, hu, ⟨_, hv, rfl⟩, rfl⟩
      · rintro ⟨u, v, key, hu, ⟨data, hv, rfl⟩, rfl⟩
        exact .entry hu hv
    · constructor
      · intro hw
        generalize htype : rdbTypeString = t at hw
        cases hw with
        | key hu => exact .inl hu
        | value hu hv => exact .inr ⟨_, _, _, hu, hv, rfl⟩
      · rintro (hu | ⟨u, v, key, hu, hv, rfl⟩)
        · exact .key hu
        · exact .value hu hv
  · simp only [if_neg ht]
    refine (parses_string.map fun _ => Item.skipped).congr (fun w item => ?_) fun w => ?_
    · constructor
      · intro hw
        cases hw with
        | other _ hu => exact ⟨_, hu, rfl⟩
        | entry hu hv => exact absurd rfl ht
      · rintro ⟨key, hu, rfl⟩
        exact .other ht hu
    · constructor
      · intro hw
        cases hw with
        | key hu => exact hu
        | value hu hv => exact absurd rfl ht
      · exact .key

/-- An expiry, then a typed entry. -/
theorem parses_timed {γ : Type} {x : Load γ} {n : Nat} {g : Bytes → γ} (toMs : γ → UInt64)
    (hx : Parses x (fun w a => w.length = n ∧ a = g w) fun _ => False) :
    Parses (do
        let a ← x
        let typeByte ← readByte
        readTyped typeByte (some (toMs a)))
      (fun s item => ∃ w t v, w.length = n ∧ TypedBody t (some (toMs (g w))) v item ∧
      s = w ++ t :: v) fun s => ∃ w t v, w.length = n ∧ TypedTrap t v ∧ s = w ++ t :: v := by
  refine (hx.bind fun a _ => parses_byte.bind fun t _ => parses_typed t (some (toMs a))).congr
    (fun s item => ?_) fun s => ?_
  · constructor
    · rintro ⟨w, t, v, hw, hv, rfl⟩
      exact ⟨w, t :: v, g w, ⟨hw, rfl⟩, ⟨[t], v, t, rfl, hv, rfl⟩, rfl⟩
    · rintro ⟨w, _, _, ⟨hw, rfl⟩, ⟨_, v, t, rfl, hv, rfl⟩, rfl⟩
      exact ⟨w, t, v, hw, hv, rfl⟩
  · constructor
    · rintro ⟨w, t, v, hw, hv, rfl⟩
      exact .inr ⟨w, t :: v, g w, ⟨hw, rfl⟩, .inr ⟨[t], v, t, rfl, hv, rfl⟩, rfl⟩
    · rintro (h | ⟨w, _, _, ⟨hw, -⟩, h | ⟨_, v, t, rfl, hv, rfl⟩, rfl⟩)
      · exact h.elim
      · exact h.elim
      · exact ⟨w, t, v, hw, hv, rfl⟩

theorem Parses.map_exact {γ : Type} (n : Nat) (g : Bytes → γ) :
    Parses (readExact n >>= fun buf => Pure.pure (g buf)) (fun w a => w.length = n ∧ a = g w)
      fun _ => False := by
  refine ((parses_exact n).map g).congr (fun w a => ?_) fun _ => Iff.rfl
  constructor
  · rintro ⟨hlen, rfl⟩
    exact ⟨w, ⟨hlen, rfl⟩, rfl⟩
  · rintro ⟨_, ⟨hlen, rfl⟩, rfl⟩
    exact ⟨hlen, rfl⟩

variable {op : UInt8} {w reader : Bytes}

/-- The bytes from `rdbOpcodeSlotInfo` on are all opcodes. -/
theorem opcode_of_not_lt (h : ¬op < rdbOpcodeSlotInfo) :
    op ∈ [rdbOpcodeSlotInfo, rdbOpcodeFunction2, rdbOpcodeFunction, rdbOpcodeModuleAux,
      rdbOpcodeIdle, rdbOpcodeFreq, rdbOpcodeAux, rdbOpcodeResizedb, rdbOpcodeExpiretimeMs,
      rdbOpcodeExpiretime, rdbOpcodeSelectdb, rdbOpcodeEof] := by
  have hlo : 244 ≤ op.toNat := Nat.le_of_not_lt fun hlt => h (UInt8.lt_iff_toNat_lt.mpr hlt)
  have hhi := op.toNat_lt
  obtain ⟨k, hk, hop⟩ : ∃ k < 12, op = UInt8.ofNat (244 + k) :=
    ⟨op.toNat - 244, by omega, UInt8.toNat_inj.mp (by rw [UInt8.toNat_ofNat']; omega)⟩
  subst hop
  interval_cases k <;> decide

theorem ItemTrap.opcode (h : ItemTrap op w) :
    op ∈ [rdbOpcodeAux, rdbOpcodeExpiretime, rdbOpcodeExpiretimeMs] ∨ op < rdbOpcodeSlotInfo := by
  cases h with
  | auxKey _ => exact .inl (by decide)
  | auxValue _ _ => exact .inl (by decide)
  | expiretime _ _ => exact .inl (by decide)
  | expiretimeMs _ _ => exact .inl (by decide)
  | typed ht _ => exact .inr ht

theorem parses_selectdb :
    Parses (readLength >>= fun len => pure (.select len)) (ItemBody rdbOpcodeSelectdb)
    (ItemTrap rdbOpcodeSelectdb) := by
  refine (parses_length.map Item.select).congr (fun w item => ?_) fun w =>
    iff_of_false (fun hw => absurd hw.opcode (by decide)) id
  constructor
  · intro hw
    generalize hop : rdbOpcodeSelectdb = op at hw
    cases hw with
    | select hu => exact ⟨_, ⟨_, hu⟩, rfl⟩
    | typed ht _ => exact absurd (hop ▸ ht) (by decide)
    | _ => exact absurd hop (by decide)
  · rintro ⟨db, ⟨e, hu⟩, rfl⟩
    exact .select hu

theorem parses_resizedb :
    Parses (readLength >>= fun _ => readLength >>= fun _ => pure .skipped)
      (ItemBody rdbOpcodeResizedb) (ItemTrap rdbOpcodeResizedb) := by
  refine (parses_length.bind fun _ _ => parses_length.map fun _ => Item.skipped).congr
    (fun w item => ?_) fun w => ?_
  · constructor
    · intro hw
      generalize hop : rdbOpcodeResizedb = op at hw
      cases hw with
      | resizedb hu hv => exact ⟨_, _, _, ⟨_, hu⟩, ⟨_, ⟨_, hv⟩, rfl⟩, rfl⟩
      | typed ht _ => exact absurd (hop ▸ ht) (by decide)
      | _ => exact absurd hop (by decide)
    · rintro ⟨u, v, _, ⟨_, hu⟩, ⟨_, ⟨_, hv⟩, rfl⟩, rfl⟩
      exact .resizedb hu hv
  · refine iff_of_false (fun hw => absurd hw.opcode (by decide)) ?_
    rintro (h | ⟨_, _, _, _, h, _⟩)
    · exact h
    · exact h

theorem parses_aux :
    Parses (readString >>= fun _ => readString >>= fun _ => pure .skipped) (ItemBody rdbOpcodeAux)
      (ItemTrap rdbOpcodeAux) := by
  refine (parses_string.bind fun _ _ => parses_string.map fun _ => Item.skipped).congr
    (fun w item => ?_) fun w => ?_
  · constructor
    · intro hw
      generalize hop : rdbOpcodeAux = op at hw
      cases hw with
      | aux hu hv => exact ⟨_, _, _, hu, ⟨_, hv, rfl⟩, rfl⟩
      | typed ht _ => exact absurd (hop ▸ ht) (by decide)
      | _ => exact absurd hop (by decide)
    · rintro ⟨u, v, _, hu, ⟨_, hv, rfl⟩, rfl⟩
      exact .aux hu hv
  · constructor
    · intro hw
      generalize hop : rdbOpcodeAux = op at hw
      cases hw with
      | auxKey hu => exact .inl hu
      | auxValue hu hv => exact .inr ⟨_, _, _, hu, hv, rfl⟩
      | typed ht _ => exact absurd (hop ▸ ht) (by decide)
      | _ => exact absurd hop (by decide)
    · rintro (hu | ⟨u, v, _, hu, hv, rfl⟩)
      · exact .auxKey hu
      · exact .auxValue hu hv

theorem parses_expiretime :
    Parses (readU32Le >>= fun secs => readByte >>= fun t =>
      readTyped t (some (secs.toUInt64 * 1000)))
      (ItemBody rdbOpcodeExpiretime) (ItemTrap rdbOpcodeExpiretime) := by
  refine (parses_timed (fun secs : UInt32 => secs.toUInt64 * 1000) (Parses.map_exact 4 _)).congr
    (fun w item => ?_) fun w => ?_
  · constructor
    · intro hw
      generalize hop : rdbOpcodeExpiretime = op at hw
      cases hw with
      | expiretime hw hv => exact ⟨_, _, _, hw, hv, rfl⟩
      | typed ht _ => exact absurd (hop ▸ ht) (by decide)
      | _ => exact absurd hop (by decide)
    · rintro ⟨u, t, v, hw, hv, rfl⟩
      exact .expiretime hw hv
  · constructor
    · intro hw
      generalize hop : rdbOpcodeExpiretime = op at hw
      cases hw with
      | expiretime hw hv => exact ⟨_, _, _, hw, hv, rfl⟩
      | typed ht _ => exact absurd (hop ▸ ht) (by decide)
      | _ => exact absurd hop (by decide)
    · rintro ⟨u, t, v, hw, hv, rfl⟩
      exact .expiretime hw hv

theorem parses_expiretimeMs :
    Parses (readU64Le >>= fun ms => readByte >>= fun t => readTyped t (some ms))
      (ItemBody rdbOpcodeExpiretimeMs) (ItemTrap rdbOpcodeExpiretimeMs) := by
  refine (parses_timed id (Parses.map_exact 8 _)).congr (fun w item => ?_) fun w => ?_
  · constructor
    · intro hw
      generalize hop : rdbOpcodeExpiretimeMs = op at hw
      cases hw with
      | expiretimeMs hw hv => exact ⟨_, _, _, hw, hv, rfl⟩
      | typed ht _ => exact absurd (hop ▸ ht) (by decide)
      | _ => exact absurd hop (by decide)
    · rintro ⟨u, t, v, hw, hv, rfl⟩
      exact .expiretimeMs hw hv
  · constructor
    · intro hw
      generalize hop : rdbOpcodeExpiretimeMs = op at hw
      cases hw with
      | expiretimeMs hw hv => exact ⟨_, _, _, hw, hv, rfl⟩
      | typed ht _ => exact absurd (hop ▸ ht) (by decide)
      | _ => exact absurd hop (by decide)
    · rintro ⟨u, t, v, hw, hv, rfl⟩
      exact .expiretimeMs hw hv

theorem parses_freq : Parses (readByte >>= fun _ => pure .skipped) (ItemBody rdbOpcodeFreq)
    (ItemTrap rdbOpcodeFreq) := by
  refine (parses_byte.map fun _ => Item.skipped).congr (fun w item => ?_) fun w =>
    iff_of_false (fun hw => absurd hw.opcode (by decide)) id
  constructor
  · intro hw
    generalize hop : rdbOpcodeFreq = op at hw
    cases hw with
    | freq b => exact ⟨b, rfl, rfl⟩
    | typed ht _ => exact absurd (hop ▸ ht) (by decide)
    | _ => exact absurd hop (by decide)
  · rintro ⟨b, rfl, rfl⟩
    exact .freq b

theorem parses_idle : Parses (readLength >>= fun _ => pure .skipped) (ItemBody rdbOpcodeIdle)
    (ItemTrap rdbOpcodeIdle) := by
  refine (parses_length.map fun _ => Item.skipped).congr (fun w item => ?_) fun w =>
    iff_of_false (fun hw => absurd hw.opcode (by decide)) id
  constructor
  · intro hw
    generalize hop : rdbOpcodeIdle = op at hw
    cases hw with
    | idle hu => exact ⟨_, ⟨_, hu⟩, rfl⟩
    | typed ht _ => exact absurd (hop ▸ ht) (by decide)
    | _ => exact absurd hop (by decide)
  · rintro ⟨_, ⟨_, hu⟩, rfl⟩
    exact .idle hu

theorem ItemBody.opcode {item : Item} (h : ItemBody op w item) :
    op ∈ [rdbOpcodeSelectdb, rdbOpcodeResizedb, rdbOpcodeAux, rdbOpcodeExpiretime,
      rdbOpcodeExpiretimeMs, rdbOpcodeFreq, rdbOpcodeIdle] ∨ op < rdbOpcodeSlotInfo := by
  cases h with
  | typed ht _ => exact .inr ht
  | _ => exact .inl (by decide)

theorem parses_plain (hop : op < rdbOpcodeSlotInfo) :
    Parses (readTyped op none) (ItemBody op) (ItemTrap op) := by
  refine (parses_typed op none).congr (fun w item => ?_) fun w => ?_
  · constructor
    · intro hw
      cases hw with
      | typed _ hv => exact hv
      | _ => exact absurd hop (by decide)
    · exact .typed hop
  · constructor
    · intro hw
      cases hw with
      | typed _ hv => exact hv
      | _ => exact absurd hop (by decide)
    · exact .typed hop

theorem parses_item {opcode : UInt8} (heof : opcode ≠ rdbOpcodeEof) :
    Parses (readItem opcode) (ItemBody opcode) (ItemTrap opcode) := by
  rw [readItem]
  split
  · next h => exact h ▸ parses_selectdb
  · next h1 =>
    split
    · next h => exact h ▸ parses_resizedb
    · next h2 =>
      split
      · next h => exact h ▸ parses_aux
      · next h3 =>
        split
        · next h => exact h ▸ parses_expiretime
        · next h4 =>
          split
          · next h => exact h ▸ parses_expiretimeMs
          · next h5 =>
            split
            · next h => exact h ▸ parses_freq
            · next h6 =>
              split
              · next h => exact h ▸ parses_idle
              · next h7 =>
                split
                · next h =>
                  refine (Parses.fail _).congr (fun w item => iff_of_false (fun hw => ?_) id)
                    fun w =>
                    iff_of_false (fun hw => ?_) id
                  · rcases h with rfl | rfl | rfl | rfl <;> exact absurd hw.opcode (by decide)
                  · rcases h with rfl | rfl | rfl | rfl <;> exact absurd hw.opcode (by decide)
                · next h8 =>
                  refine parses_plain ?_
                  by_contra hlt
                  have hmem := opcode_of_not_lt hlt
                  push Not at h8
                  simp_all

/-! ## Files -/

section Files

variable {F : Type}

namespace Item

/-- The current database after an item. -/
def database (db : UInt32) : Item → UInt32
  | .select db' => db'.toUInt32
  | _ => db

/-- The entry an item is, with the current database. -/
def entries (db : UInt32) : Item → List (RdbEntry F)
  | .entry key data expireMs => [⟨db, key, PrimeValue.fromBytes data, expireMs⟩]
  | _ => []

/-- The entries of a file. -/
def allEntries (db : UInt32) : List Item → List (RdbEntry F)
  | [] => []
  | item :: items => item.entries db ++ allEntries (item.database db) items

end Item

variable {op : UInt8} {w rest stored : Bytes} {item : Item} {l : RdbLoader} {items : List Item}

theorem ItemBody.ne_eof (h : ItemBody op w item) : op ≠ rdbOpcodeEof := by
  rintro rfl
  exact absurd h.opcode (by decide)

theorem ItemTrap.ne_eof (h : ItemTrap op w) : op ≠ rdbOpcodeEof := by
  rintro rfl
  exact absurd h.opcode (by decide)

theorem readEntry_of_cons (hl : l.reader = op :: rest) (hop : op ≠ rdbOpcodeEof) :
    (readEntry : Load (Option (RdbEntry F))) l =
      (readItem op >>= Item.resume readEntry) (l.past [op] rest) := by
  rw [readEntry_cons hl, readOpcode_eq _ hop]

theorem readEntry_item (h : ItemBody op w item) (hl : l.reader = op :: w ++ rest) :
    (readEntry : Load (Option (RdbEntry F))) l = item.resume readEntry (l.past (op :: w) rest) := by
  rw [readEntry_of_cons hl h.ne_eof, ((parses_item h.ne_eof).reads h).at _ rfl, past_past]
  rfl

/-- An item is read, and the load goes on after it. -/
theorem readEntries_item (h : ItemBody op w item) (hl : l.reader = op :: w ++ rest) :
    (readEntries : Load (List (RdbEntry F))) l =
      prepend (item.entries l.currentDb)
        (readEntries { l.past (op :: w) rest with currentDb := item.database l.currentDb }) := by
  have hread := readEntry_item (F := F) h hl
  cases item with
  | select db => exact (readEntries_congr hread).trans (prepend_nil _).symm
  | skipped => exact (readEntries_congr hread).trans (prepend_nil _).symm
  | entry key data expireMs => exact readEntries_cons hread

theorem readEntries_trap (h : ItemTrap op w) (hl : l.reader = op :: w ++ rest) :
    (readEntries : Load (List (RdbEntry F))) l = .error .capacityOverflow := by
  refine readEntries_error ?_
  rw [readEntry_of_cons hl h.ne_eof]
  show Except.bind _ _ = _
  rw [(parses_item h.ne_eof).overflows h rfl]
  rfl

theorem takeBytes_of_le {n : Nat} (h : n ≤ l.reader.length) :
    takeBytes n l = .ok (l.reader.take n, { l with reader := l.reader.drop n }) := if_pos h

/-- The end marker and the stored checksum, which is compared unless it is zero. -/
theorem readEntry_end (hlen : stored.length = 8)
    (hl : l.reader = rdbOpcodeEof :: (stored ++ rest)) :
    (readEntry : Load (Option (RdbEntry F))) l =
      (if UInt64.ofNat (ofLeBytes stored) ≠ 0 ∧
          UInt64.ofNat (ofLeBytes stored) ≠ crc64 l.crc [rdbOpcodeEof] then
        fail (.crcMismatch (crc64 l.crc [rdbOpcodeEof]) (UInt64.ofNat (ofLeBytes stored)))
      else pure none : Load (Option (RdbEntry F))) { l.past
      [rdbOpcodeEof] (stored ++ rest) with reader := rest } := by
  have htake : takeBytes 8 (l.past [rdbOpcodeEof] (stored ++ rest)) =
      .ok (stored, { l.past [rdbOpcodeEof] (stored ++ rest) with reader := rest }) := by
    rw [takeBytes_of_le (by simp [past, hlen])]
    simp [past, ← hlen]
  rw [readEntry_cons hl]
  show (readChecksum : Load (Option (RdbEntry F))) _ = _
  rw [readChecksum, bind_ok (a := l.past [rdbOpcodeEof] (stored ++ rest)) rfl, readU64LeNoCrc,
    bind_assoc, bind_ok htake, pure_bind]
  rfl

theorem readEntries_end (hlen : stored.length = 8)
    (hl : l.reader = rdbOpcodeEof :: (stored ++ rest))
    (hcrc : UInt64.ofNat (ofLeBytes stored) = 0 ∨
      UInt64.ofNat (ofLeBytes stored) = crc64 l.crc [rdbOpcodeEof]) :
    ∃ l', (readEntries : Load (List (RdbEntry F))) l = .ok ([], l') := by
  have hread := readEntry_end (F := F) hlen hl
  rw [if_neg fun h => hcrc.elim h.1 h.2] at hread
  exact ⟨_, readEntries_none hread⟩

theorem readEntries_mismatch (hlen : stored.length = 8)
    (hl : l.reader = rdbOpcodeEof :: (stored ++ rest))
    (hcrc : ¬(UInt64.ofNat (ofLeBytes stored) = 0 ∨
      UInt64.ofNat (ofLeBytes stored) = crc64 l.crc [rdbOpcodeEof])) :
    ∃ e, (readEntries : Load (List (RdbEntry F))) l = .error (.err e) := by
  have hread := readEntry_end (F := F) hlen hl
  rw [if_pos (not_or.mp hcrc)] at hread
  exact ⟨_, readEntries_error hread⟩

/-- What a file can start with. -/
theorem readEntries_cases (F : Type) (l : RdbLoader) :
    (∃ op w item rest, ItemBody op w item ∧ l.reader = op :: w ++ rest) ∨
      (∃ op w rest, ItemTrap op w ∧ l.reader = op :: w ++ rest) ∨
      (∃ stored rest, stored.length = 8 ∧ l.reader = rdbOpcodeEof :: (stored ++ rest)) ∨
      ∃ e, (readEntries : Load (List (RdbEntry F))) l = .error (.err e) := by
  cases hl : l.reader with
  | nil =>
    refine .inr (.inr (.inr ⟨.unexpectedEof, readEntries_error ?_⟩))
    rw [readEntry_eq]
    show Except.bind (Except.bind (Except.bind (takeBytes 1 l) _) _) _ = _
    rw [takeBytes, hl]
    rfl
  | cons op rest =>
    by_cases hop : op = rdbOpcodeEof
    · subst hop
      refine .inr (.inr ?_)
      by_cases hlen : 8 ≤ rest.length
      · exact .inl ⟨rest.take 8, rest.drop 8, List.length_take_of_le hlen,
          by rw [List.take_append_drop]⟩
      · refine .inr ⟨.unexpectedEof, readEntries_error ?_⟩
        rw [readEntry_cons hl]
        show Except.bind (Except.bind (takeBytes 8 (l.past [rdbOpcodeEof] rest)) _) _ = _
        have htake : takeBytes 8 (l.past [rdbOpcodeEof] rest) = .error (.err .unexpectedEof) :=
          if_neg hlen
        rw [htake]
        rfl
    · have hparse := parses_item hop
      cases hread : readItem op (l.past [op] rest) with
      | ok r =>
        obtain ⟨w, rest', hw, hrest⟩ := hparse.of_ok hread
        exact .inl ⟨op, w, r.1, rest', hw, congrArg (op :: ·) hrest⟩
      | error e =>
        cases e with
        | capacityOverflow =>
          obtain ⟨w, rest', hw, hrest⟩ := hparse.of_overflow hread
          exact .inr (.inl ⟨op, w, rest', hw, congrArg (op :: ·) hrest⟩)
        | err e =>
          refine .inr (.inr (.inr ⟨e, readEntries_error ?_⟩))
          rw [readEntry_of_cons hl hop]
          show Except.bind _ _ = _
          rw [hread]
          rfl

theorem prepend_eq_ok {es : List (RdbEntry F)}
    {r : Except LoadFault (List (RdbEntry F) × RdbLoader)} {p : List (RdbEntry F) × RdbLoader}
    (h : prepend es r = .ok p) : ∃ es', r = .ok (es', p.2) ∧ p.1 = es ++ es' := by
  cases r with
  | error e => cases h
  | ok q =>
    cases h
    exact ⟨q.1, rfl, rfl⟩

theorem prepend_eq_error {es : List (RdbEntry F)}
    {r : Except LoadFault (List (RdbEntry F) × RdbLoader)} {e : LoadFault}
    (h : prepend es r = .error e) : r = .error e := by
  cases r with
  | error e' =>
    cases h
    rfl
  | ok q => cases h

/-- The items of a body are read one after the other. -/
theorem readEntries_body {body : Bytes} (h : Body body items) (hl : l.reader = body ++ rest) :
    ∃ db, (readEntries : Load (List (RdbEntry F))) l =
      prepend (Item.allEntries l.currentDb items)
        (readEntries { l.past body rest with currentDb := db }) := by
  induction h generalizing l with
  | nil =>
    have hpast : l.past [] rest = l := past_nil l hl
    refine ⟨l.currentDb, ?_⟩
    rw [hpast]
    exact (prepend_nil _).symm
  | @cons op w body item items h _ ih =>
    rw [List.append_assoc] at hl
    obtain ⟨db, hrest⟩ := ih (l := { l.past (op :: w) (body ++ rest) with
      currentDb := item.database l.currentDb }) rfl
    refine ⟨db, ?_⟩
    rw [readEntries_item h hl, hrest, prepend_prepend]
    simp only [past, ← crc64_append]
    rfl

/-- The items up to an end marker with a checksum that is right or zero. -/
inductive Accepted (crc : UInt64) : Bytes → List Item → Prop
  | mk {body stored rest : Bytes} {items : List Item} (hbody : Body body items)
    (hlen : stored.length = 8) (hcrc : UInt64.ofNat (ofLeBytes stored) = 0 ∨
      UInt64.ofNat (ofLeBytes stored) = crc64 crc (body ++ [rdbOpcodeEof])) :
    Accepted crc (body ++ rdbOpcodeEof :: (stored ++ rest)) items

/-- The items up to a declared length that is too large. -/
inductive Trapped : Bytes → Prop
  | mk {body w rest : Bytes} {items : List Item} {op : UInt8} (hbody : Body body items)
    (hw : ItemTrap op w) :
    Trapped (body ++ (op :: w ++ rest))

theorem Accepted.cons {crc : UInt64} {reader : Bytes} (h : ItemBody op w item)
    (hrest : Accepted (crc64 crc (op :: w)) reader items) :
    Accepted crc (op :: w ++ reader) (item :: items) := by
  cases hrest with
  | mk hbody hlen hcrc =>
    rw [← List.append_assoc]
    refine .mk (.cons h hbody) hlen ?_
    rwa [List.append_assoc, crc64_append]

theorem Trapped.cons {reader : Bytes} (h : ItemBody op w item) (hrest : Trapped reader) :
    Trapped (op :: w ++ reader) := by
  cases hrest with
  | mk hbody hw =>
    rw [← List.append_assoc]
    exact .mk (.cons h hbody) hw

theorem readEntries_of_accepted (h : Accepted l.crc l.reader items) :
    ∃ l', (readEntries : Load (List (RdbEntry F))) l =
    .ok (Item.allEntries l.currentDb items, l') := by
  generalize hr : l.reader = reader at h
  cases h with
  | @mk body stored rest _ hbody hlen hcrc =>
    obtain ⟨db, hread⟩ := readEntries_body hbody hr
    rw [crc64_append] at hcrc
    obtain ⟨l', hend⟩ := readEntries_end (l := { l.past body (rdbOpcodeEof :: (stored ++ rest)) with
      currentDb := db }) hlen rfl hcrc
    rw [hread, hend]
    exact ⟨l', congrArg (fun es => Except.ok (es, l')) (List.append_nil _)⟩

theorem readEntries_of_trapped (h : Trapped l.reader) :
    (readEntries : Load (List (RdbEntry F))) l = .error .capacityOverflow := by
  generalize hr : l.reader = reader at h
  cases h with
  | mk hbody hw =>
    obtain ⟨db, hread⟩ := readEntries_body hbody hr
    rw [hread, readEntries_trap hw rfl]
    rfl

/-- Every load that succeeds, and every panic, comes from such a file. The induction is
on the number of bytes left. -/
theorem readEntries_inv (l : RdbLoader) :
    (∀ es l', (readEntries : Load (List (RdbEntry F))) l = .ok (es, l') →
        ∃ items, Accepted l.crc l.reader items ∧ es = Item.allEntries l.currentDb items) ∧
      ((readEntries : Load (List (RdbEntry F))) l = .error .capacityOverflow →
        Trapped l.reader) := by
  induction hn : l.reader.length using Nat.strong_induction_on generalizing l with
  | h n ih =>
    rcases readEntries_cases F l with ⟨op, w, item, rest, hw, hl⟩ | ⟨op, w, rest, hw, hl⟩ |
      ⟨stored, rest, hlen, hl⟩ | ⟨e, he⟩
    · have hlt : rest.length < n := by
        rw [← hn, hl, List.length_append, List.length_cons]
        omega
      obtain ⟨hok, htrap⟩ := ih rest.length hlt { l.past (op :: w) rest with
        currentDb := item.database l.currentDb } rfl
      have hstep := readEntries_item (F := F) hw hl
      refine ⟨fun es l' hes => ?_, fun hover => ?_⟩
      · rw [hstep] at hes
        obtain ⟨es', hrest, rfl⟩ := prepend_eq_ok hes
        obtain ⟨items, hitems, rfl⟩ := hok es' l' hrest
        exact ⟨item :: items, hl ▸ .cons hw hitems, rfl⟩
      · rw [hstep] at hover
        have hrest := htrap (prepend_eq_error hover)
        exact hl ▸ .cons hw hrest
    · have hstep := readEntries_trap (F := F) hw hl
      refine ⟨fun es l' hes => ?_, fun _ => hl ▸ .mk .nil hw⟩
      rw [hstep] at hes
      cases hes
    · by_cases hcrc : UInt64.ofNat (ofLeBytes stored) = 0 ∨
          UInt64.ofNat (ofLeBytes stored) = crc64 l.crc [rdbOpcodeEof]
      · obtain ⟨l1, hend⟩ := readEntries_end hlen hl hcrc
        refine ⟨fun es l' hes => ?_, fun hover => ?_⟩
        · cases hend.symm.trans hes
          exact ⟨[], hl ▸ .mk .nil hlen hcrc, rfl⟩
        · cases hend.symm.trans hover
      · obtain ⟨e, hend⟩ := readEntries_mismatch hlen hl hcrc
        refine ⟨fun es l' hes => ?_, fun hover => ?_⟩
        · cases hend.symm.trans hes
        · cases hend.symm.trans hover
    · refine ⟨fun es l' hes => ?_, fun hover => ?_⟩
      · cases he.symm.trans hes
      · cases he.symm.trans hover

end Files

/-! ## The header -/

theorem headerWord_header :
    HeaderWord header := @HeaderWord.mk (ascii "0009") 9 rfl (by decide) (by decide)

theorem readHeader_headerWord (h : HeaderWord w) (rest : Bytes) :
    ∃ version, readHeader (RdbLoader.new (w ++ rest)) =
      .ok (version, { (RdbLoader.new (w ++ rest)).past w rest with rdbVersion := version }) := by
  cases h with
  | @mk ver version hlen hver hle =>
    refine ⟨version, ?_⟩
    rw [readHeader, (reads_exact' (n := 5) (show (ascii "REDIS").length = 5 from rfl)).at _
      (List.append_assoc ..), if_neg (by simp), (reads_exact' hlen).at _ rfl, past_past]
    simp only [hver]
    rw [if_neg (UInt32.not_lt.mpr hle)]
    rfl

theorem readHeader_ok {version : UInt32} {l : RdbLoader}
    (h : readHeader (RdbLoader.new reader) = .ok (version, l)) :
    ∃ w rest, HeaderWord w ∧ reader = w ++ rest := by
  obtain ⟨magic, l1, h1, h2⟩ := bind_eq_ok h
  obtain ⟨w, rest, ⟨hw, rfl⟩, hr⟩ := (parses_exact 5).of_ok h1
  cases h1.symm.trans (reads_exact' hw _ _ hr)
  split at h2
  · cases h2
  · next hmagic =>
    obtain ⟨ver, l2, h3, h4⟩ := bind_eq_ok h2
    obtain ⟨v, rest', ⟨hv, rfl⟩, hr'⟩ := (parses_exact 4).of_ok h3
    cases hver : (fromUtf8 ver).bind parseU32 with
    | none =>
      simp only [hver] at h4
      cases h4
    | some version' =>
      simp only [hver] at h4
      split at h4
      · cases h4
      · next hle =>
        refine ⟨magic ++ ver, rest', not_not.mp hmagic ▸ .mk hv hver (UInt32.not_lt.mp hle), ?_⟩
        rw [List.append_assoc, ← hr']
        exact hr

theorem readHeader_ne_overflow (l : RdbLoader) : readHeader l ≠ .error .capacityOverflow := by
  intro h
  have hexact : ∀ n l, readExact n l ≠ .error .capacityOverflow := by
    intro n l h
    obtain ⟨w, rest, hw, -⟩ := (parses_exact n).of_overflow h
    exact hw
  change Except.bind (readExact 5 l) _ = _ at h
  cases h1 : readExact 5 l with
  | error e =>
    rw [h1] at h
    cases h
    exact hexact 5 l h1
  | ok r =>
    obtain ⟨magic, l1⟩ := r
    rw [h1] at h
    simp only [Except.bind] at h
    split at h
    · cases h
    · change Except.bind (readExact 4 l1) _ = _ at h
      cases h2 : readExact 4 l1 with
      | error e =>
        rw [h2] at h
        cases h
        exact hexact 4 l1 h2
      | ok r =>
        obtain ⟨ver, l2⟩ := r
        rw [h2] at h
        simp only [Except.bind] at h
        cases hver : (fromUtf8 ver).bind parseU32 with
        | none =>
          simp only [hver] at h
          cases h
        | some version =>
          simp only [hver] at h
          split at h <;> cases h

theorem loadAll_eq (F : Type) (h : HeaderWord w) (rest : Bytes) : ∃ version : UInt32,
    loadAll (F := F) (w ++ rest) =
      (readEntries ⟨rest, crc64 0 w, 0, version⟩).map Prod.fst := by
  obtain ⟨version, hread⟩ := readHeader_headerWord h rest
  refine ⟨version, ?_⟩
  rw [loadAll, hread]
  simp only [RdbLoader.past, RdbLoader.new]
  show Except.bind (readEntries _) _ = _
  cases readEntries (F := F) _ <;> rfl

/-- A load that does not end with an error of the header gets past it. -/
theorem headerWord_of_loadAll {F : Type}
    (h : ∀ e, loadAll (F := F) reader ≠ .error (.err e)) :
    ∃ w rest, HeaderWord w ∧ reader = w ++ rest := by
  cases hread : readHeader (RdbLoader.new reader) with
  | ok r => exact readHeader_ok hread
  | error e =>
    cases e with
    | capacityOverflow => exact absurd hread (readHeader_ne_overflow _)
    | err e =>
      refine absurd ?_ (h e)
      rw [loadAll, hread]
      rfl

/-- The files that load, and what they load as. -/
theorem loadAll_ok_iff {F : Type} {es : List (RdbEntry F)} : loadAll reader = .ok es ↔
    ∃ w rest items, HeaderWord w ∧ reader = w ++ rest ∧ Accepted (crc64 0 w) rest items ∧
      es = Item.allEntries 0 items := by
  constructor
  · intro h
    obtain ⟨w, rest, hw, rfl⟩ := headerWord_of_loadAll fun e he => by cases h.symm.trans he
    obtain ⟨version, heq⟩ := loadAll_eq F hw rest
    cases hread : readEntries (F := F) ⟨rest, crc64 0 w, 0, version⟩ with
    | error e =>
      rw [heq, hread] at h
      cases h
    | ok r =>
      rw [heq, hread] at h
      cases h
      obtain ⟨items, hitems, hes⟩ := (readEntries_inv _).1 r.1 r.2 hread
      exact ⟨w, rest, items, hw, rfl, hitems, hes⟩
  · rintro ⟨w, rest, items, hw, rfl, hitems, rfl⟩
    obtain ⟨version, heq⟩ := loadAll_eq F hw rest
    obtain ⟨l', hread⟩ := readEntries_of_accepted (l := ⟨rest, crc64 0 w, 0, version⟩) hitems
    rw [heq, hread]
    rfl

/-- The files that the loader panics on. -/
theorem loadAll_overflow_iff {F : Type} :
    loadAll (F := F) reader = .error .capacityOverflow ↔
      ∃ w rest, HeaderWord w ∧ reader = w ++ rest ∧ Trapped rest := by
  constructor
  · intro h
    obtain ⟨w, rest, hw, rfl⟩ := headerWord_of_loadAll fun e he => by cases h.symm.trans he
    obtain ⟨version, heq⟩ := loadAll_eq F hw rest
    refine ⟨w, rest, hw, rfl, (readEntries_inv (F := F) ⟨rest, crc64 0 w, 0, version⟩).2 ?_⟩
    cases hread : readEntries (F := F) ⟨rest, crc64 0 w, 0, version⟩ with
    | error e =>
      rw [heq, hread] at h
      cases h
      rfl
    | ok r =>
      rw [heq, hread] at h
      cases h
  · rintro ⟨w, rest, hw, rfl, htrap⟩
    obtain ⟨version, heq⟩ := loadAll_eq F hw rest
    rw [heq, readEntries_of_trapped (l := ⟨rest, crc64 0 w, 0, version⟩) htrap]
    rfl

end ShrikeDb.Persistence
