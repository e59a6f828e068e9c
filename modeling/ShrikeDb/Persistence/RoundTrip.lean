import ShrikeDb.Persistence.RdbRounds
import ShrikeDb.Persistence.RdbStrings

/-! Dump and reload. The file is a header, a block for every database with
entries, and the checksum; the loader goes through it opcode by opcode. Strings
and integers come back as they were, as long as no skipped value leaves an
expiry opcode behind. -/

namespace ShrikeDb.Persistence

open ByteOrder RdbLoader List

variable {F : Type}

/-! ## The bytes of a dump -/

def encExpiry : Option UInt64 → Bytes
  | some ms => rdbOpcodeExpiretimeMs :: toLeBytes 8 ms.toNat
  | none => []

/-- Type, key and value of an entry; nothing for the values that are skipped. -/
def encBody (e : SnapshotEntry F) : Bytes :=
  match e.value with
  | .string data => rdbTypeString :: (encString e.key ++ encString data)
  | .integer n => rdbTypeString :: (encString e.key ++ encInteger n)
  | _ => []

def encEntry (e : SnapshotEntry F) : Bytes := encExpiry e.expireMs ++ encBody e

def encEntries (es : List (SnapshotEntry F)) : Bytes := es.flatMap encEntry

/-- The selector and size hints in front of the entries of a database. -/
def encDbHeader (dbIdx : UInt16) (es : List (SnapshotEntry F)) : Bytes :=
  rdbOpcodeSelectdb :: encLength dbIdx.toUInt32.toUInt64 ++
    (rdbOpcodeResizedb :: encLength (UInt64.ofNat es.length) ++
      encLength (UInt64.ofNat (es.filter fun e => e.expireMs.isSome).length))

def encDb (dbIdx : UInt16) (es : List (SnapshotEntry F)) : Bytes :=
  if es.isEmpty then [] else encDbHeader dbIdx es ++ encEntries es

def encAux (key value : Bytes) : Bytes := rdbOpcodeAux :: (encString key ++ encString value)

/-- Everything between the header and the end marker. -/
def encContent (snaps : List (ShardSnapshot F)) : Bytes :=
  encAux (ascii "redis-ver") (ascii "7.0.0") ++ (encAux (ascii "shrikedb-ver") (ascii "0.1.0") ++
    dbIndices.flatMap fun dbIdx => encDb dbIdx (dbEntries snaps dbIdx))

def header : Bytes := ascii "REDIS" ++ ascii "0009"

namespace RdbSaver

variable (w : RdbSaver)

theorem writeExpiry_eq (expireMs : Option UInt64) :
    w.writeExpiry expireMs = w.writeBytes (encExpiry expireMs) := by
  cases expireMs with
  | none => simp [writeExpiry, writeBytes, encExpiry]
  | some ms => exact writeBytes_append w _ _

theorem writeKeyValue_eq (e : SnapshotEntry F) :
    w.writeKeyValue (PrimeKey.new e.key) e.value e.expireMs = w.writeBytes (encEntry e) := by
  unfold writeKeyValue encEntry encBody
  cases e.value with
  | string data =>
    simp only [PrimeKey.asBytes_new]
    rw [writeString_eq, writeString_eq, writeByte, writeExpiry_eq, writeBytes_append,
      writeBytes_append, writeBytes_append]
    simp
  | integer n =>
    simp only [PrimeKey.asBytes_new]
    rw [writeString_eq, writeIntegerAsString_eq, writeByte, writeExpiry_eq, writeBytes_append,
      writeBytes_append, writeBytes_append]
    simp
  | list _ => simp only [writeExpiry_eq, append_nil]
  | set _ => simp only [writeExpiry_eq, append_nil]
  | hash _ => simp only [writeExpiry_eq, append_nil]
  | zset _ _ => simp only [writeExpiry_eq, append_nil]

theorem writeEntries_eq (es : List (SnapshotEntry F)) :
    es.foldl (fun w e => w.writeKeyValue (PrimeKey.new e.key) e.value e.expireMs) w =
      w.writeBytes (encEntries es) := by
  induction es generalizing w with
  | nil => simp [writeBytes, encEntries]
  | cons e es ih =>
    rw [foldl_cons, ih, writeKeyValue_eq, writeBytes_append]
    rfl

theorem saveDb_eq (dbIdx : UInt16) (es : List (SnapshotEntry F)) :
    saveDb w dbIdx es = w.writeBytes (encDb dbIdx es) := by
  unfold saveDb encDb
  split
  · simp [writeBytes]
  · simp only [writeSelectDb, writeResizeDb, writeByte, writeLength_eq, writeBytes_append,
      writeEntries_eq, encDbHeader]
    simp

theorem saveDbs_eq (snaps : List (ShardSnapshot F)) (dbs : List UInt16) :
    dbs.foldl (fun w dbIdx => saveDb w dbIdx (dbEntries snaps dbIdx)) w =
      w.writeBytes (dbs.flatMap fun dbIdx => encDb dbIdx (dbEntries snaps dbIdx)) := by
  induction dbs generalizing w with
  | nil => simp [writeBytes]
  | cons d dbs ih =>
    rw [foldl_cons, ih, saveDb_eq, writeBytes_append]
    rfl

/-- The file: header, content, end marker and the checksum of all of these. -/
theorem saveRdb_writer (snaps : List (ShardSnapshot F)) : (saveRdb snaps).writer =
    header ++ (encContent snaps ++ (rdbOpcodeEof ::
      toLeBytes 8 (crc64 0 (header ++ encContent snaps ++ [rdbOpcodeEof])).toNat)) := by
  simp only [saveRdb, writeHeader, writeAux, writeString_eq, writeByte, writeBytes_append,
    saveDbs_eq, writeEof, new]
  simp [writeBytes, header, encContent, encAux]

end RdbSaver

/-! ## Reading it back -/

/-- What an entry loads as. -/
def restore (dbIndex : UInt32) (e : SnapshotEntry F) : RdbEntry F :=
  ⟨dbIndex, e.key, .fromBytes e.value.asBytes, e.expireMs⟩

/-- Byte strings of at most `isize::MAX` bytes, as every `Vec<u8>` is. -/
structure SnapshotEntry.Fits (e : SnapshotEntry F) : Prop where
  key : e.key.length < 2 ^ 63
  value : e.value.asBytes.length < 2 ^ 63

namespace RdbLoader

variable (next : Load (Option (RdbEntry F)))

theorem readOpcode_typeString :
    readOpcode next rdbTypeString = readEntryWithType next rdbTypeString none := rfl

theorem readOpcode_expiretimeMs :
    readOpcode next rdbOpcodeExpiretimeMs = (do
      let ms ← readU64Le
      readTypedEntry next (some ms)) := rfl

theorem readOpcode_selectdb :
    readOpcode next rdbOpcodeSelectdb = (do
      let len ← readLength
      modify fun l => { l with currentDb := len.toUInt32 }
      next) := rfl

theorem readOpcode_resizedb :
    readOpcode next rdbOpcodeResizedb = (do
      let _dbSize ← readLength
      let _expireSize ← readLength
      next) := rfl

theorem readOpcode_aux :
    readOpcode next rdbOpcodeAux = (do
      let _key ← readString
      let _value ← readString
      next) := rfl

variable {l : RdbLoader} {rest : Bytes} {e : SnapshotEntry F}

/-- A round on a reader that starts with an opcode. -/
theorem readEntry_cons {b : UInt8} (hl : l.reader = b :: rest) :
    (readEntry : Load (Option (RdbEntry F))) l = readOpcode readEntry b (l.past [b] rest) :=
  (congrFun readEntry_eq l).trans (bind_ok (reads_byte b l rest hl))

theorem Reads.at {α β : Type} {x : Load α} {bs : Bytes} {a : α} (hx : Reads x bs a) (f : α → Load β)
    (hl : l.reader = bs ++ rest) : (x >>= f) l = f a (l.past bs rest) :=
  bind_ok (hx l rest hl)

theorem readEntryWithType_string (expireMs : Option UInt64) {k v key data : Bytes}
    (hk : Reads readString k key) (hv : Reads readString v data) (hl : l.reader = k ++ v ++ rest) :
    readEntryWithType next rdbTypeString expireMs l =
      .ok (some ⟨l.currentDb, key, .fromBytes data, expireMs⟩, l.past (k ++ v) rest) := by
  rw [append_assoc] at hl
  rw [readEntryWithType, hk.at _ hl, if_pos rfl, hv.at _ rfl, past_past]
  rfl

theorem encBody_of_isString (hs : e.value.isString = true) (hfit : e.Fits) :
    ∃ v, encBody e = rdbTypeString :: (encString e.key ++ v) ∧
    Reads readString v e.value.asBytes := by
  obtain ⟨dbIndex, key, value, expireMs⟩ := e
  have hfv := hfit.value
  cases value with
  | string data => exact ⟨encString data, rfl, reads_encString hfv⟩
  | integer n => exact ⟨encInteger n, rfl, reads_encInteger n⟩
  | list _ => cases hs
  | set _ => cases hs
  | hash _ => cases hs
  | zset _ _ => cases hs

/-- A stored expiry belongs to the entry that follows it, whatever that is. -/
theorem readEntry_expiry_body (hs : e.value.isString = true) (hfit : e.Fits)
    (expireMs : Option UInt64) (hl : l.reader = encExpiry expireMs ++ encBody e ++ rest) :
    (readEntry : Load (Option (RdbEntry F))) l =
      .ok (some ⟨l.currentDb, e.key, .fromBytes e.value.asBytes, expireMs⟩,
        l.past (encExpiry expireMs ++ encBody e) rest) := by
  obtain ⟨v, hbody, hv⟩ := encBody_of_isString hs hfit
  have hk := reads_encString hfit.key
  cases expireMs with
  | none =>
    rw [encExpiry, nil_append, hbody, cons_append] at hl
    rw [readEntry_cons hl, readOpcode_typeString,
      readEntryWithType_string _ _ hk hv rfl, past_past, encExpiry, hbody]
    rfl
  | some ms =>
    rw [encExpiry, hbody, cons_append, cons_append, append_assoc] at hl
    rw [readEntry_cons hl, readOpcode_expiretimeMs, (reads_u64Le ms).at _ rfl, past_past,
      readTypedEntry, (reads_byte rdbTypeString).at _ rfl, past_past,
      readEntryWithType_string _ _ hk hv rfl, past_past, encExpiry, hbody]
    simp [past]

theorem readEntry_encEntry (hs : e.value.isString = true) (hfit : e.Fits)
    (hl : l.reader = encEntry e ++ rest) :
    readEntry l = .ok (some (restore l.currentDb e), l.past (encEntry e) rest) :=
  readEntry_expiry_body hs hfit e.expireMs hl

/-- Equal rounds lead to equal loads. -/
theorem readEntries_congr {l' : RdbLoader}
    (h : (readEntry : Load (Option (RdbEntry F))) l = readEntry l') :
    (readEntries : Load (List (RdbEntry F))) l = readEntries l' := by
  cases hr : (readEntry : Load (Option (RdbEntry F))) l' with
  | error e => rw [readEntries_error hr, readEntries_error (h.trans hr)]
  | ok r =>
    obtain ⟨entry, l1⟩ := r
    cases entry with
    | none => rw [readEntries_none hr, readEntries_none (h.trans hr)]
    | some entry => rw [readEntries_some hr, readEntries_some (h.trans hr)]

/-- The rest of a load, with entries already read in front of it. -/
def prepend (es : List (RdbEntry F)) (r : Except LoadFault (List (RdbEntry F) × RdbLoader)) :
    Except LoadFault (List (RdbEntry F) × RdbLoader) :=
  r.map fun p => (es ++ p.1, p.2)

theorem prepend_nil (r : Except LoadFault (List (RdbEntry F) × RdbLoader)) : prepend [] r = r := by
  cases r <;> rfl

theorem prepend_prepend (es es' : List (RdbEntry F))
    (r : Except LoadFault (List (RdbEntry F) × RdbLoader)) :
    prepend es (prepend es' r) = prepend (es ++ es') r := by
  cases r with
  | error e => rfl
  | ok p => simp [prepend, Except.map]

theorem readEntries_cons {l' : RdbLoader} {entry : RdbEntry F}
    (h : readEntry l = .ok (some entry, l')) : readEntries l = prepend [entry] (readEntries l') :=
  readEntries_some h

end RdbLoader

/-- Values that are skipped carry no expiry. -/
def SnapshotEntry.Clean (e : SnapshotEntry F) : Prop := e.value.isString = false → e.expireMs = none

/-- The entries of a database that are persisted, as they load. -/
def restored (dbIndex : UInt32) (es : List (SnapshotEntry F)) : List (RdbEntry F) :=
  (es.filter fun e => e.value.isString).map (restore dbIndex)

theorem encEntry_skipped {e : SnapshotEntry F} (hs : e.value.isString = false) :
    encEntry e = encExpiry e.expireMs := by
  obtain ⟨dbIndex, key, value, expireMs⟩ := e
  cases value with
  | string data => cases hs
  | integer n => cases hs
  | _ => exact append_nil _

namespace RdbLoader

theorem modify_bind {α : Type} (f : RdbLoader → RdbLoader) (x : Load α) (l : RdbLoader) :
    ((modify f : Load PUnit) >>= fun _ => x) l = x (f l) := rfl

variable {rest : Bytes} {es : List (SnapshotEntry F)} {l : RdbLoader}

theorem past_nil (l : RdbLoader) (hl : l.reader = rest) : l.past [] rest = l := by
  subst hl
  rw [past, crc64_nil]

/-- Clean entries are read one after the other. -/
theorem readEntries_entries (hclean : ∀ e ∈ es, e.Clean) (hfit : ∀ e ∈ es, e.Fits)
    (hl : l.reader = encEntries es ++ rest) :
    readEntries l =
    prepend (restored l.currentDb es) (readEntries (l.past (encEntries es) rest)) := by
  induction es generalizing l with
  | nil =>
    have hpast : l.past (encEntries ([] : List (SnapshotEntry F))) rest = l := past_nil l hl
    rw [hpast]
    exact (prepend_nil _).symm
  | cons e es ih =>
    have hc := fun e he => hclean e (mem_cons_of_mem _ he)
    have hf := fun e he => hfit e (mem_cons_of_mem _ he)
    rw [encEntries, flatMap_cons, append_assoc] at hl
    cases hs : e.value.isString with
    | true =>
      rw [readEntries_cons (readEntry_encEntry hs (hfit e (mem_cons_self ..)) hl), ih hc hf rfl,
        prepend_prepend, past_past]
      simp only [restored, filter_cons, hs, if_true, map_cons]
      rfl
    | false =>
      have hnil : encEntry e = [] := by
        rw [encEntry_skipped hs, hclean e (mem_cons_self ..) hs]
        rfl
      have hrest : encEntries (e :: es) = encEntries es := by
        rw [encEntries, flatMap_cons, hnil]
        rfl
      rw [hnil] at hl
      rw [ih hc hf hl, hrest]
      simp only [restored, filter_cons, hs, Bool.false_eq_true, if_false]

theorem readEntries_dbHeader {dbIdx : UInt16} (hl : l.reader = encDbHeader dbIdx es ++ rest) :
    (readEntries : Load (List (RdbEntry F))) l =
      readEntries { l.past (encDbHeader dbIdx es) rest with currentDb := dbIdx.toUInt32 } := by
  apply readEntries_congr
  rw [encDbHeader, cons_append, cons_append, append_assoc] at hl
  rw [readEntry_cons hl, readOpcode_selectdb, (reads_length _).at _ rfl, past_past]
  rw [modify_bind, readEntry_cons (b := rdbOpcodeResizedb) rfl, readOpcode_resizedb,
    (reads_length _).at _ (append_assoc ..), (reads_length _).at _ rfl, past_past, past_past]
  simp [past, encDbHeader, ← crc64_append]

/-- A block of clean entries. -/
theorem readEntries_db {dbIdx : UInt16} (hclean : ∀ e ∈ es, e.Clean) (hfit : ∀ e ∈ es, e.Fits)
    (hl : l.reader = encDb dbIdx es ++ rest) :
    ∃ db, readEntries l = prepend (restored dbIdx.toUInt32 es)
      (readEntries { l.past (encDb dbIdx es) rest with currentDb := db }) := by
  unfold encDb at hl ⊢
  split at hl
  · rename_i hempty
    rw [List.isEmpty_iff] at hempty
    subst hempty
    refine ⟨l.currentDb, ?_⟩
    have hpast : l.past [] rest = l := past_nil l hl
    simp only [isEmpty_nil, if_true, hpast]
    exact (prepend_nil _).symm
  · rename_i hempty
    rw [append_assoc] at hl
    refine ⟨dbIdx.toUInt32, ?_⟩
    rw [readEntries_dbHeader hl, readEntries_entries hclean hfit rfl, if_neg hempty]
    simp only [past, crc64_append]

theorem readEntries_dbs {dbs : List UInt16} (es : UInt16 → List (SnapshotEntry F))
    (hclean : ∀ d ∈ dbs, ∀ e ∈ es d, e.Clean) (hfit : ∀ d ∈ dbs, ∀ e ∈ es d, e.Fits)
    (hl : l.reader = (dbs.flatMap fun d => encDb d (es d)) ++ rest) :
    ∃ db, readEntries l = prepend (dbs.flatMap fun d => restored d.toUInt32 (es d))
      (readEntries { l.past (dbs.flatMap fun d => encDb d (es d)) rest with currentDb := db }) := by
  induction dbs generalizing l with
  | nil =>
    refine ⟨l.currentDb, ?_⟩
    have hpast : l.past [] rest = l := past_nil l hl
    simp only [flatMap_nil, hpast]
    exact (prepend_nil _).symm
  | cons d dbs ih =>
    rw [flatMap_cons, append_assoc] at hl
    obtain ⟨db, h1⟩ := readEntries_db (hclean d (mem_cons_self ..)) (hfit d (mem_cons_self ..)) hl
    obtain ⟨db', h2⟩ := ih (fun d hd => hclean d (mem_cons_of_mem _ hd))
      (fun d hd => hfit d (mem_cons_of_mem _ hd))
      (l := { l.past (encDb d (es d)) _ with currentDb := db }) rfl
    refine ⟨db', ?_⟩
    rw [h1, h2, prepend_prepend]
    simp only [flatMap_cons, past, crc64_append]

theorem readEntries_aux {key value : Bytes} (hk : key.length < 2 ^ 63) (hv : value.length < 2 ^ 63)
    (hl : l.reader = encAux key value ++ rest) :
    (readEntries : Load (List (RdbEntry F))) l = readEntries (l.past (encAux key value) rest) := by
  apply readEntries_congr
  rw [encAux, cons_append, append_assoc] at hl
  rw [readEntry_cons hl, readOpcode_aux, (reads_encString hk).at _ rfl,
    (reads_encString hv).at _ rfl, past_past, past_past]
  simp [encAux]

/-- The end marker with the checksum of everything up to it. -/
theorem readEntries_eof {crc : UInt64} (hcrc : crc64 l.crc [rdbOpcodeEof] = crc)
    (hl : l.reader = rdbOpcodeEof :: toLeBytes 8 crc.toNat) :
    ∃ l', (readEntries : Load (List (RdbEntry F))) l = .ok ([], l') := by
  have htake : takeBytes 8 (l.past [rdbOpcodeEof] (toLeBytes 8 crc.toNat)) =
      .ok (toLeBytes 8 crc.toNat,
      { l.past [rdbOpcodeEof] (toLeBytes 8 crc.toNat) with reader := [] }) := by
    simp [takeBytes, past]
  have hval : UInt64.ofNat (ofLeBytes (toLeBytes 8 crc.toNat)) = crc := by
    rw [ofLeBytes_toLeBytes, Nat.mod_eq_of_lt (toNat_lt_eight_bytes crc), UInt64.ofNat_toNat]
  have hread : readU64LeNoCrc (l.past [rdbOpcodeEof] (toLeBytes 8 crc.toNat)) =
      .ok (crc, { l.past [rdbOpcodeEof] (toLeBytes 8 crc.toNat) with reader := [] }) := by
    rw [readU64LeNoCrc, bind_ok htake, hval]
    rfl
  refine ⟨{ l.past [rdbOpcodeEof] (toLeBytes 8 crc.toNat) with reader := [] }, readEntries_none ?_⟩
  rw [readEntry_cons hl]
  show (readChecksum : Load (Option (RdbEntry F))) _ = _
  rw [readChecksum, bind_ok (a := l.past [rdbOpcodeEof] (toLeBytes 8 crc.toNat)) rfl, bind_ok hread,
    if_neg]
  · rfl
  · rintro ⟨_, hne⟩
    exact hne hcrc.symm

theorem readHeader_header :
    readHeader (RdbLoader.new (header ++ rest)) =
      .ok (9, { (RdbLoader.new (header ++ rest)).past header rest with rdbVersion := 9 }) := by
  rw [readHeader, (reads_exact' (n := 5) (show (ascii "REDIS").length = 5 from rfl)).at _
    (append_assoc ..), if_neg (by simp), (reads_exact' (n := 4)
    (show (ascii "0009").length = 4 from rfl)).at _ rfl]
  have hver : (fromUtf8 (ascii "0009")).bind parseU32 = some 9 := by decide
  rw [hver]
  simp only [past_past]
  rfl

end RdbLoader

end ShrikeDb.Persistence
