import ShrikeDb.Core.CompactObj
import ShrikeDb.Lib.ByteOrder
import ShrikeDb.Persistence.RdbFormat

/-! The RDB loader (`rdb_load.rs`). The reader is the bytes not yet read. The
loop of `read_entry` and the one of `load_all` read at least one byte each
time round, so the number of unread bytes bounds them; the bound is given as
fuel. -/

namespace ShrikeDb.Persistence

open ByteOrder

structure RdbEntry (F : Type) where
  dbIndex : UInt32
  key : Bytes
  value : PrimeValue F
  expireMs : Option UInt64

inductive RdbLoadError
  | badMagic
  | unsupportedVersion (version : UInt32)
  | unsupportedType (typeByte : UInt8)
  | unexpectedEof
  | crcMismatch (expected actual : UInt64)
  | corrupt (message : Bytes)

/-- How a load can stop short: with an error, or with the panic of a buffer
larger than `isize::MAX`. -/
inductive LoadFault
  | err (e : RdbLoadError)
  | capacityOverflow

structure RdbLoader where
  reader : Bytes
  crc : UInt64
  currentDb : UInt32
  rdbVersion : UInt32

abbrev Load := StateT RdbLoader (Except LoadFault)

namespace RdbLoader

def new (reader : Bytes) : RdbLoader := ⟨reader, 0, 0, 0⟩

def fail {α : Type} (e : RdbLoadError) : Load α := throw (.err e)

/-- Take bytes off the reader, without the checksum. -/
def takeBytes (n : Nat) : Load Bytes := fun l =>
  if n ≤ l.reader.length then .ok (l.reader.take n, { l with reader := l.reader.drop n })
  else .error (.err .unexpectedEof)

def readExact (n : Nat) : Load Bytes := do
  let buf ← takeBytes n
  modify fun l => { l with crc := crc64 l.crc buf }
  pure buf

def readByte : Load UInt8 := do
  let buf ← readExact 1
  pure (buf.headD 0)

def readU32Le : Load UInt32 := do
  let buf ← readExact 4
  pure (UInt32.ofNat (ofLeBytes buf))

def readU64Le : Load UInt64 := do
  let buf ← readExact 8
  pure (UInt64.ofNat (ofLeBytes buf))

def readU64LeNoCrc : Load UInt64 := do
  let buf ← takeBytes 8
  pure (UInt64.ofNat (ofLeBytes buf))

/-- `vec![0; len]` followed by `read_exact`. -/
def readBuffer (len : UInt64) : Load Bytes :=
  if 2 ^ 63 ≤ len.toNat then throw .capacityOverflow else readExact len.toNat

/-- What follows the first byte of a length: `encType` its two high bits, `low`
the other six. -/
def readLengthTail (encType : UInt8) (low : UInt64) : Load (UInt64 × Bool) :=
  if encType = rdb6BitLen then pure (low, false)
  else if encType = rdb14BitLen then do
    let second ← readByte
    pure ((low <<< 8) ||| second.toUInt64, false)
  else if encType = 2 then
    if low = 0 then do
      let buf ← readExact 4
      pure (UInt64.ofNat (ofBeBytes buf), false)
    else if low = 1 then do
      let buf ← readExact 8
      pure (UInt64.ofNat (ofBeBytes buf), false)
    else fail (.corrupt (ascii "unknown length encoding sub-type " ++ u64ToString low))
  else pure (low, true)

def readLengthWithEncoding : Load (UInt64 × Bool) := do
  let first ← readByte
  readLengthTail ((first >>> 6) &&& 0x03) (first &&& 0x3F).toUInt64

def readLength : Load UInt64 := do
  let (len, _) ← readLengthWithEncoding
  pure len

/-- The decimal text of a signed integer of `w` bytes. -/
def readSigned (w : Nat) : Load Bytes := do
  let buf ← readExact w
  pure (Decimal.ofInt (signed w (ofLeBytes buf)))

def readString : Load Bytes := do
  let (len, isEncoded) ← readLengthWithEncoding
  if isEncoded then
    if len.toUInt8 = rdbEncInt8 then readSigned 1
    else if len.toUInt8 = rdbEncInt16 then readSigned 2
    else if len.toUInt8 = rdbEncInt32 then readSigned 4
    else if len.toUInt8 = rdbEncLzf then
      let clen ← readLength
      let _ulen ← readLength
      let _ ← readBuffer clen
      pure []
    else fail (.corrupt (ascii "unknown string encoding " ++ u64ToString len))
  else readBuffer len

def readHeader : Load UInt32 := do
  let magic ← readExact 5
  if magic ≠ ascii "REDIS" then fail .badMagic
  else
    let ver ← readExact 4
    match (fromUtf8 ver).bind parseU32 with
    | none => fail .badMagic
    | some version =>
      if 12 < version then fail (.unsupportedVersion version)
      else
        modify fun l => { l with rdbVersion := version }
        pure version

variable {F : Type}

variable (next : Load (Option (RdbEntry F)))

/-- An entry whose type byte is read; a type other than string reads on with `next`. -/
def readEntryWithType (typeByte : UInt8) (expireMs : Option UInt64) :
    Load (Option (RdbEntry F)) := do
  let key ← readString
  if typeByte = rdbTypeString then
    let data ← readString
    let l ← get
    pure (some ⟨l.currentDb, key, PrimeValue.fromBytes data, expireMs⟩)
  else next

def readTypedEntry (expireMs : Option UInt64) :
    Load (Option (RdbEntry F)) := do
  let typeByte ← readByte
  readEntryWithType next typeByte expireMs

/-- The stored checksum is compared with the running one unless it is zero. -/
def readChecksum : Load (Option (RdbEntry F)) := do
  let l ← get
  let storedCrc ← readU64LeNoCrc
  if storedCrc ≠ 0 ∧ storedCrc ≠ l.crc then fail (.crcMismatch l.crc storedCrc) else pure none

/-- What `read_entry` does for an opcode, with `next` for the further rounds of
its loop. -/
def readOpcode (opcode : UInt8) : Load (Option (RdbEntry F)) :=
  if opcode = rdbOpcodeEof then readChecksum
  else if opcode = rdbOpcodeSelectdb then do
    let len ← readLength
    modify fun l => { l with currentDb := len.toUInt32 }
    next
  else if opcode = rdbOpcodeResizedb then do
    let _dbSize ← readLength
    let _expireSize ← readLength
    next
  else if opcode = rdbOpcodeAux then do
    let _key ← readString
    let _value ← readString
    next
  else if opcode = rdbOpcodeExpiretime then do
    let secs ← readU32Le
    readTypedEntry next (some (secs.toUInt64 * 1000))
  else if opcode = rdbOpcodeExpiretimeMs then do
    let ms ← readU64Le
    readTypedEntry next (some ms)
  else if opcode = rdbOpcodeFreq then do
    let _freq ← readByte
    next
  else if opcode = rdbOpcodeIdle then do
    let _idle ← readLength
    next
  else if opcode = rdbOpcodeModuleAux ∨ opcode = rdbOpcodeFunction ∨ opcode = rdbOpcodeFunction2 ∨
      opcode = rdbOpcodeSlotInfo then fail (.unsupportedType opcode)
  else readEntryWithType next opcode none

def entryRound : Load (Option (RdbEntry F)) := do
  let opcode ← readByte
  readOpcode next opcode

def readEntryFuel : Nat → Load (Option (RdbEntry F))
  | 0 => fail .unexpectedEof
  | fuel + 1 => entryRound (readEntryFuel fuel)

def readEntry : Load (Option (RdbEntry F)) := fun l => readEntryFuel (l.reader.length + 1) l

def readEntriesFuel : Nat → Load (List (RdbEntry F))
  | 0 => fail .unexpectedEof
  | fuel + 1 => do
    match ← readEntry with
    | none => pure []
    | some entry =>
      let entries ← readEntriesFuel fuel
      pure (entry :: entries)

def readEntries : Load (List (RdbEntry F)) := fun l => readEntriesFuel (l.reader.length + 1) l

end RdbLoader

def loadAll {F : Type} (reader : Bytes) : Except LoadFault (List (RdbEntry F)) := do
  let (_, l) ← RdbLoader.readHeader (RdbLoader.new reader)
  let (entries, _) ← RdbLoader.readEntries l
  pure entries

end ShrikeDb.Persistence
