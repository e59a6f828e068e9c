import ShrikeDb.Core.CompactObj
import ShrikeDb.Lib.ByteOrder
import ShrikeDb.Persistence.RdbFormat

/-! The RDB writer (`rdb_save.rs`) and `save_rdb` (`snapshot.rs`). The writer is
the bytes written so far with the running checksum; the `io::Result` of the
source is always `Ok` for a writer that takes every byte. -/

namespace ShrikeDb.Persistence

open ByteOrder

structure RdbSaver where
  writer : Bytes
  crc : UInt64
  bytesWritten : UInt64

namespace RdbSaver

def new : RdbSaver := ⟨[], 0, 0⟩

variable (w : RdbSaver)

def writeBytes (data : Bytes) : RdbSaver where
  writer := w.writer ++ data
  crc := crc64 w.crc data
  bytesWritten := w.bytesWritten + UInt64.ofNat data.length

def writeByte (b : UInt8) : RdbSaver := w.writeBytes [b]

def writeU64Le (v : UInt64) : RdbSaver := w.writeBytes (toLeBytes 8 v.toNat)

def writeLength (len : UInt64) : RdbSaver :=
  if len < 64 then w.writeByte len.toUInt8
  else if len < 16384 then
    (w.writeByte ((0x40 : UInt8) ||| (len >>> 8).toUInt8)).writeByte (len &&& 0xFF).toUInt8
  else if len ≤ 0xFFFFFFFF then (w.writeByte 0x80).writeBytes (toBeBytes 4 len.toUInt32.toNat)
  else (w.writeByte 0x81).writeBytes (toBeBytes 8 len.toNat)

def writeIntegerAsString (n : Int64) : RdbSaver :=
  if -128 ≤ n.toInt ∧ n.toInt ≤ 127 then
    (w.writeByte 0xC0).writeByte (UInt8.ofNat (unsigned 1 n.toInt))
  else if -32768 ≤ n.toInt ∧ n.toInt ≤ 32767 then
    (w.writeByte 0xC1).writeBytes (toLeBytes 2 (unsigned 2 n.toInt))
  else if -2147483648 ≤ n.toInt ∧ n.toInt ≤ 2147483647 then
    (w.writeByte 0xC2).writeBytes (toLeBytes 4 (unsigned 4 n.toInt))
  else (w.writeLength (UInt64.ofNat (i64ToString n).length)).writeBytes (i64ToString n)

/-- An `i64` whose decimal form is exactly `data`. -/
def tryParseInteger (data : Bytes) : Option Int64 :=
  ((fromUtf8 data).bind parseI64).bind fun n => if i64ToString n = data then some n else none

def writeString (data : Bytes) : RdbSaver :=
  match if data.length ≤ 11 then tryParseInteger data else none with
  | some n => w.writeIntegerAsString n
  | none => (w.writeLength (UInt64.ofNat data.length)).writeBytes data

def writeHeader : RdbSaver := (w.writeBytes (ascii "REDIS")).writeBytes (ascii "0009")

def writeAux (key value : Bytes) : RdbSaver :=
  ((w.writeByte rdbOpcodeAux).writeString key).writeString value

def writeSelectDb (dbIndex : UInt32) : RdbSaver :=
  (w.writeByte rdbOpcodeSelectdb).writeLength dbIndex.toUInt64

def writeResizeDb (dbSize expireSize : UInt64) : RdbSaver :=
  ((w.writeByte rdbOpcodeResizedb).writeLength dbSize).writeLength expireSize

def writeExpiry : Option UInt64 → RdbSaver
  | some ms => (w.writeByte rdbOpcodeExpiretimeMs).writeU64Le ms
  | none => w

/-- The expiry goes out before the type of the value is looked at; lists, sets,
hashes and sorted sets write nothing more. -/
def writeKeyValue {F : Type} (key : PrimeKey) (value : PrimeValue F) (expireMs : Option UInt64) :
    RdbSaver :=
  match value with
  | .string data =>
    (((w.writeExpiry expireMs).writeByte rdbTypeString).writeString key.asBytes).writeString data
  | .integer n =>
    (((w.writeExpiry expireMs).writeByte rdbTypeString).writeString
      key.asBytes).writeIntegerAsString n
  | _ => w.writeExpiry expireMs

/-- The checksum itself is not part of the checksum. -/
def writeEof : RdbSaver :=
  let w := w.writeByte rdbOpcodeEof
  { w with
    writer := w.writer ++ toLeBytes 8 w.crc.toNat
    bytesWritten := w.bytesWritten + 8 }

end RdbSaver

/-! ## Snapshots -/

structure SnapshotEntry (F : Type) where
  dbIndex : UInt16
  key : Bytes
  value : PrimeValue F
  expireMs : Option UInt64

structure ShardSnapshot (F : Type) where
  entries : List (SnapshotEntry F)

variable {F : Type}

variable (shardSnapshots : List (ShardSnapshot F))

/-- The entries of one database in the order the file has them. -/
def dbEntries (dbIdx : UInt16) : List (SnapshotEntry F) :=
  shardSnapshots.flatMap fun snapshot => snapshot.entries.filter fun e => e.dbIndex == dbIdx

def saveDb (saver : RdbSaver) (dbIdx : UInt16) (entries : List (SnapshotEntry F)) : RdbSaver :=
  if entries.isEmpty then saver
  else
    let expireCount := (entries.filter fun e => e.expireMs.isSome).length
    let saver := saver.writeSelectDb dbIdx.toUInt32
    let saver := saver.writeResizeDb (UInt64.ofNat entries.length) (UInt64.ofNat expireCount)
    entries.foldl (fun saver e => saver.writeKeyValue (PrimeKey.new e.key) e.value e.expireMs) saver

def dbIndices : List UInt16 := (List.range 16).map UInt16.ofNat

/-- The saver after the whole dump; its `writer` is the file. -/
def saveRdb : RdbSaver :=
  let saver := RdbSaver.new.writeHeader
  let saver := saver.writeAux (ascii "redis-ver") (ascii "7.0.0")
  let saver := saver.writeAux (ascii "shrikedb-ver") (ascii "0.1.0")
  let saver :=
  dbIndices.foldl (fun saver dbIdx => saveDb saver dbIdx (dbEntries shardSnapshots dbIdx)) saver
  saver.writeEof

end ShrikeDb.Persistence
