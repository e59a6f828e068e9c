import ShrikeDb.Core.Text

/-! Constants of the RDB format and its checksum (`rdb_format.rs`). -/

namespace ShrikeDb.Persistence

def rdbTypeString : UInt8 := 0

def rdbOpcodeSlotInfo : UInt8 := 244
def rdbOpcodeFunction2 : UInt8 := 245
def rdbOpcodeFunction : UInt8 := 246
def rdbOpcodeModuleAux : UInt8 := 247
def rdbOpcodeIdle : UInt8 := 248
def rdbOpcodeFreq : UInt8 := 249
def rdbOpcodeAux : UInt8 := 250
def rdbOpcodeResizedb : UInt8 := 251
def rdbOpcodeExpiretimeMs : UInt8 := 252
def rdbOpcodeExpiretime : UInt8 := 253
def rdbOpcodeSelectdb : UInt8 := 254
def rdbOpcodeEof : UInt8 := 255

def rdb6BitLen : UInt8 := 0
def rdb14BitLen : UInt8 := 1

def rdbEncInt8 : UInt8 := 0
def rdbEncInt16 : UInt8 := 1
def rdbEncInt32 : UInt8 := 2
def rdbEncLzf : UInt8 := 3

def crc64Poly : UInt64 := 0xad93d23594c935a9

variable (crc : UInt64)

/-- One bit of the table entries. -/
def crc64Bit : UInt64 :=
  if crc &&& 1 ≠ 0 then (crc >>> 1) ^^^ crc64Poly else crc >>> 1

/-- Entry `i` of the lookup table: eight bits of the index. -/
def crc64Table (i : UInt8) : UInt64 := crc64Bit^[8] i.toUInt64

def crc64Step (c : UInt64) (byte : UInt8) : UInt64 := crc64Table (c.toUInt8 ^^^ byte) ^^^ (c >>> 8)

def crc64 (data : Bytes) : UInt64 := ~~~(data.foldl crc64Step (~~~crc))

@[simp] theorem crc64_nil : crc64 crc [] = crc := by
  rw [crc64, List.foldl_nil, UInt64.not_not]

theorem crc64_append (a b : Bytes) : crc64 crc (a ++ b) = crc64 (crc64 crc a) b := by
  rw [crc64, crc64, crc64, List.foldl_append, UInt64.not_not]

end ShrikeDb.Persistence
