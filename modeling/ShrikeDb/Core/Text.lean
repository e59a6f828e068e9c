import ShrikeDb.Lib.Decimal
import ShrikeDb.Lib.Utf8

/-! Byte strings and the conversions of the standard library the code uses on
them: `str::from_utf8`, `to_string` and `parse` of the integer types. A `str` is
its bytes. -/

namespace ShrikeDb

abbrev Bytes := List UInt8

instance lawfulBytes : LawfulBEq Bytes := inferInstance

/-- The bytes of an ASCII literal. -/
def ascii (s : String) : Bytes := s.toList.map fun c => UInt8.ofNat c.toNat

def fromUtf8 (data : Bytes) : Option Bytes := if Utf8.valid data then some data else none

variable (n : Int64)

def i64ToString : Bytes := Decimal.ofInt n.toInt

def u64ToString (n : UInt64) : Bytes := Decimal.ofNat n.toNat

variable (s : Bytes)

def parseI64 : Option Int64 :=
  (Decimal.parseInt s).bind fun z =>
    if -2 ^ 63 ≤ z ∧ z < 2 ^ 63 then some (Int64.ofInt z) else none

def parseU64 : Option UInt64 :=
  (Decimal.parseNat s).bind fun n => if n < 2 ^ 64 then some (UInt64.ofNat n) else none

def parseU32 : Option UInt32 :=
  (Decimal.parseNat s).bind fun n => if n < 2 ^ 32 then some (UInt32.ofNat n) else none

/-! ## Letter case -/

def asciiUpper (b : UInt8) : UInt8 := if 97 ≤ b ∧ b ≤ 122 then b - 32 else b

def asciiLower (b : UInt8) : UInt8 := if 65 ≤ b ∧ b ≤ 90 then b + 32 else b

def toAsciiUppercase : Bytes := s.map asciiUpper

theorem fromUtf8_toAsciiUppercase :
    fromUtf8 (toAsciiUppercase s) = (fromUtf8 s).map toAsciiUppercase := by
  have hvalid : Utf8.valid (toAsciiUppercase s) = Utf8.valid s := by
    refine Utf8.valid_map (fun b hb => ?_) (fun b hb => ?_) s <;> rw [asciiUpper] <;> grind
  rw [fromUtf8, fromUtf8, hvalid]
  split <;> rfl

/-- The ligatures `ff`, `fi`, `fl`, `ffi`, `ffl`, `st` and long `st`, by last byte. -/
def ligatureUpper (b : UInt8) : Option Bytes :=
  match b with
  | 0x80 => some (ascii "FF")
  | 0x81 => some (ascii "FI")
  | 0x82 => some (ascii "FL")
  | 0x83 => some (ascii "FFI")
  | 0x84 => some (ascii "FFL")
  | 0x85 => some (ascii "ST")
  | 0x86 => some (ascii "ST")
  | _ => none

/-- `str::to_uppercase` where the result is only compared with ASCII words: besides
the ASCII letters, the characters whose uppercase form is ASCII (sharp s, dotless i,
long s and the ligatures) are mapped; the others stay outside ASCII either way. -/
def toUppercase : Bytes → Bytes
  | [] => []
  | [b] => [asciiUpper b]
  | [b, c] =>
    if b = 0xC3 ∧ c = 0x9F then ascii "SS"
    else if b = 0xC4 ∧ c = 0xB1 then ascii "I"
    else if b = 0xC5 ∧ c = 0xBF then ascii "S"
    else [asciiUpper b, asciiUpper c]
  | b :: c :: d :: rest =>
    if b = 0xC3 ∧ c = 0x9F then ascii "SS" ++ toUppercase (d :: rest)
    else if b = 0xC4 ∧ c = 0xB1 then ascii "I" ++ toUppercase (d :: rest)
    else if b = 0xC5 ∧ c = 0xBF then ascii "S" ++ toUppercase (d :: rest)
    else
      match if b = 0xEF ∧ c = 0xAC then ligatureUpper d else none with
      | some s => s ++ toUppercase rest
      | none => asciiUpper b :: toUppercase (c :: d :: rest)

/-- `str::to_lowercase` outside ASCII, where the Unicode tables decide. -/
class CaseTable where
  toLowercase : Bytes → Bytes

/-- A table that changes nothing, to evaluate the model on fixed inputs. -/
@[reducible] def CaseTable.identity : CaseTable := ⟨id⟩

def toLowercase [CaseTable] : Bytes :=
  if s.all (· < 128) then s.map asciiLower else CaseTable.toLowercase s

@[simp] theorem parseI64_i64ToString : parseI64 (i64ToString n) = some n := by
  have hlo : -2 ^ 63 ≤ n.toInt := n.le_toInt
  have hhi : n.toInt < 2 ^ 63 := n.toInt_lt
  rw [parseI64, i64ToString, Decimal.parseInt_ofInt, Option.bind_some, if_pos ⟨hlo, hhi⟩,
    Int64.ofInt_toInt]

/-- Digits and a sign: visible characters. -/
theorem i64ToString_visible : ∀ b ∈ i64ToString n, 32 < b ∧ b < 0x80 := by
  intro b hb
  rcases Decimal.ofInt_sign_or_digit n.toInt b hb with rfl | hd
  · decide
  · simp only [Decimal.isDigit, Bool.and_eq_true, decide_eq_true_eq] at hd
    exact ⟨UInt8.lt_of_lt_of_le (by decide) hd.1, UInt8.lt_of_le_of_lt hd.2 (by decide)⟩

theorem fromUtf8_i64ToString : fromUtf8 (i64ToString n) = some (i64ToString n) :=
  if_pos (Utf8.valid_of_ascii fun b hb => (i64ToString_visible n b hb).2)

theorem trim_i64ToString : Utf8.trim (i64ToString n) = i64ToString n :=
  Utf8.trim_visible (i64ToString_visible n)

theorem i64ToString_injective : Function.Injective i64ToString := by
  intro a b h
  have hp := congrArg parseI64 h
  rw [parseI64_i64ToString, parseI64_i64ToString] at hp
  exact Option.some.inj hp

end ShrikeDb
