import Mathlib.Data.Finmap
import ShrikeDb.Core.Text

/-! Keys and values (`compact_obj.rs`). A key of at most 15 bytes is stored
inline; keys are equal when their bytes are. Hash sets and hash maps are finite
sets and maps, and the scores of a sorted set are the sorted entries of the
`BTreeMap`. -/

namespace ShrikeDb

/-- What the code uses of `f64`; nothing is assumed of it. -/
class F64 (F : Type) where
  ofI64 : Int64 → F
  /-- The saturating cast `as i64`. -/
  toI64 : F → Int64
  partialCmp : F → F → Option Ordering
  parse : Bytes → Option F
  display : F → Bytes
  /-- Seventeen digits after the point. -/
  displayFixed : F → Bytes
  add : F → F → F
  isFinite : F → Bool
  infinity : F
  negInfinity : F
  zero : F

/-- Whole numbers in the place of floats, to evaluate the model on fixed inputs. -/
@[reducible] def F64.whole : F64 Int where
  ofI64 := Int64.toInt
  toI64 := Int64.ofInt
  partialCmp a b := some (compare a b)
  parse s := (parseI64 s).map Int64.toInt
  display := Decimal.ofInt
  displayFixed := Decimal.ofInt
  add a b := a + b
  isFinite _ := true
  infinity := 2 ^ 63
  negInfinity := -2 ^ 63
  zero := 0

def inlineLen : Nat := 15

inductive PrimeKey
  | inline (data : Vector UInt8 inlineLen) (len : UInt8)
  | heap (data : Bytes)

namespace PrimeKey

def new (data : Bytes) : PrimeKey :=
  if data.length ≤ inlineLen then
    .inline (Vector.ofFn fun i => data.getD i 0) (UInt8.ofNat data.length)
  else .heap data

def asBytes : PrimeKey → Bytes
  | .inline data len => data.toList.take len.toNat
  | .heap data => data

/-- A key stands for its bytes, inline or not. -/
@[simp] theorem asBytes_new (data : Bytes) : (new data).asBytes = data := by
  unfold new
  split
  · rename_i hlen
    have hn : (UInt8.ofNat data.length).toNat = data.length := by
      rw [UInt8.toNat_ofNat']
      exact Nat.mod_eq_of_lt (by simp only [inlineLen] at hlen; omega)
    rw [asBytes, hn, Vector.toList_ofFn]
    apply List.ext_getElem
    · simp [hlen]
    · intro i h1 h2
      simp [List.getD, h2]
  · rfl

end PrimeKey

structure SortedSetEntry (F : Type) where
  score : F
  member : Bytes

namespace SortedSetEntry

variable {F : Type} [F64 F]

/-- Scores first; incomparable scores count as equal. -/
def cmp (a b : SortedSetEntry F) : Ordering :=
  ((F64.partialCmp a.score b.score).getD .eq).then (compare a.member b.member)

end SortedSetEntry

inductive PrimeValue (F : Type)
  | string (data : Bytes)
  | integer (n : Int64)
  | list (items : List Bytes)
  | set (items : Finset Bytes)
  | hash (fields : Finmap fun _ : Bytes => Bytes)
  | zset (members : Finmap fun _ : Bytes => F) (scores : List (SortedSetEntry F))

namespace PrimeValue

variable {F : Type}

def typeName : PrimeValue F → Bytes
  | .string _ => ascii "string"
  | .integer _ => ascii "string"
  | .list _ => ascii "list"
  | .set _ => ascii "set"
  | .hash _ => ascii "hash"
  | .zset _ _ => ascii "zset"

def asBytes : PrimeValue F → Bytes
  | .string s => s
  | .integer n => i64ToString n
  | _ => []

def asInteger : PrimeValue F → Option Int64
  | .integer n => some n
  | .string s => (fromUtf8 s).bind fun s => parseI64 (Utf8.trim s)
  | _ => none

def asFloat [F64 F] : PrimeValue F → Option F
  | .integer n => some (F64.ofI64 n)
  | .string s => (fromUtf8 s).bind fun s => F64.parse (Utf8.trim s)
  | _ => none

def strlen : PrimeValue F → Nat
  | .string s => s.length
  | .integer n => (i64ToString n).length
  | _ => 0

def isString : PrimeValue F → Bool
  | .string _ => true
  | .integer _ => true
  | _ => false

def ensureString : PrimeValue F → PrimeValue F
  | .integer n => .string (i64ToString n)
  | v => v

/-- Text that is exactly the decimal form of an `i64` is stored as one. -/
def fromBytes (data : Bytes) : PrimeValue F :=
  match (fromUtf8 data).bind fun s => parseI64 (Utf8.trim s) with
  | some n => if i64ToString n = data then .integer n else .string data
  | none => .string data

@[simp] theorem isString_fromBytes (data : Bytes) :
    (fromBytes data : PrimeValue F).isString = true := by
  unfold fromBytes
  split
  · split <;> rfl
  · rfl

@[simp] theorem asBytes_fromBytes (data : Bytes) :
    (fromBytes data : PrimeValue F).asBytes = data := by
  unfold fromBytes
  split
  · split
    · rename_i h
      exact h
    · rfl
  · rfl

end PrimeValue

end ShrikeDb
