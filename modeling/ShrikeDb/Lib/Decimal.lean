import Mathlib.Data.Nat.Digits.Lemmas

/-! Decimal text as bytes: printing a number and parsing it back. Parsing is that
of integer literals with an optional sign, at least one digit and nothing else. -/

namespace Decimal

open List

def isDigit (b : UInt8) : Bool := 48 ≤ b && b ≤ 57

def digit (d : Nat) : UInt8 := UInt8.ofNat (48 + d)

def digitValue (b : UInt8) : Nat := b.toNat - 48

variable (n : Nat)

def ofNat : List UInt8 := if n = 0 then [48] else (Nat.digits 10 n).reverse.map digit

def ofInt (z : Int) : List UInt8 := if z < 0 then 45 :: ofNat z.natAbs else ofNat z.natAbs

/-- The value of a digit string. -/
def value (bs : List UInt8) : Nat := bs.foldl (fun acc b => 10 * acc + digitValue b) 0

def parseDigits (bs : List UInt8) : Option Nat :=
  if bs ≠ [] ∧ bs.all isDigit then some (value bs) else none

def parseNat : List UInt8 → Option Nat
  | 43 :: bs => parseDigits bs
  | bs => parseDigits bs

def parseInt : List UInt8 → Option Int
  | 45 :: bs => (parseDigits bs).map fun n : Nat => -(n : Int)
  | 43 :: bs => (parseDigits bs).map fun n : Nat => (n : Int)
  | bs => (parseDigits bs).map fun n : Nat => (n : Int)

theorem digit_toNat {d : Nat} (h : d < 10) : (digit d).toNat = 48 + d := by
  rw [digit, UInt8.toNat_ofNat']
  exact Nat.mod_eq_of_lt (by omega)

theorem digitValue_digit {d : Nat} (h : d < 10) : digitValue (digit d) = d := by
  rw [digitValue, digit_toNat h]
  omega

theorem isDigit_digit {d : Nat} (h : d < 10) : isDigit (digit d) = true := by
  have hv := digit_toNat h
  rw [isDigit, Bool.and_eq_true, decide_eq_true_eq, decide_eq_true_eq, UInt8.le_iff_toNat_le,
    UInt8.le_iff_toNat_le, hv]
  constructor
  · exact Nat.le_add_right 48 d
  · show 48 + d ≤ 57
    omega

theorem value_digits {ds : List Nat} (h : ∀ d ∈ ds, d < 10) :
    value (ds.reverse.map digit) = Nat.ofDigits 10 ds := by
  induction ds with
  | nil => rfl
  | cons d ds ih =>
    have hd := h d (mem_cons_self ..)
    have ih := ih fun e he => h e (mem_cons_of_mem _ he)
    rw [value] at ih
    rw [value, reverse_cons, map_append, foldl_append, ih, Nat.ofDigits_cons]
    simp [digitValue_digit hd, Nat.add_comm]

theorem ofNat_ne_nil : ofNat n ≠ [] := by
  unfold ofNat
  split
  · exact cons_ne_nil _ _
  · rename_i hn
    simp [Nat.digits_ne_nil_iff_ne_zero, hn]

theorem length_ofNat_le {n k : Nat} (hk : 0 < k) (h : n < 10 ^ k) : (ofNat n).length ≤ k := by
  unfold ofNat
  split
  · exact hk
  · rw [length_map, length_reverse]
    exact (Nat.digits_length_le_iff (by decide) n).mpr h

theorem length_ofInt_le {z : Int} {k : Nat} (hk : 0 < k) (h : z.natAbs < 10 ^ k) :
    (ofInt z).length ≤ k + 1 := by
  have hn := length_ofNat_le hk h
  unfold ofInt
  split
  · rw [length_cons]
    omega
  · omega

theorem ofNat_isDigit : ∀ b ∈ ofNat n, isDigit b = true := by
  unfold ofNat
  split
  · intro b hb
    rw [mem_singleton] at hb
    subst hb
    rfl
  · intro b hb
    obtain ⟨d, hd, rfl⟩ := mem_map.mp hb
    exact isDigit_digit (Nat.digits_lt_base (by decide) (mem_reverse.mp hd))

theorem ofInt_sign_or_digit (z : Int) : ∀ b ∈ ofInt z, b = 45 ∨ isDigit b = true := by
  intro b hb
  unfold ofInt at hb
  split at hb
  · rcases mem_cons.mp hb with rfl | hb
    · exact .inl rfl
    · exact .inr (ofNat_isDigit _ b hb)
  · exact .inr (ofNat_isDigit _ b hb)

theorem parseDigits_ofNat : parseDigits (ofNat n) = some n := by
  rw [parseDigits, if_pos ⟨ofNat_ne_nil n, all_eq_true.mpr (ofNat_isDigit n)⟩]
  unfold ofNat
  split
  · rename_i hn
    rw [hn]
    rfl
  · rw [value_digits fun d hd => Nat.digits_lt_base (by decide) hd, Nat.ofDigits_digits]

/-- Digit strings do not start with a sign. -/
theorem ofNat_head : ∃ b bs, ofNat n = b :: bs ∧ b ≠ 43 ∧ b ≠ 45 := by
  obtain ⟨b, bs, h⟩ := exists_cons_of_ne_nil (ofNat_ne_nil n)
  have hd := ofNat_isDigit n b (by rw [h]; exact mem_cons_self ..)
  refine ⟨b, bs, h, ?_, ?_⟩
  · rintro rfl
    exact absurd hd (by decide)
  · rintro rfl
    exact absurd hd (by decide)

theorem parseNat_ofNat : parseNat (ofNat n) = some n := by
  obtain ⟨b, bs, h, hplus, _⟩ := ofNat_head n
  have hp := parseDigits_ofNat n
  rw [h] at hp ⊢
  rw [parseNat]
  · exact hp
  · intro bs' e
    exact hplus (cons.inj e).1

theorem parseInt_ofInt (z : Int) : parseInt (ofInt z) = some z := by
  have hp := parseDigits_ofNat z.natAbs
  unfold ofInt
  split
  · rw [parseInt, hp, Option.map_some]
    congr 1
    omega
  · obtain ⟨b, bs, h, hplus, hminus⟩ := ofNat_head z.natAbs
    rw [h] at hp ⊢
    rw [parseInt, hp, Option.map_some]
    · congr 1
      omega
    · intro bs' e
      exact hminus (cons.inj e).1
    · intro bs' e
      exact hplus (cons.inj e).1

variable {bs : List UInt8}

theorem parseDigits_eq_none {b : UInt8} (hb : b ∈ bs) (hdigit : isDigit b = false) :
    parseDigits bs = none := by
  refine if_neg fun h => ?_
  have := all_eq_true.mp h.2 b hb
  rw [hdigit] at this
  cases this

/-- A number ends in a digit. -/
theorem parseInt_eq_none {b : UInt8} (hb : bs.getLast? = some b) (hdigit : isDigit b = false) :
    parseInt bs = none := by
  have hsigned : ∀ c ds, bs = c :: ds → parseDigits ds = none := by
    rintro c ds rfl
    cases ds with
    | nil => rfl
    | cons d ds => exact parseDigits_eq_none (mem_of_getLast? (getLast?_cons_cons ▸ hb)) hdigit
  unfold parseInt
  split
  · rw [hsigned _ _ rfl]
    rfl
  · rw [hsigned _ _ rfl]
    rfl
  · rw [parseDigits_eq_none (mem_of_getLast? hb) hdigit]
    rfl

theorem parseInt_digits (hne : bs ≠ []) (hdigits : ∀ b ∈ bs, isDigit b = true) :
    parseInt bs = some (value bs : Int) := by
  have hparse : parseDigits bs = some (value bs) := if_pos ⟨hne, all_eq_true.mpr hdigits⟩
  unfold parseInt
  split
  · exact absurd (hdigits _ mem_cons_self) (by decide)
  · exact absurd (hdigits _ mem_cons_self) (by decide)
  · rw [hparse]
    rfl

/-- Leading zeros change nothing. -/
theorem value_zeros (k : Nat) (bs : List UInt8) : value (replicate k 48 ++ bs) = value bs := by
  induction k with
  | zero => rfl
  | succ k ih => exact ih

end Decimal
