/-! UTF-8 text as byte strings: well-formedness, the removal of white space (the
Unicode property `White_Space`) at both ends, and the words between white space. -/

namespace Utf8

def isCont (b : UInt8) : Bool := 0x80 ≤ b && b ≤ 0xBF

/-- A lead byte and its second byte that start a character of three bytes. -/
def leads3 (b0 b1 : UInt8) : Bool :=
  (b0 == 0xE0 && 0xA0 ≤ b1 && b1 ≤ 0xBF) || (0xE1 ≤ b0 && b0 ≤ 0xEC && isCont b1) ||
  (b0 == 0xED && 0x80 ≤ b1 && b1 ≤ 0x9F) || (0xEE ≤ b0 && b0 ≤ 0xEF && isCont b1)

/-- A lead byte and its second byte that start a character of four bytes. -/
def leads4 (b0 b1 : UInt8) : Bool :=
  (b0 == 0xF0 && 0x90 ≤ b1 && b1 ≤ 0xBF) || (0xF1 ≤ b0 && b0 ≤ 0xF3 && isCont b1) ||
  (b0 == 0xF4 && 0x80 ≤ b1 && b1 ≤ 0x8F)

def valid : List UInt8 → Bool
  | [] => true
  | b0 :: bs =>
    if b0 < 0x80 then valid bs
    else
      match bs with
      | [] => false
      | b1 :: bs =>
        if 0xC2 ≤ b0 && b0 ≤ 0xDF && isCont b1 then valid bs
        else
          match bs with
          | [] => false
          | b2 :: bs =>
            if leads3 b0 b1 && isCont b2 then valid bs
            else
              match bs with
              | [] => false
              | b3 :: bs => leads4 b0 b1 && isCont b2 && isCont b3 && valid bs

/-- ASCII text is well formed. -/
theorem valid_of_ascii {bs : List UInt8} (h : ∀ b ∈ bs, b < 0x80) : valid bs = true := by
  induction bs with
  | nil => rfl
  | cons b bs ih =>
    rw [valid.eq_def]
    dsimp only
    rw [if_pos (h b List.mem_cons_self)]
    exact ih fun b' hb' => h b' (List.mem_cons_of_mem b hb')

theorem isCont_eq_false {b : UInt8} (h : b < 0x80) : isCont b = false := by
  rw [isCont, Bool.and_eq_false_iff]
  exact .inl (by simpa using h)

theorem leads3_eq_false {b0 b1 : UInt8} (h : b1 < 0x80) : leads3 b0 b1 = false := by
  unfold leads3 isCont
  grind

theorem leads4_eq_false {b0 b1 : UInt8} (h : b1 < 0x80) : leads4 b0 b1 = false := by
  unfold leads4 isCont
  grind

/-- A map of the ASCII characters into themselves keeps text well formed or not. -/
theorem valid_map {f : UInt8 → UInt8} (hlow : ∀ b < 0x80, f b < 0x80)
    (hhigh : ∀ b, 0x80 ≤ b → f b = b) (bs : List UInt8) : valid (bs.map f) = valid bs := by
  have hcont : ∀ b, isCont (f b) = isCont b := fun b => by
    by_cases hb : b < 0x80
    · rw [isCont_eq_false hb, isCont_eq_false (hlow b hb)]
    · rw [hhigh b (UInt8.not_lt.mp hb)]
  have h3 : ∀ b0 b1, leads3 b0 (f b1) = leads3 b0 b1 := fun b0 b1 => by
    by_cases hb : b1 < 0x80
    · rw [leads3_eq_false hb, leads3_eq_false (hlow b1 hb)]
    · rw [hhigh b1 (UInt8.not_lt.mp hb)]
  have h4 : ∀ b0 b1, leads4 b0 (f b1) = leads4 b0 b1 := fun b0 b1 => by
    by_cases hb : b1 < 0x80
    · rw [leads4_eq_false hb, leads4_eq_false (hlow b1 hb)]
    · rw [hhigh b1 (UInt8.not_lt.mp hb)]
  fun_induction valid bs with
  | case1 => rfl
  | case2 b0 bs hb ih =>
    rw [List.map_cons, valid.eq_def]
    dsimp only
    rw [if_pos (hlow b0 hb), ih]
  | case3 b0 hb =>
    rw [List.map_cons, hhigh b0 (UInt8.not_lt.mp hb), valid.eq_def]
    dsimp only
    rw [if_neg hb]
    rfl
  | case4 b0 hb b1 bs h ih =>
    simp only [List.map_cons]
    rw [hhigh b0 (UInt8.not_lt.mp hb), valid.eq_def]
    dsimp only
    rw [if_neg hb, hcont, if_pos h, ih]
  | case5 b0 hb b1 h =>
    simp only [List.map_cons, List.map_nil]
    rw [hhigh b0 (UInt8.not_lt.mp hb), valid.eq_def]
    dsimp only
    rw [if_neg hb, hcont, if_neg h]
  | case6 b0 hb b1 h b2 bs h' ih =>
    simp only [List.map_cons]
    rw [hhigh b0 (UInt8.not_lt.mp hb), valid.eq_def]
    dsimp only
    rw [if_neg hb, hcont, if_neg h, h3, hcont, if_pos h', ih]
  | case7 b0 hb b1 h b2 h' =>
    simp only [List.map_cons, List.map_nil]
    rw [hhigh b0 (UInt8.not_lt.mp hb), valid.eq_def]
    dsimp only
    rw [if_neg hb, hcont, if_neg h, h3, hcont, if_neg h']
  | case8 b0 hb b1 h b2 h' b3 bs ih =>
    simp only [List.map_cons]
    rw [hhigh b0 (UInt8.not_lt.mp hb), valid.eq_def]
    dsimp only
    rw [if_neg hb, hcont, if_neg h, h3, hcont, if_neg h', h4, hcont, ih]

/-- White space of one, two and three bytes. -/
def isSpace1 (b : UInt8) : Bool := (9 ≤ b && b ≤ 13) || b == 32

def isSpace2 (b0 b1 : UInt8) : Bool := b0 == 0xC2 && (b1 == 0x85 || b1 == 0xA0)

def isSpace3 (b0 b1 b2 : UInt8) : Bool :=
  (b0 == 0xE1 && b1 == 0x9A && b2 == 0x80) ||
  (b0 == 0xE2 && b1 == 0x80 &&
    ((0x80 ≤ b2 && b2 ≤ 0x8A) || b2 == 0xA8 || b2 == 0xA9 || b2 == 0xAF)) ||
  (b0 == 0xE2 && b1 == 0x81 && b2 == 0x9F) || (b0 == 0xE3 && b1 == 0x80 && b2 == 0x80)

def trimStart : List UInt8 → List UInt8
  | [] => []
  | b0 :: bs =>
    if isSpace1 b0 then trimStart bs
    else
      match bs with
      | [] => [b0]
      | b1 :: bs =>
        if isSpace2 b0 b1 then trimStart bs
        else
          match bs with
          | [] => [b0, b1]
          | b2 :: bs => if isSpace3 b0 b1 b2 then trimStart bs else b0 :: b1 :: b2 :: bs

/-- White space at the end, on the reversed bytes. -/
def trimEndRev : List UInt8 → List UInt8
  | [] => []
  | b0 :: bs =>
    if isSpace1 b0 then trimEndRev bs
    else
      match bs with
      | [] => [b0]
      | b1 :: bs =>
        if isSpace2 b1 b0 then trimEndRev bs
        else
          match bs with
          | [] => [b0, b1]
          | b2 :: bs => if isSpace3 b2 b1 b0 then trimEndRev bs else b0 :: b1 :: b2 :: bs

variable (bs : List UInt8)

def trim : List UInt8 := (trimEndRev (trimStart bs).reverse).reverse

/-- Text that starts with a visible ASCII character has no white space to remove there. -/
theorem trimStart_visible {b : UInt8} (h : 32 < b ∧ b < 0x80) :
    trimStart (b :: bs) = b :: bs := by
  have h1 : isSpace1 b = false := by
    simp [isSpace1]
    grind
  have h2 : ∀ c, isSpace2 b c = false := by
    simp [isSpace2]
    grind
  have h3 : ∀ c d, isSpace3 b c d = false := by
    simp [isSpace3]
    grind
  rcases bs with _ | ⟨c, _ | ⟨d, bs⟩⟩ <;> simp [trimStart, h1, h2, h3]

theorem trimEndRev_visible {b : UInt8} (h : 32 < b ∧ b < 0x80) :
    trimEndRev (b :: bs) = b :: bs := by
  have h1 : isSpace1 b = false := by
    simp [isSpace1]
    grind
  have h2 : ∀ c, isSpace2 c b = false := by
    simp [isSpace2]
    grind
  have h3 : ∀ c d, isSpace3 d c b = false := by
    simp [isSpace3]
    grind
  rcases bs with _ | ⟨c, _ | ⟨d, bs⟩⟩ <;> simp [trimEndRev, h1, h2, h3]

theorem trim_visible {bs : List UInt8} (h : ∀ b ∈ bs, 32 < b ∧ b < 0x80) : trim bs = bs := by
  have hstart : trimStart bs = bs := by
    cases bs with
    | nil => rfl
    | cons b bs => exact trimStart_visible bs (h b List.mem_cons_self)
  have hend : trimEndRev bs.reverse = bs.reverse := by
    cases hr : bs.reverse with
    | nil => rfl
    | cons b bs' =>
      exact trimEndRev_visible bs' (h b (by rw [← List.mem_reverse, hr]; exact List.mem_cons_self))
  rw [trim, hstart, hend, List.reverse_reverse]

/-- The length of the white space character in front, zero if there is none. -/
def spaceLen : List UInt8 → Nat
  | [] => 0
  | b0 :: bs =>
    if isSpace1 b0 then 1
    else
      match bs with
      | [] => 0
      | b1 :: bs =>
        if isSpace2 b0 b1 then 2
        else
          match bs with
          | [] => 0
          | b2 :: _ => if isSpace3 b0 b1 b2 then 3 else 0

/-- The words of the text, `word` begun and `skip` bytes of white space still to pass. -/
def wordsFrom : Nat → List UInt8 → List UInt8 → List (List UInt8)
  | _, word, [] => if word.isEmpty then [] else [word]
  | skip + 1, word, _ :: bs => wordsFrom skip word bs
  | 0, word, b :: bs =>
    match spaceLen (b :: bs) with
    | 0 => wordsFrom 0 (word ++ [b]) bs
    | n + 1 => (if word.isEmpty then [] else [word]) ++ wordsFrom n [] bs

def splitWhitespace : List (List UInt8) := wordsFrom 0 [] bs

example : splitWhitespace [32, 97, 98, 0xC2, 0xA0, 99, 10] = [[97, 98], [99]] := by decide

end Utf8
