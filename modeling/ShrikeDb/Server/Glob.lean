import ShrikeDb.Lib.Wildcard
import ShrikeDb.Server.DbSlice

/-! The glob matcher against the language of its patterns. The loop compares the byte of
the pattern with the byte of the input before it looks for `*` and `[`, so an input that
holds these two bytes itself is matched against the text of the pattern. On every other
input the loop decides the language: it remembers only the last star, and from it every
alternative is tried. -/

namespace ShrikeDb

open Wildcard List

/-! ## The language of a pattern -/

inductive GlobToken
  | star
  | any
  | byte (b : UInt8)
  | cls (negate : Bool) (body : Bytes)

/-- Whether the body of a class lists `c`, as a single byte or in a range `x-y`. -/
def listed (c : UInt8) : Bytes → Bool
  | [] => false
  | [x] => c = x
  | [x, d] => c = x || c = d
  | x :: d :: y :: body =>
    if d = 45 then (x ≤ c && c ≤ y) || listed c body else c = x || listed c (d :: y :: body)

/-- The body ends in a byte and a `-`: a range without its end. -/
def dangling : Bytes → Bool
  | [] => false
  | [_] => false
  | [_, d] => d = 45
  | _ :: d :: y :: body => if d = 45 then dangling body else dangling (d :: y :: body)

/-- A leading `^` negates the class and is not part of what it lists. -/
def splitNegation (text : Bytes) : Bool × Bytes :=
  if text.head? = some 94 then (true, text.tail) else (false, text)

def GlobToken.denote : GlobToken → Option (UInt8 → Bool)
  | .star => none
  | .any => some fun _ => true
  | .byte b => some fun c => c = b
  | .cls negate body => some fun c => listed c body != negate

theorem none_notMem_denote {ts : List GlobToken} (h : .star ∉ ts) :
    none ∉ ts.map GlobToken.denote := by
  intro hmem
  obtain ⟨t, ht, hd⟩ := mem_map.mp hmem
  cases t with
  | star => exact h ht
  | any => cases hd
  | byte b => cases hd
  | cls negate body => cases hd

/-- A pattern and its tokens; a class ends at the first `]`. -/
inductive GlobReads : Bytes → List GlobToken → Prop
  | nil : GlobReads [] []
  | star {p ts} (h : GlobReads p ts) : GlobReads (42 :: p) (.star :: ts)
  | any {p ts} (h : GlobReads p ts) : GlobReads (63 :: p) (.any :: ts)
  | byte {b p ts} (hb : b ≠ 42 ∧ b ≠ 63 ∧ b ≠ 91) (h : GlobReads p ts) :
      GlobReads (b :: p) (.byte b :: ts)
  | cls {text negate body p ts} (htext : 93 ∉ text) (hsplit : splitNegation text = (negate, body))
      (h : GlobReads p ts) : GlobReads (91 :: (text ++ 93 :: p)) (.cls negate body :: ts)

def InGlob (pattern input : Bytes) : Prop :=
  ∃ ts, GlobReads pattern ts ∧ Matches (ts.map GlobToken.denote) input

/-- Every `[` is closed by a later `]`. -/
def GlobClosed (pattern : Bytes) : Prop := ∀ u v, pattern = u ++ 91 :: v → 93 ∈ v

variable {p : Bytes} {ts : List GlobToken}

theorem GlobClosed.reads {pattern : Bytes} (h : GlobClosed pattern) :
    ∃ ts, GlobReads pattern ts := by
  induction hn : pattern.length using Nat.strongRecOn generalizing pattern with
  | ind n ih =>
    subst hn
    cases pattern with
    | nil => exact ⟨[], .nil⟩
    | cons b p =>
      have hsuffix : ∀ u v, b :: p = u ++ v → u ≠ [] → ∃ ts, GlobReads v ts := by
        intro u v huv hu
        have hlen := congrArg length huv
        have hpos := length_pos_of_ne_nil hu
        rw [length_append] at hlen
        refine ih v.length (by omega) (fun u' v' hv => h (u ++ u') v' ?_) rfl
        rw [huv, hv, append_assoc]
      obtain ⟨ts, hp⟩ := hsuffix [b] p rfl (cons_ne_nil b [])
      by_cases h42 : b = 42
      · subst h42
        exact ⟨_, .star hp⟩
      by_cases h63 : b = 63
      · subst h63
        exact ⟨_, .any hp⟩
      by_cases h91 : b = 91
      · subst h91
        obtain ⟨body, rest, rfl, hbody⟩ := eq_append_cons_of_mem (h [] p rfl)
        obtain ⟨ts', hrest⟩ := hsuffix (91 :: (body ++ [93])) rest (by simp) (cons_ne_nil _ _)
        exact ⟨_, .cls hbody rfl hrest⟩
      · exact ⟨_, .byte ⟨h42, h63, h91⟩ hp⟩

theorem GlobReads.closed (h : GlobReads p ts) : GlobClosed p := by
  have hcons : ∀ {b : UInt8} {p : Bytes}, b ≠ 91 → GlobClosed p → GlobClosed (b :: p) := by
    intro b p hb hp u v huv
    cases u with
    | nil => exact absurd (cons.inj huv).1 hb
    | cons x u => exact hp u v (cons.inj huv).2
  induction h with
  | nil =>
    intro u v huv
    cases u <;> cases huv
  | star _ ih => exact hcons (by decide) ih
  | any _ ih => exact hcons (by decide) ih
  | byte hb _ ih => exact hcons hb.2.2 ih
  | cls _ _ _ ih =>
    intro u v huv
    cases u with
    | nil =>
      rw [← (cons.inj huv).2]
      simp
    | cons x u =>
      -- the bracket stands in the text of the class or behind it
      rcases append_eq_append_iff.mp (cons.inj huv).2 with ⟨w, rfl, hw⟩ | ⟨w, rfl, hw⟩
      · cases w with
        | nil => exact absurd (cons.inj hw).1 (by decide)
        | cons x w => exact ih w v (cons.inj hw).2
      · cases w with
        | nil => exact absurd (cons.inj hw).1 (by decide)
        | cons x w =>
          rw [(cons.inj hw).2]
          simp

/-- A class ends at the first bracket only. -/
theorem text_unique {text text' p' : Bytes} (h : 93 ∉ text) (h' : 93 ∉ text')
    (heq : text ++ 93 :: p = text' ++ 93 :: p') : text = text' ∧ p = p' := by
  rcases append_eq_append_iff.mp heq with ⟨w, rfl, hw⟩ | ⟨w, rfl, hw⟩
  · cases w with
    | nil => exact ⟨(append_nil _).symm, (cons.inj hw).2⟩
    | cons x w => exact absurd (by simp [(cons.inj hw).1]) h'
  · cases w with
    | nil => exact ⟨append_nil _, (cons.inj hw).2.symm⟩
    | cons x w => exact absurd (by simp [(cons.inj hw).1]) h

/-- A pattern has one reading. -/
theorem GlobReads.unique {ts' : List GlobToken} (h : GlobReads p ts) (h' : GlobReads p ts') :
    ts = ts' := by
  induction h generalizing ts' with
  | nil =>
    cases h'
    rfl
  | star _ ih =>
    cases h' with
    | star h' => rw [ih h']
    | byte hb _ => exact absurd rfl hb.1
  | any _ ih =>
    cases h' with
    | any h' => rw [ih h']
    | byte hb _ => exact absurd rfl hb.2.1
  | byte hb _ ih =>
    cases h' with
    | star _ => exact absurd rfl hb.1
    | any _ => exact absurd rfl hb.2.1
    | byte _ h' => rw [ih h']
    | cls _ _ _ => exact absurd rfl hb.2.2
  | @cls text negate body p ts htext hsplit h ih =>
    generalize hq : 91 :: (text ++ 93 :: p) = q at h'
    cases h' with
    | nil => cases hq
    | star _ => exact absurd (cons.inj hq).1 (by decide)
    | any _ => exact absurd (cons.inj hq).1 (by decide)
    | byte hb _ => exact absurd (cons.inj hq).1.symm hb.2.2
    | @cls text' negate' body' p' ts' htext' hsplit' h' =>
      obtain ⟨rfl, rfl⟩ := text_unique htext htext' (cons.inj hq).2
      rw [hsplit] at hsplit'
      cases hsplit'
      rw [ih h']

/-! ## Classes -/

variable {pattern u a : Bytes} {pi : Nat} {c : UInt8}

theorem getElem?_of_drop {rest : Bytes} (h : pattern.drop pi = rest) (k : Nat) :
    pattern[pi + k]? = rest[k]? := by
  rw [← h, getElem?_drop]

theorem drop_of_drop {v : Bytes} (h : pattern.drop pi = u ++ v) :
    pattern.drop (pi + u.length) = v := by
  rw [← drop_drop, h, drop_left]

theorem tail_of_drop {v : Bytes} {x : UInt8} (h : pattern.drop pi = x :: v) :
    pattern.drop (pi + 1) = v :=
  drop_of_drop (u := [x]) h

theorem globClass_stop (h : pattern[pi]? = some 93) (fuel : Nat) (matched : Bool) :
    globClass pattern c fuel pi matched = (pi, matched) := by
  cases fuel with
  | zero => rfl
  | succ fuel => simp [globClass, h]

theorem globClass_end (h : pattern[pi]? = none) (fuel : Nat) (matched : Bool) :
    globClass pattern c fuel pi matched = (pi, matched) := by
  cases fuel with
  | zero => rfl
  | succ fuel => simp [globClass, h]

theorem globClass_single {x : UInt8} (hx : pattern[pi]? = some x) (hclose : x ≠ 93)
    (hd : pattern[pi + 1]? = some 45 → pattern[pi + 2]? = none) (fuel : Nat) (matched : Bool) :
    globClass pattern c (fuel + 1) pi matched =
    globClass pattern c fuel (pi + 1) (matched || c = x) := by
  simp only [globClass, hx, hclose, if_false]
  split
  · rename_i h1 h2
    rw [hd h1] at h2
    cases h2
  · rfl

theorem globClass_range {x y : UInt8} (hx : pattern[pi]? = some x) (hclose : x ≠ 93)
    (hd : pattern[pi + 1]? = some 45) (hy : pattern[pi + 2]? = some y) (fuel : Nat)
    (matched : Bool) : globClass pattern c (fuel + 1) pi matched =
      globClass pattern c fuel (pi + 3) (matched || (x ≤ c && c ≤ y)) := by
  simp only [globClass, hx, hclose, if_false, hd, hy]

/-- The scan of a class whose last range is complete stops at the closing bracket. -/
theorem globClass_spec {body rest : Bytes} {fuel : Nat} {matched : Bool}
    (hdrop : pattern.drop pi = body ++ 93 :: rest) (hbody : 93 ∉ body)
    (hrange : dangling body = false) (hfuel : body.length ≤ fuel) :
    globClass pattern c fuel pi matched = (pi + body.length, matched || listed c body) := by
  induction body using dangling.induct generalizing fuel pi matched with
  | case1 =>
    have h0 : pattern[pi]? = some 93 := getElem?_of_drop hdrop 0
    rw [globClass_stop h0, listed, Bool.or_false]
    rfl
  | case2 x =>
    obtain ⟨fuel, rfl⟩ := Nat.exists_eq_add_of_le' hfuel
    have h0 : pattern[pi]? = some x := getElem?_of_drop hdrop 0
    have h1 : pattern[pi + 1]? = some 93 := getElem?_of_drop hdrop 1
    have hx : x ≠ 93 := fun e => hbody (e ▸ mem_cons_self)
    rw [length_singleton, globClass_single h0 hx (by simp [h1]), globClass_stop h1, listed]
  | case3 x d =>
    obtain ⟨fuel, rfl⟩ := Nat.exists_eq_add_of_le' hfuel
    have h0 : pattern[pi]? = some x := getElem?_of_drop hdrop 0
    have h1 : pattern[pi + 1]? = some d := getElem?_of_drop hdrop 1
    have h2 : pattern[pi + 1 + 1]? = some 93 := getElem?_of_drop hdrop 2
    have hx : x ≠ 93 := fun e => hbody (e ▸ mem_cons_self)
    have hd : d ≠ 93 := fun e => hbody (e ▸ mem_cons_of_mem _ mem_cons_self)
    have hdash : d ≠ 45 := of_decide_eq_false hrange
    rw [length_cons, length_singleton, ← Nat.add_assoc,
      globClass_single h0 hx (by simp [h1, hdash]), globClass_single h1 hd (by simp [h2]),
      globClass_stop h2, listed, Bool.or_assoc]
  | case4 x y body ih =>
    obtain ⟨fuel, rfl⟩ := Nat.exists_eq_add_of_le' hfuel
    have h0 : pattern[pi]? = some x := getElem?_of_drop hdrop 0
    have h1 : pattern[pi + 1]? = some 45 := getElem?_of_drop hdrop 1
    have h2 : pattern[pi + 2]? = some y := getElem?_of_drop hdrop 2
    have hx : x ≠ 93 := fun e => hbody (e ▸ mem_cons_self)
    have hrest : pattern.drop (pi + 3) = body ++ 93 :: rest := drop_of_drop (u := [x, 45, y]) hdrop
    have hbody' : 93 ∉ body := fun h => hbody (by simp [h])
    rw [dangling, if_pos rfl] at hrange
    rw [length_cons, ← Nat.add_assoc, globClass_range h0 hx h1 h2,
      ih hrest hbody' hrange (by simp only [length_cons]; omega), listed, if_pos rfl, Bool.or_assoc]
    exact Prod.ext (by simp only [length_cons]; omega) rfl
  | case5 x d y body hdash ih =>
    obtain ⟨fuel, rfl⟩ := Nat.exists_eq_add_of_le' hfuel
    have h0 : pattern[pi]? = some x := getElem?_of_drop hdrop 0
    have h1 : pattern[pi + 1]? = some d := getElem?_of_drop hdrop 1
    have hx : x ≠ 93 := fun e => hbody (e ▸ mem_cons_self)
    have hrest : pattern.drop (pi + 1) = (d :: y :: body) ++ 93 :: rest := tail_of_drop hdrop
    have hbody' : 93 ∉ d :: y :: body := fun h => hbody (mem_cons_of_mem _ h)
    rw [dangling, if_neg hdash] at hrange
    rw [length_cons, ← Nat.add_assoc, globClass_single h0 hx (by simp [h1, hdash]),
      ih hrest hbody' hrange (by simp only [length_cons]; omega), listed, if_neg hdash,
      Bool.or_assoc]
    exact Prod.ext (by simp only [length_cons]; omega) rfl

/-! ## Steps of the loop -/

/-- The tokens that the loop reads as the language does, on a given input. -/
def GlobToken.Fair (input : Bytes) : GlobToken → Prop
  | .star => 42 ∉ input
  | .cls _ body => 91 ∉ input ∧ dangling body = false
  | _ => True

/-- Back to the remembered star, one byte further. -/
def resume (pattern input : Bytes) (fuel : Nat) : Option (Nat × Nat) → Option Bool
  | some (starPi, starIi) =>
    globLoop pattern input fuel starPi (starIi + 1) (some (starPi, starIi + 1))
  | none => some false

section Steps

variable {pattern input : Bytes} {pi ii : Nat} {c : UInt8}

theorem globLoop_byte (hc : input[ii]? = some c) {p : UInt8} (hp : pattern[pi]? = some p)
    (h42 : p ≠ 42) (h91 : p ≠ 91) (fuel : Nat) (star : Option (Nat × Nat)) :
    globLoop pattern input (fuel + 1) pi ii star =
      if p = 63 ∨ p = c then globLoop pattern input fuel (pi + 1) (ii + 1) star
      else resume pattern input fuel star := by
  simp only [globLoop, hc, hp, h42, h91, if_false]
  rfl

theorem globLoop_take (hc : input[ii]? = some c) {p : UInt8} (hp : pattern[pi]? = some p)
    (h : p = 63 ∨ p = c) (fuel : Nat) (star : Option (Nat × Nat)) :
    globLoop pattern input (fuel + 1) pi ii star =
      globLoop pattern input fuel (pi + 1) (ii + 1) star := by
  simp only [globLoop, hc, hp, h, if_true]

theorem globLoop_end (hc : input[ii]? = some c) (hp : pattern[pi]? = none) (fuel : Nat)
    (star : Option (Nat × Nat)) :
    globLoop pattern input (fuel + 1) pi ii star = resume pattern input fuel star := by
  simp only [globLoop, hc, hp]
  rfl

theorem globLoop_star (hc : input[ii]? = some c) (hp : pattern[pi]? = some 42) (h42 : c ≠ 42)
    (fuel : Nat) (star : Option (Nat × Nat)) : globLoop pattern input (fuel + 1) pi ii star =
      globLoop pattern input fuel (pi + 1) ii (some (pi, ii)) := by
  have hne : ¬ ((42 : UInt8) = 63 ∨ 42 = c) := by
    rintro (h | h)
    · exact absurd h (by decide)
    · exact h42 h.symm
  simp only [globLoop, hc, hp, hne, if_false, if_true]

/-- At a bracket, whatever its class lists. -/
theorem globLoop_bracket (hc : input[ii]? = some c) (hp : pattern[pi]? = some 91) (h91 : c ≠ 91)
    {negate : Bool} (hnegate : decide (pattern[pi + 1]? = some 94) = negate) {stop : Nat × Bool}
    (hstop : globClass pattern c pattern.length (if negate then pi + 2 else pi + 1) false = stop)
    (fuel : Nat) (star : Option (Nat × Nat)) : globLoop pattern input (fuel + 1) pi ii star =
      if stop.2 = negate then resume pattern input fuel star
      else globLoop pattern input fuel (if stop.1 < pattern.length then stop.1 + 1 else stop.1)
        (ii + 1) star := by
  have hne : ¬ ((91 : UInt8) = 63 ∨ 91 = c) := by
    rintro (h | h)
    · exact absurd h (by decide)
    · exact h91 h.symm
  have hbracket : ¬ (91 : UInt8) = 42 := by decide
  simp only [globLoop, hc, hp, hne, hbracket, if_false, if_true, hnegate, hstop]
  rfl

theorem globLoop_class (hc : input[ii]? = some c) {text rest : Bytes}
    (hdrop : pattern.drop pi = 91 :: (text ++ 93 :: rest)) (htext : 93 ∉ text) (h91 : c ≠ 91)
    {negate : Bool} {body : Bytes} (hsplit : splitNegation text = (negate, body))
    (hrange : dangling body = false) (fuel : Nat) (star : Option (Nat × Nat)) :
    globLoop pattern input (fuel + 1) pi ii star =
      if listed c body != negate then globLoop pattern input fuel (pi + (text.length + 2))
        (ii + 1) star
      else resume pattern input fuel star := by
  have hp : pattern[pi]? = some 91 := getElem?_of_drop hdrop 0
  have hlen : pattern.length = pi + (text.length + rest.length + 2) := by
    have h := congrArg length hdrop
    have hlt := (List.getElem?_eq_some_iff.mp hp).1
    simp only [length_drop, length_cons, length_append] at h
    omega
  -- both spellings of the class end at the same bracket
  have hscan : decide (pattern[pi + 1]? = some 94) = negate ∧
      globClass pattern c pattern.length (if negate = true then pi + 2 else pi + 1) false =
        (pi + (text.length + 1), listed c body) := by
    have h1 : pattern[pi + 1]? = (text ++ 93 :: rest)[0]? := getElem?_of_drop hdrop 1
    have hafter : pattern.drop (pi + 1) = text ++ 93 :: rest := tail_of_drop hdrop
    rw [splitNegation] at hsplit
    by_cases hhead : text.head? = some 94
    · rw [if_pos hhead] at hsplit
      cases hsplit
      obtain ⟨text, rfl⟩ : ∃ t, text = 94 :: t := ⟨text.tail, eq_cons_of_mem_head? hhead⟩
      have hrest : pattern.drop (pi + 2) = text ++ 93 :: rest := drop_of_drop (u := [91, 94]) hdrop
      have hbody : 93 ∉ text := fun h => htext (mem_cons_of_mem _ h)
      refine ⟨by simp [h1], ?_⟩
      rw [if_pos rfl, globClass_spec hrest hbody hrange (by rw [hlen, length_cons]; omega)]
      exact Prod.ext (by simp only [length_cons]; omega) rfl
    · rw [if_neg hhead] at hsplit
      cases hsplit
      have hfirst : pattern[pi + 1]? ≠ some 94 := by
        rw [h1]
        cases text with
        | nil => simp
        | cons b text => exact hhead
      refine ⟨by simp [hfirst], ?_⟩
      rw [if_neg Bool.false_ne_true, globClass_spec hafter htext hrange (by rw [hlen]; omega)]
      exact Prod.ext (by omega) rfl
  have hstop : pi + (text.length + 1) < pattern.length := by
    rw [hlen]
    omega
  rw [globLoop_bracket hc hp h91 hscan.1 hscan.2, if_pos hstop]
  by_cases hmatched : listed c body = negate
  · simp [hmatched]
  · have hne : (listed c body != negate) = true := bne_iff_ne.mpr hmatched
    rw [if_neg hmatched, if_pos hne]
    rfl

/-- A token that takes one byte is passed or sends the loop back. -/
theorem globLoop_single (hc : input[ii]? = some c) {t : GlobToken}
    (hreads : GlobReads (pattern.drop pi) (t :: ts)) (hfair : t.Fair input) {f : UInt8 → Bool}
    (hf : t.denote = some f) :
    ∃ pi', pi < pi' ∧ pi < pattern.length ∧ GlobReads (pattern.drop pi') ts ∧
      ∀ fuel star, globLoop pattern input (fuel + 1) pi ii star =
        if f c then globLoop pattern input fuel pi' (ii + 1) star
          else resume pattern input fuel star := by
  have hmem : c ∈ input := mem_of_getElem? hc
  have hlt : pi < pattern.length := by
    by_contra hge
    rw [drop_eq_nil_of_le (Nat.le_of_not_lt hge)] at hreads
    cases hreads
  generalize hq : pattern.drop pi = q at hreads
  cases hreads with
  | star _ => cases hf
  | any h =>
    cases hf
    have hp : pattern[pi]? = some 63 := getElem?_of_drop hq 0
    refine ⟨pi + 1, Nat.lt_succ_self pi, hlt, tail_of_drop hq ▸ h, fun fuel star => ?_⟩
    rw [globLoop_byte hc hp (by decide) (by decide)]
    simp
  | @byte b _ _ hb h =>
    cases hf
    have hp : pattern[pi]? = some b := getElem?_of_drop hq 0
    refine ⟨pi + 1, Nat.lt_succ_self pi, hlt, tail_of_drop hq ▸ h, fun fuel star => ?_⟩
    rw [globLoop_byte hc hp hb.1 hb.2.2]
    simp only [hb.2.1, false_or, eq_comm (b := c), decide_eq_true_eq]
  | @cls text negate body rest _ htext hsplit h =>
    cases hf
    have hafter : GlobReads (pattern.drop (pi + (text.length + 2))) ts := by
      have hrest := drop_of_drop (u := 91 :: (text ++ [93])) (v := rest) (by rw [hq]; simp)
      simp only [length_cons, length_append, length_nil] at hrest
      rw [hrest]
      exact h
    have h91 : c ≠ 91 := fun e => hfair.1 (e ▸ hmem)
    exact ⟨_, by omega, hlt, hafter, globLoop_class hc hq htext h91 hsplit hfair.2⟩

end Steps

/-! ## The loop -/

section Loop

variable {pattern input : Bytes} {cur tail : List GlobToken} {pi ii starPi starIi : Nat}
  {star : Option (Nat × Nat)}

/-- What is known about the star at `starPi` that the loop remembers, with `tail` the tokens
behind it: its word ends at `starIi`, and the loop has passed the tokens between it and `cur`
since, or stands at the star again. -/
structure Remembers (pattern input : Bytes) (cur tail : List GlobToken) (ii starPi starIi : Nat) :
    Prop where
  reads : GlobReads (pattern.drop starPi) (.star :: tail)
  fair : ∀ t ∈ GlobToken.star :: tail, t.Fair input
  place : (∃ seg, GlobToken.star ∉ seg ∧ tail = seg ++ cur ∧ ii = starIi + seg.length) ∨
    (cur = .star :: tail ∧ ii = starIi)

/-- Where the loop meets another star or the end of the input, the earlier star has nothing
more to offer. -/
theorem Remembers.absorb (h : Remembers pattern input cur tail ii starPi starIi)
    (hcur : (∃ rest, cur = .star :: rest) ∨ input.length ≤ ii) {k : Nat} (hk : starIi < k)
    (hmatch : Matches (tail.map GlobToken.denote) (input.drop k)) :
    Matches (cur.map GlobToken.denote) (input.drop ii) := by
  rcases h.place with ⟨seg, hseg, rfl, rfl⟩ | ⟨rfl, rfl⟩
  · have hnone := none_notMem_denote hseg
    rw [map_append] at hmatch
    rcases hcur with ⟨rest, rfl⟩ | hend
    · have habs := Matches.absorb hnone (Nat.le_of_lt hk) hmatch
      rwa [length_map] at habs
    · have hrest := hmatch.drop_length hnone
      rw [drop_drop, length_map, drop_eq_nil_of_le (by omega)] at hrest
      rwa [drop_eq_nil_of_le hend]
  · exact ⟨k - ii, by rwa [drop_drop, Nat.add_sub_cancel' (Nat.le_of_lt hk)]⟩

theorem Remembers.le (h : Remembers pattern input cur tail ii starPi starIi) : starIi ≤ ii := by
  rcases h.place with ⟨seg, _, _, rfl⟩ | ⟨_, rfl⟩
  · exact Nat.le_add_right ..
  · exact Nat.le_refl _

theorem Remembers.pass {t : GlobToken}
    (h : Remembers pattern input (t :: cur) tail ii starPi starIi) (ht : t ≠ .star) :
    Remembers pattern input cur tail (ii + 1) starPi starIi := by
  refine ⟨h.reads, h.fair, ?_⟩
  rcases h.place with ⟨seg, hseg, htail, hii⟩ | ⟨hcur, _⟩
  · refine Or.inl ⟨seg ++ [t], ?_, by rw [htail, append_assoc]; rfl, ?_⟩
    · simp only [mem_append, mem_singleton, not_or]
      exact ⟨hseg, ht.symm⟩
    · rw [hii, length_append, length_singleton, Nat.add_assoc]
  · exact absurd (cons.inj hcur).1 ht

theorem all_star_iff {q : Bytes} (h : GlobReads q ts) :
    (q.all fun b => b = 42) = true ↔ Matches (ts.map GlobToken.denote) [] := by
  rw [matches_nil_iff]
  induction h with
  | nil => simp
  | star _ ih => simpa [GlobToken.denote] using ih
  | any _ _ => simp [GlobToken.denote]
  | byte hb _ _ => simp [GlobToken.denote, hb.1]
  | cls _ _ _ _ => simp [GlobToken.denote]

/-- The loop at a state, with `cur` ahead of it and `tail` behind the star it remembers. -/
structure LoopState (pattern input : Bytes) (cur tail : List GlobToken) (pi ii : Nat)
    (star : Option (Nat × Nat)) : Prop where
  reads : GlobReads (pattern.drop pi) cur
  fair : ∀ t ∈ cur, t.Fair input
  star : ∀ q ∈ star, Remembers pattern input cur tail ii q.1 q.2

/-- What is still to be decided: the tokens ahead match here, or the star moves further. -/
def Open (input : Bytes) (cur tail : List GlobToken) (ii : Nat) (star : Option (Nat × Nat)) :
    Prop :=
  Matches (cur.map GlobToken.denote) (input.drop ii) ∨
    ∃ q ∈ star, ∃ k, q.2 < k ∧ Matches (tail.map GlobToken.denote) (input.drop k)

/-- A bound on the steps ahead: every move of the star starts the pattern again. -/
def stepsLeft (pattern input : Bytes) (pi : Nat) (star : Option (Nat × Nat)) : Nat :=
  (star.elim input.length fun q => input.length - q.2) * (pattern.length + 1) +
    (pattern.length - pi)

theorem stepsLeft_back (h : starIi < input.length) (pi starPi starPi' : Nat) :
    stepsLeft pattern input starPi' (some (starPi', starIi + 1)) <
      stepsLeft pattern input pi (some (starPi, starIi)) := by
  have hmove : input.length - starIi = input.length - (starIi + 1) + 1 := by omega
  simp only [stepsLeft, Option.elim_some]
  rw [hmove, Nat.succ_mul]
  omega

theorem stepsLeft_star (hpi : pi < pattern.length) (hstar : ∀ q ∈ star, q.2 ≤ ii) :
    stepsLeft pattern input (pi + 1) (some (pi, ii)) < stepsLeft pattern input pi star := by
  have hroom : input.length - ii ≤ star.elim input.length fun q => input.length - q.2 := by
    cases star with
    | none => exact Nat.sub_le ..
    | some q => exact Nat.sub_le_sub_left (hstar q rfl) _
  have hmul := Nat.mul_le_mul_right (pattern.length + 1) hroom
  simp only [stepsLeft, Option.elim_some]
  omega

theorem stepsLeft_forward {pi' : Nat} (hpi : pi < pattern.length) (hlt : pi < pi')
    (star : Option (Nat × Nat)) :
    stepsLeft pattern input pi' star < stepsLeft pattern input pi star := by
  rw [stepsLeft, stepsLeft]
  omega

/-- With `fuel` steps the loop ends in the right answer wherever so many are enough. -/
def Decides (pattern input : Bytes) (fuel : Nat) : Prop :=
  ∀ {cur tail : List GlobToken} {pi ii : Nat} {star : Option (Nat × Nat)},
    LoopState pattern input cur tail pi ii star → stepsLeft pattern input pi star < fuel →
    ∃ b, globLoop pattern input fuel pi ii star = some b ∧ (b = true ↔ Open input cur tail ii star)

section Step

variable {fuel : Nat}

/-- Going back to the star is right where the tokens ahead do not match. -/
theorem Decides.resume (h : Decides pattern input fuel)
    (hstate : LoopState pattern input cur tail pi ii star)
    (hfuel : stepsLeft pattern input pi star < fuel + 1) (hlt : ii < input.length)
    (hnot : ¬ Matches (cur.map GlobToken.denote) (input.drop ii)) :
    ∃ b, ShrikeDb.resume pattern input fuel star = some b ∧
    (b = true ↔ Open input cur tail ii star) := by
  cases star with
  | none =>
    refine ⟨false, rfl, fun h => absurd h Bool.false_ne_true, ?_⟩
    rintro (h | ⟨q, hq, _⟩)
    · exact absurd h hnot
    · cases hq
  | some q =>
    obtain ⟨starPi, starIi⟩ := q
    have hq := hstate.star _ rfl
    have hle : starIi ≤ ii := hq.le
    have hback : LoopState pattern input (.star :: tail) tail starPi (starIi + 1)
        (some (starPi, starIi + 1)) := by
      refine ⟨hq.reads, hq.fair, ?_⟩
      rintro _ ⟨⟩
      exact ⟨hq.reads, hq.fair, Or.inr ⟨rfl, rfl⟩⟩
    have hless : stepsLeft pattern input starPi (some (starPi, starIi + 1)) < _ :=
      stepsLeft_back (Nat.lt_of_le_of_lt hle hlt) pi starPi starPi
    obtain ⟨b, hrun, hb⟩ := h hback (by omega)
    refine ⟨b, hrun, hb.trans ⟨?_, ?_⟩⟩
    · rintro (⟨n, hmatch⟩ | ⟨_, ⟨⟩, k, hk, hmatch⟩)
      · rw [drop_drop] at hmatch
        exact Or.inr ⟨_, rfl, starIi + 1 + n, by omega, hmatch⟩
      · exact Or.inr ⟨_, rfl, k, by omega, hmatch⟩
    · rintro (hmatch | ⟨_, ⟨⟩, k, hk, hmatch⟩)
      · exact absurd hmatch hnot
      · refine Or.inl ⟨k - (starIi + 1), ?_⟩
        rwa [drop_drop, Nat.add_sub_cancel' hk]

/-- Past a single byte. -/
theorem Decides.pass (h : Decides pattern input fuel) {c : UInt8} (hc : input[ii]? = some c)
    {t : GlobToken} (hstate : LoopState pattern input (t :: cur) tail pi ii star)
    (hfuel : stepsLeft pattern input pi star < fuel + 1) {f : UInt8 → Bool}
    (hf : t.denote = some f) :
    ∃ b, globLoop pattern input (fuel + 1) pi ii star = some b ∧
      (b = true ↔ Open input (t :: cur) tail ii star) := by
  have hlt := (List.getElem?_eq_some_iff.mp hc).1
  have hdrop : input.drop ii = c :: input.drop (ii + 1) := by
    rw [List.drop_eq_getElem_cons hlt, (List.getElem?_eq_some_iff.mp hc).2]
  have hahead : Matches ((t :: cur).map GlobToken.denote) (input.drop ii) ↔
      f c = true ∧ Matches (cur.map GlobToken.denote) (input.drop (ii + 1)) := by
    rw [map_cons, hf, hdrop, matches_cons]
  obtain ⟨pi', hpi, hlen, hreads, hstep⟩ :=
    globLoop_single hc hstate.reads (hstate.fair t mem_cons_self) hf
  cases hfc : f c with
  | true =>
    have hne : t ≠ .star := by
      rintro rfl
      cases hf
    have hnext : LoopState pattern input cur tail pi' (ii + 1) star :=
      ⟨hreads, fun t ht => hstate.fair t (mem_cons_of_mem _ ht),
      fun q hq => (hstate.star q hq).pass hne⟩
    have hless : stepsLeft pattern input pi' star < _ := stepsLeft_forward hlen hpi star
    obtain ⟨b, hrun, hb⟩ := h hnext (by omega)
    refine ⟨b, ?_, ?_⟩
    · rw [hstep, hfc, if_pos rfl, hrun]
    · rw [hb, Open, Open, hahead, hfc]
      simp
  | false =>
    have hnot : ¬ Matches ((t :: cur).map GlobToken.denote) (input.drop ii) := by
      rw [hahead, hfc]
      simp
    obtain ⟨b, hrun, hb⟩ := h.resume hstate hfuel hlt hnot
    refine ⟨b, ?_, hb⟩
    rw [hstep, hfc, if_neg Bool.false_ne_true, hrun]

/-- At a star: the earlier one is given up. -/
theorem Decides.restart (h : Decides pattern input fuel) {c : UInt8} (hc : input[ii]? = some c)
    (hstate : LoopState pattern input (.star :: cur) tail pi ii star)
    (hfuel : stepsLeft pattern input pi star < fuel + 1) :
    ∃ b, globLoop pattern input (fuel + 1) pi ii star = some b ∧
      (b = true ↔ Open input (.star :: cur) tail ii star) := by
  have hlt := (List.getElem?_eq_some_iff.mp hc).1
  have h42 : c ≠ 42 := by
    rintro rfl
    exact hstate.fair .star mem_cons_self (mem_of_getElem? hc)
  obtain ⟨rest, hq, hreads⟩ : ∃ rest, pattern.drop pi = 42 :: rest ∧ GlobReads rest cur := by
    generalize hq : pattern.drop pi = q
    have hreads := hstate.reads
    rw [hq] at hreads
    cases hreads with
    | star hreads => exact ⟨_, rfl, hreads⟩
  have hp : pattern[pi]? = some 42 := getElem?_of_drop hq 0
  have hpi := (List.getElem?_eq_some_iff.mp hp).1
  have hfair : ∀ t ∈ cur, t.Fair input := fun t ht => hstate.fair t (mem_cons_of_mem _ ht)
  have hnext : LoopState pattern input cur cur (pi + 1) ii (some (pi, ii)) := by
    refine ⟨tail_of_drop hq ▸ hreads, hfair, ?_⟩
    rintro _ ⟨⟩
    exact ⟨hstate.reads, hstate.fair, Or.inl ⟨[], not_mem_nil, rfl, rfl⟩⟩
  have hless : stepsLeft pattern input (pi + 1) (some (pi, ii)) < _ :=
    stepsLeft_star hpi fun q hq => (hstate.star q hq).le
  obtain ⟨b, hrun, hb⟩ := h hnext (by omega)
  refine ⟨b, by rw [globLoop_star hc hp h42, hrun], hb.trans ⟨?_, ?_⟩⟩
  · rintro (hmatch | ⟨_, ⟨⟩, k, hk, hmatch⟩)
    · exact Or.inl ⟨0, hmatch⟩
    · refine Or.inl ⟨k - ii, ?_⟩
      rwa [drop_drop, Nat.add_sub_cancel' (Nat.le_of_lt hk)]
  · intro hopen
    have hstar : Matches ((GlobToken.star :: cur).map GlobToken.denote) (input.drop ii) := by
      rcases hopen with hmatch | ⟨q, hq, k, hk, hmatch⟩
      · exact hmatch
      · exact (hstate.star q hq).absorb (Or.inl ⟨cur, rfl⟩) hk hmatch
    obtain ⟨n, hmatch⟩ := hstar
    cases n with
    | zero => exact Or.inl hmatch
    | succ n =>
      rw [drop_drop] at hmatch
      exact Or.inr ⟨_, rfl, ii + (n + 1), by omega, hmatch⟩

end Step

theorem decides (pattern input : Bytes) (fuel : Nat) : Decides pattern input fuel := by
  induction fuel with
  | zero =>
    intro cur tail pi ii star _ hfuel
    exact absurd hfuel (Nat.not_lt_zero _)
  | succ fuel ih =>
    intro cur tail pi ii star hstate hfuel
    cases hc : input[ii]? with
    | none =>
      have hend := getElem?_eq_none_iff.mp hc
      refine ⟨(pattern.drop pi).all fun b => b = 42, by simp only [globLoop, hc], ?_⟩
      rw [all_star_iff hstate.reads, Open, drop_eq_nil_of_le hend]
      refine ⟨Or.inl, fun h => h.elim id ?_⟩
      rintro ⟨q, hq, k, hk, hmatch⟩
      have habs := (hstate.star q hq).absorb (Or.inr hend) hk hmatch
      rwa [drop_eq_nil_of_le hend] at habs
    | some c =>
      have hlt := (List.getElem?_eq_some_iff.mp hc).1
      cases cur with
      | nil =>
        have hp : pattern[pi]? = none := by
          generalize hq : pattern.drop pi = q
          have hreads := hstate.reads
          rw [hq] at hreads
          cases hreads
          exact getElem?_of_drop hq 0
        have hnot : ¬ Matches (([] : List GlobToken).map GlobToken.denote) (input.drop ii) := by
          intro h
          have hnil := drop_eq_nil_iff.mp h
          omega
        rw [globLoop_end hc hp]
        exact ih.resume hstate hfuel hlt hnot
      | cons t cur =>
        cases t with
        | star => exact ih.restart hc hstate hfuel
        | any => exact ih.pass hc hstate hfuel rfl
        | byte b => exact ih.pass hc hstate hfuel rfl
        | cls negate body => exact ih.pass hc hstate hfuel rfl

/-- On tokens that are read alike, the matcher decides the language. -/
theorem globMatchStr_of_fair (hreads : GlobReads pattern ts) (hfair : ∀ t ∈ ts, t.Fair input) :
    globMatchStr pattern input = true ↔ Matches (ts.map GlobToken.denote) input := by
  have hstate : LoopState pattern input ts [] 0 0 none := by
    refine ⟨hreads, hfair, ?_⟩
    rintro _ ⟨⟩
  have hfuel : stepsLeft pattern input 0 none <
      (input.length + 1) * (input.length + pattern.length + 2) + 1 := by
    have hmul := Nat.mul_le_mul_left input.length (show pattern.length + 1 ≤
      input.length + pattern.length + 2 by omega)
    simp only [stepsLeft, Option.elim_none, Nat.succ_mul]
    omega
  obtain ⟨b, hrun, hb⟩ := decides pattern input _ hstate hfuel
  rw [globMatchStr, hrun, Option.getD_some, hb]
  refine ⟨fun h => h.elim id ?_, Or.inl⟩
  rintro ⟨_, ⟨⟩, _⟩

end Loop

/-! ## Inputs that spell the pattern -/

/-- No class ends inside a range. -/
def GlobTidy (pattern : Bytes) : Prop :=
  ∀ ts, GlobReads pattern ts → ∀ negate body, .cls negate body ∈ ts → dangling body = false

theorem GlobReads.length_le (h : GlobReads p ts) :
    ts.length ≤ p.length := by
  induction h with
  | nil => exact Nat.le_refl _
  | star _ ih => exact Nat.succ_le_succ ih
  | any _ ih => exact Nat.succ_le_succ ih
  | byte _ _ ih => exact Nat.succ_le_succ ih
  | cls _ _ _ ih =>
    simp only [length_cons, length_append]
    omega

/-- Only a pattern without stars and classes has as many tokens as bytes. -/
theorem GlobReads.plain (h : GlobReads p ts) (hlen : p.length = ts.length) (hstar : .star ∉ ts) :
    42 ∉ p ∧ 91 ∉ p := by
  induction h with
  | nil => exact ⟨not_mem_nil, not_mem_nil⟩
  | star _ _ => exact absurd mem_cons_self hstar
  | any _ ih =>
    obtain ⟨h42, h91⟩ := ih (Nat.succ.inj hlen) fun h => hstar (mem_cons_of_mem _ h)
    simp [h42, h91]
  | byte hb _ ih =>
    obtain ⟨h42, h91⟩ := ih (Nat.succ.inj hlen) fun h => hstar (mem_cons_of_mem _ h)
    simp [h42, h91, hb.1.symm, hb.2.2.symm]
  | cls _ _ h _ =>
    have hle := h.length_le
    simp only [length_cons, length_append] at hlen
    omega

theorem GlobReads.mem_pattern (h : GlobReads p ts) :
    (.star ∈ ts → 42 ∈ p) ∧ ∀ negate body, .cls negate body ∈ ts → 91 ∈ p := by
  induction h with
  | nil => simp
  | star _ ih => simpa using ih.2
  | any _ ih => simpa using ih
  | byte _ _ ih =>
    refine ⟨fun h => mem_cons_of_mem _ (ih.1 ?_), fun negate body h =>
      mem_cons_of_mem _ (ih.2 negate body ?_)⟩
    · simpa using h
    · simpa using h
  | cls _ _ _ ih => simpa using fun h => Or.inr (ih.1 h)

theorem GlobReads.fair (h : GlobReads p ts) {input : Bytes} (h42 : 42 ∈ p → 42 ∉ input)
    (h91 : 91 ∈ p → 91 ∉ input)
    (hrange : ∀ negate body, .cls negate body ∈ ts → dangling body = false) :
    ∀ t ∈ ts, t.Fair input := by
  intro t ht
  cases t with
  | star => exact h42 (h.mem_pattern.1 ht)
  | any => trivial
  | byte b => trivial
  | cls negate body => exact ⟨h91 (h.mem_pattern.2 negate body ht), hrange negate body ht⟩

/-- The input spells a part of the pattern, with any byte for a `?`. -/
abbrev Spells : Bytes → Bytes → Prop := List.Forall₂ fun p c => p = 63 ∨ p = c

/-- The loop runs through a part of the pattern that the input spells. -/
theorem globLoop_spelt {input q r : Bytes} (h : Spells a u) {ii : Nat}
    (hp : pattern.drop pi = a ++ q) (hi : input.drop ii = u ++ r) (fuel : Nat)
    (star : Option (Nat × Nat)) : globLoop pattern input (fuel + a.length) pi ii star =
      globLoop pattern input fuel (pi + a.length) (ii + a.length) star := by
  induction h generalizing pi ii with
  | nil => rfl
  | @cons p c a u hpc _ ih =>
    have hp0 : pattern[pi]? = some p := getElem?_of_drop hp 0
    have hc0 : input[ii]? = some c := getElem?_of_drop hi 0
    rw [length_cons, ← Nat.add_assoc, globLoop_take hc0 hp0 hpc,
      ih (tail_of_drop hp) (tail_of_drop hi)]
    congr 1 <;> omega

theorem globMatchStr_spelt (h : Spells a u) (q r : Bytes) :
    ∃ fuel, globMatchStr (a ++ q) (u ++ r) =
      (globLoop (a ++ q) (u ++ r) (fuel + 1) a.length a.length none).getD false := by
  obtain ⟨fuel, hfuel⟩ := Nat.exists_eq_add_of_le' (show a.length ≤
    ((u ++ r).length + 1) * ((u ++ r).length + (a ++ q).length + 2) by
      rw [Nat.succ_mul, length_append, length_append]
      omega)
  refine ⟨fuel, ?_⟩
  rw [globMatchStr, hfuel, Nat.add_right_comm, globLoop_spelt h rfl rfl, Nat.zero_add]

theorem globMatchStr_spelt_end (h : Spells a u) (q : Bytes) :
    globMatchStr (a ++ q) u = q.all fun b => b = 42 := by
  obtain ⟨fuel, hrun⟩ := globMatchStr_spelt h q []
  have hend : u[a.length]? = none := getElem?_eq_none_iff.mpr h.length_eq.ge
  rw [append_nil] at hrun
  rw [hrun]
  simp only [globLoop, hend, drop_left, Option.getD_some]

theorem globMatchStr_spelt_stuck (h : Spells a u) {q r : Bytes}
    (hq : ∀ b ∈ q.head?, b ≠ 42 ∧ b ≠ 63 ∧ b ≠ 91 ∧ b ≠ c) :
    globMatchStr (a ++ q) (u ++ c :: r) = false := by
  obtain ⟨fuel, hrun⟩ := globMatchStr_spelt h q (c :: r)
  have hc : (u ++ c :: r)[a.length]? = some c := by
    rw [h.length_eq, getElem?_append_right (Nat.le_refl _), Nat.sub_self]
    rfl
  have hp : (a ++ q)[a.length]? = q.head? := by
    rw [getElem?_append_right (Nat.le_refl _), Nat.sub_self, head?_eq_getElem?]
  rw [hrun]
  cases hb : q.head? with
  | none =>
    rw [globLoop_end hc (hp.trans hb)]
    rfl
  | some b =>
    obtain ⟨h42, h63, h91, hbc⟩ := hq b hb
    rw [globLoop_byte hc (hp.trans hb) h42 h91, if_neg (by simp [h63, hbc])]
    rfl

theorem spelt_self (p : Bytes) : Spells p p := by
  induction p with
  | nil => exact .nil
  | cons b p ih => exact .cons (Or.inr rfl) ih

theorem spelt_any (u : Bytes) : Spells (replicate u.length 63) u := by
  induction u with
  | nil => exact .nil
  | cons c u ih => exact .cons (Or.inl rfl) ih

/-- Every pattern matches its own text. -/
theorem globMatchStr_self (p : Bytes) : globMatchStr p p = true := by
  have h := globMatchStr_spelt_end (spelt_self p) []
  rwa [append_nil] at h

/-- No pattern matches its own text with more behind it. -/
theorem globMatchStr_self_append (p : Bytes) (c : UInt8) (r : Bytes) :
    globMatchStr p (p ++ c :: r) = false := by
  have h := globMatchStr_spelt_stuck (spelt_self p) (q := []) (r := r) (c := c) (by simp)
  rwa [append_nil] at h

/-! ## Where the matcher is right -/

theorem inGlob_iff_of_fair {pattern input : Bytes} (hclosed : GlobClosed pattern)
    (htidy : GlobTidy pattern) (h42 : 42 ∈ pattern → 42 ∉ input) (h91 : 91 ∈ pattern → 91 ∉ input) :
    globMatchStr pattern input = true ↔ InGlob pattern input := by
  constructor
  · intro h
    obtain ⟨ts, hreads⟩ := hclosed.reads
    exact ⟨ts, hreads, (globMatchStr_of_fair hreads (hreads.fair h42 h91 (htidy ts hreads))).mp h⟩
  · rintro ⟨ts, hreads, hmatch⟩
    exact (globMatchStr_of_fair hreads (hreads.fair h42 h91 (htidy ts hreads))).mpr hmatch

/-- A pattern that is right on its own text and on all continuations has no special byte. -/
theorem plain_of_right (h : ∀ input, globMatchStr pattern input = true ↔ InGlob pattern input) :
    42 ∉ pattern ∧ 91 ∉ pattern := by
  obtain ⟨ts, hreads, hmatch⟩ := (h pattern).mp (globMatchStr_self pattern)
  have hstar : .star ∉ ts := by
    intro hmem
    obtain ⟨ts1, ts2, rfl⟩ := append_of_mem hmem
    rw [map_append] at hmatch
    obtain ⟨w, hw⟩ := Matches.pump hmatch
    have hlonger : InGlob pattern (pattern ++ 0 :: w) :=
      ⟨_, hreads, by rw [map_append]; exact hw [0]⟩
    have htrue := (h _).mpr hlonger
    rw [globMatchStr_self_append] at htrue
    cases htrue
  have hlen := hmatch.length_eq (none_notMem_denote hstar)
  rw [length_map] at hlen
  exact hreads.plain hlen hstar

theorem GlobReads.anys {q : Bytes} (h : GlobReads q ts) (n : Nat) :
    GlobReads (replicate n 63 ++ q) (replicate n .any ++ ts) := by
  induction n with
  | zero => exact h
  | succ n ih => exact .any ih

theorem matches_anys {r : Bytes} (h : Matches (ts.map GlobToken.denote) r) (u : Bytes) :
    Matches ((replicate u.length GlobToken.any ++ ts).map GlobToken.denote) (u ++ r) := by
  induction u with
  | nil => exact h
  | cons c u ih => exact ⟨c, u ++ r, rfl, rfl, ih⟩

theorem GlobReads.tidy (h : GlobReads p ts)
    (hrange : ∀ negate body, .cls negate body ∈ ts → dangling body = false) : GlobTidy p := by
  intro ts' h' negate body hmem
  rw [h'.unique h] at hmem
  exact hrange negate body hmem

/-- A star after `u` meets its own byte in the input. -/
theorem exists_wrong_star (u v : Bytes) : ∃ pattern, GlobClosed pattern ∧ GlobTidy pattern ∧
    InGlob pattern (u ++ 42 :: v) ∧ globMatchStr pattern (u ++ 42 :: v) = false := by
  have hspelt : Spells (replicate u.length 63 ++ [42]) (u ++ [42]) :=
    rel_append (spelt_any u) (.cons (Or.inr rfl) .nil)
  cases v with
  | nil =>
    have hreads := (GlobReads.star (.any .nil)).anys u.length
    have hmatch : Matches ([GlobToken.star, .any].map GlobToken.denote) [42] :=
      ⟨0, 42, [], rfl, rfl, rfl⟩
    refine ⟨_, hreads.closed, hreads.tidy (by simp), ⟨_, hreads, matches_anys hmatch u⟩, ?_⟩
    have h := globMatchStr_spelt_end hspelt [63]
    rw [append_assoc] at h
    exact h
  | cons c v =>
    have hreads := (GlobReads.star .nil).anys u.length
    have hmatch : Matches ([GlobToken.star].map GlobToken.denote) (42 :: c :: v) :=
      ⟨(42 :: c :: v).length, drop_length⟩
    refine ⟨_, hreads.closed, hreads.tidy (by simp), ⟨_, hreads, matches_anys hmatch u⟩, ?_⟩
    have h := globMatchStr_spelt_stuck hspelt (q := []) (r := v) (c := c) (by simp)
    rw [append_nil, append_assoc] at h
    exact h

/-- A class after `u` that lists its own bracket meets it in the input. -/
theorem exists_wrong_class (u v : Bytes) : ∃ pattern, GlobClosed pattern ∧ GlobTidy pattern ∧
    InGlob pattern (u ++ 91 :: v) ∧ globMatchStr pattern (u ++ 91 :: v) = false := by
  have hspelt : Spells (replicate u.length 63 ++ [91]) (u ++ [91]) :=
    rel_append (spelt_any u) (.cons (Or.inr rfl) .nil)
  -- the class lists another byte first, one that does not follow in the input
  obtain ⟨b, hb, hne⟩ : ∃ b : UInt8, (b = 97 ∨ b = 98) ∧ ∀ c ∈ v.head?, b ≠ c := by
    by_cases h : v.head? = some 97
    · exact ⟨98, Or.inr rfl, by simp [h]⟩
    · exact ⟨97, Or.inl rfl, fun c hc e => h (e ▸ hc)⟩
  have htext : 93 ∉ [b, 91] := by rcases hb with rfl | rfl <;> decide
  have hsplit : splitNegation [b, 91] = (false, [b, 91]) := by rcases hb with rfl | rfl <;> rfl
  have hreads := (GlobReads.cls htext hsplit (GlobReads.nil.anys v.length)).anys u.length
  have hmatch :
      Matches ((GlobToken.cls false [b, 91] :: (replicate v.length GlobToken.any ++ [])).map
      GlobToken.denote) (91 :: v) := by
    have hnil : Matches (([] : List GlobToken).map GlobToken.denote) [] := rfl
    have hv := matches_anys hnil v
    rw [append_nil v] at hv
    exact ⟨91, v, rfl, by simp [listed], hv⟩
  refine ⟨_, hreads.closed, hreads.tidy ?_, ⟨_, hreads, matches_anys hmatch u⟩, ?_⟩
  · intro negate body hmem
    simp only [mem_append, mem_replicate, mem_cons, not_mem_nil] at hmem
    rcases hmem with ⟨_, h⟩ | h | ⟨_, h⟩ | h
    · cases h
    · cases h
      rfl
    · cases h
    · exact h.elim
  · have hb' : b ≠ 42 ∧ b ≠ 63 ∧ b ≠ 91 := by rcases hb with rfl | rfl <;> decide
    cases v with
    | nil =>
      have h := globMatchStr_spelt_end hspelt [b, 91, 93]
      rw [append_assoc] at h
      rw [all_cons, decide_eq_false hb'.1] at h
      exact h
    | cons c v =>
      have h := globMatchStr_spelt_stuck hspelt (q := b :: 91 :: 93 :: replicate (c :: v).length 63)
        (r := v) (c := c) (by
          rintro _ ⟨⟩
          exact ⟨hb'.1, hb'.2.1, hb'.2.2, hne c rfl⟩)
      rw [append_assoc, append_assoc] at h
      rw [append_nil]
      exact h

/-- The matcher decides the language of a closed pattern on every input that does not hold
the `*` or `[` of the pattern, if no class of it ends inside a range. On the other inputs
some pattern is wrong, and of the patterns only those with neither byte are right on all. -/
theorem globMatchStr_right_iff (pattern input : Bytes) (hclosed : GlobClosed pattern) :
    (GlobTidy pattern → (42 ∈ pattern → 42 ∉ input) → (91 ∈ pattern → 91 ∉ input) →
        (globMatchStr pattern input = true ↔ InGlob pattern input)) ∧
      ((∀ s, globMatchStr pattern s = true ↔ InGlob pattern s) ↔ 42 ∉ pattern ∧ 91 ∉ pattern) ∧
      ((∀ p, GlobClosed p → GlobTidy p → (globMatchStr p input = true ↔ InGlob p input)) ↔
        42 ∉ input ∧ 91 ∉ input) := by
  refine ⟨fun htidy h42 h91 => inGlob_iff_of_fair hclosed htidy h42 h91, ⟨plain_of_right, ?_⟩, ?_,
    ?_⟩
  · rintro ⟨h42, h91⟩ s
    have htidy : GlobTidy pattern := fun ts hreads negate body hmem =>
      absurd (hreads.mem_pattern.2 negate body hmem) h91
    exact inGlob_iff_of_fair hclosed htidy (fun h => absurd h h42) fun h => absurd h h91
  · intro h
    have hright : ¬ ∃ p, GlobClosed p ∧ GlobTidy p ∧ InGlob p input ∧
        globMatchStr p input = false := by
      rintro ⟨p, hp, htidy, hin, hcode⟩
      have htrue := (h p hp htidy).mpr hin
      rw [hcode] at htrue
      cases htrue
    constructor
    · intro hmem
      obtain ⟨u, v, rfl⟩ := append_of_mem hmem
      exact hright (exists_wrong_star u v)
    · intro hmem
      obtain ⟨u, v, rfl⟩ := append_of_mem hmem
      exact hright (exists_wrong_class u v)
  · rintro ⟨h42, h91⟩ p hp htidy
    exact inGlob_iff_of_fair hp htidy (fun _ => h42) fun _ => h91

theorem globMatchStr_right_hello : GlobClosed (ascii "h[^a-d]l*o") ∧ GlobTidy (ascii "h[^a-d]l*o") ∧
    InGlob (ascii "h[^a-d]l*o") (ascii "hello world o") := by
  have hreads : GlobReads (ascii "h[^a-d]l*o")
      [.byte 104, .cls true (ascii "a-d"), .byte 108, .star, .byte 111] :=
    .byte (by decide) (@GlobReads.cls (ascii "^a-d") true (ascii "a-d") _ _ (by decide) rfl
      (.byte (by decide) (.star (.byte (by decide) .nil))))
  have htidy : GlobTidy (ascii "h[^a-d]l*o") := by
    refine hreads.tidy fun negate body hmem => ?_
    simp only [mem_cons, reduceCtorEq, GlobToken.cls.injEq, false_or, or_false, not_mem_nil] at hmem
    rw [hmem.2]
    decide
  have h := (globMatchStr_right_iff _ (ascii "hello world o") hreads.closed).1 htidy
    (by decide) (by decide)
  exact ⟨hreads.closed, htidy, h.mp (by decide)⟩

/-- An input that begins with `*`, one that spells a class, and a class that ends inside a range. -/
theorem globMatchStr_wrong :
    (GlobClosed (ascii "*") ∧ globMatchStr (ascii "*") (ascii "*a") = false ∧
      InGlob (ascii "*") (ascii "*a")) ∧
    (GlobClosed (ascii "[a]") ∧ globMatchStr (ascii "[a]") (ascii "[a]") = true ∧
      ¬ InGlob (ascii "[a]") (ascii "[a]")) ∧
    (GlobClosed (ascii "[a-]") ∧ globMatchStr (ascii "[a-]") (ascii "a") = false ∧
      InGlob (ascii "[a-]") (ascii "a")) := by
  have hstar : GlobReads (ascii "*") [.star] := .star .nil
  have hclass : GlobReads (ascii "[a]") [.cls false (ascii "a")] :=
    @GlobReads.cls (ascii "a") false (ascii "a") [] [] (by decide) rfl .nil
  have hrange : GlobReads (ascii "[a-]") [.cls false (ascii "a-")] :=
    @GlobReads.cls (ascii "a-") false (ascii "a-") [] [] (by decide) rfl .nil
  refine ⟨⟨hstar.closed, by decide, _, hstar, 2, rfl⟩,
    ⟨hclass.closed, by decide, ?_⟩,
    ⟨hrange.closed, by decide, _, hrange, 97, [], rfl, by decide, rfl⟩⟩
  rintro ⟨ts, hreads, hmatch⟩
  rw [hreads.unique hclass] at hmatch
  exact absurd (hmatch.length_eq (by simp [GlobToken.denote])) (by decide)

end ShrikeDb
