import ShrikeDb.Core.Slice
import ShrikeDb.Server.Glob

/-! The glob matcher with the indices of the source: `usize` values that wrap around, reads
that panic out of range, and loops that are given a number of rounds. Whatever the pattern is,
the loops end, no read is out of range, and the answer is that of `globMatchStr`. -/

namespace ShrikeDb

namespace Indexed

/-! ## The loops as the source writes them -/

/-- `pi + 2 < pattern.len() && pattern[pi + 1] == b'-'` -/
def rangeAt (pattern : Slice) (pi : UInt64) : Exit Bool :=
  pure (decide (pi + 2 < pattern.len)) <&&> (do return (← pattern.get (pi + 1)) == 45)

/-- A round of the loop over the items of a class, for the byte at `ii`. -/
def classRound (pattern input : Slice) (ii : UInt64) :
    UInt64 × Bool → Exit ((UInt64 × Bool) ⊕ (UInt64 × Bool))
  | (pi, matched) => do
    if ← pattern.holds pi fun p => pure (p != 93) then
      if ← rangeAt pattern pi then
        let listed ← (do return decide ((← input.get ii) ≥ (← pattern.get pi))) <&&>
          (do return decide ((← input.get ii) ≤ (← pattern.get (pi + 2))))
        return .inl (pi + 3, if listed then true else matched)
      else
        let listed := (← input.get ii) == (← pattern.get pi)
        return .inl (pi + 1, if listed then true else matched)
    else
      return .inr (pi, matched)

def usizeMax : UInt64 := usize (2 ^ 64 - 1)

/-- The variables of the main loop; no star was met as long as `starPi` is `usize::MAX`. -/
structure GlobState where
  pi : UInt64
  ii : UInt64
  starPi : UInt64
  starIi : UInt64

/-- Back to the last star, or `return false`. -/
def GlobState.back (s : GlobState) : GlobState ⊕ Option UInt64 :=
  if s.starPi ≠ usizeMax then
    .inl { s with pi := s.starPi, starIi := s.starIi + 1, ii := s.starIi + 1 }
  else .inr none

/-- A round of the main loop, which is left with the place in the pattern or by `return false`. -/
def globRound (fuel : Nat) (pattern input : Slice) (s : GlobState) :
    Exit (GlobState ⊕ Option UInt64) := do
  if s.ii < input.len then
    if ← pattern.holds s.pi fun p => pure (p == 63) <||> (do return p == (← input.get s.ii)) then
      return .inl { s with pi := s.pi + 1, ii := s.ii + 1 }
    else if ← pattern.holds s.pi fun p => pure (p == 42) then
      return .inl { s with starPi := s.pi, starIi := s.ii, pi := s.pi + 1 }
    else if ← pattern.holds s.pi fun p => pure (p == 91) then
      let negate ← pattern.holds (s.pi + 1) fun p => pure (p == 94)
      let start := if negate then s.pi + 1 + 1 else s.pi + 1
      let (stop, matched) ← Exit.loop (classRound pattern input s.ii) fuel (start, false)
      let pi := if stop < pattern.len then stop + 1 else stop
      if matched == negate then
        return GlobState.back { s with pi }
      else
        return .inl { s with pi, ii := s.ii + 1 }
    else
      return s.back
  else
    return .inr (some s.pi)

/-- A round of the loop over the stars that end the pattern. -/
def trailRound (pattern : Slice) (pi : UInt64) : Exit (UInt64 ⊕ UInt64) := do
  if ← pattern.holds pi fun p => pure (p == 42) then return .inl (pi + 1) else return .inr pi

/-- Each loop is given `fuel` rounds. -/
def globMatchStr (fuel : Nat) (pattern input : Slice) : Exit Bool := do
  match ← Exit.loop (globRound fuel pattern input) fuel ⟨0, 0, usizeMax, 0⟩ with
  | none => return false
  | some pi => return (← Exit.loop (trailRound pattern) fuel pi) == pattern.len

/-! ## The class -/

section Rounds

variable {pattern input : Slice} {i p fuel : Nat} {c : UInt8}

theorem rangeAt_usize (hp : p ≤ pattern.bytes.length) : rangeAt pattern (usize p) =
    .value (decide (pattern.bytes[p + 1]? = some 45 ∧ p + 2 < pattern.bytes.length)) := by
  have := pattern.fits
  by_cases h2 : p + 2 < pattern.bytes.length
  · have h1 : pattern.bytes[p + 1]? = some pattern.bytes[p + 1] := List.getElem?_eq_getElem _
    have hlt : usize (p + 2) < pattern.len := (pattern.usize_lt_len (by omega)).mpr h2
    simp [rangeAt, hlt, pattern.get_of_some h1, h1, h2, beq_eq_decide]
  · have hge : ¬ usize (p + 2) < pattern.len := mt (pattern.usize_lt_len (by omega)).mp h2
    simp [rangeAt, hge, h2]

theorem classRound_leave (hp : p ≤ pattern.bytes.length)
    (h : pattern.bytes[p]? = none ∨ pattern.bytes[p]? = some 93) (ii : UInt64) (matched : Bool) :
    classRound pattern input ii (usize p, matched) = .value (.inr (usize p, matched)) := by
  have := pattern.fits
  rcases h with h | h
  · simp [classRound, pattern.holds_of_none (by omega) h]
  · simp [classRound, pattern.holds_of_some h]

theorem classRound_single (hc : input.bytes[i]? = some c) {x : UInt8}
    (hx : pattern.bytes[p]? = some x) (hclose : x ≠ 93)
    (hd : ¬ (pattern.bytes[p + 1]? = some 45 ∧ p + 2 < pattern.bytes.length)) (matched : Bool) :
    classRound pattern input (usize i) (usize p, matched) =
      .value (.inl (usize (p + 1), matched || c = x)) := by
  have hlt := (List.getElem?_eq_some_iff.mp hx).1
  have hrange := rangeAt_usize hlt.le
  rw [decide_eq_false hd] at hrange
  cases matched <;>
    simp [classRound, pattern.holds_of_some hx, hclose, hrange, input.get_of_some hc,
    pattern.get_of_some hx]

theorem classRound_range (hc : input.bytes[i]? = some c) {x y : UInt8}
    (hx : pattern.bytes[p]? = some x) (hclose : x ≠ 93) (hd : pattern.bytes[p + 1]? = some 45)
    (hy : pattern.bytes[p + 2]? = some y) (matched : Bool) :
    classRound pattern input (usize i) (usize p, matched) =
      .value (.inl (usize (p + 3), matched || (x ≤ c && c ≤ y))) := by
  have hlt := (List.getElem?_eq_some_iff.mp hx).1
  have hrange := rangeAt_usize hlt.le
  rw [decide_eq_true ⟨hd, (List.getElem?_eq_some_iff.mp hy).1⟩] at hrange
  by_cases hxc : x ≤ c <;> cases matched <;>
    simp [classRound, pattern.holds_of_some hx, hclose, hrange, input.get_of_some hc,
      pattern.get_of_some hx, pattern.get_of_some hy, hxc]

/-- The loop stops where the scan of the model does. -/
def classProof (pattern : Slice) (c : UInt8) :
    LoopProof (Nat × Bool) (UInt64 × Bool) (UInt64 × Bool) where
  state t := (usize t.1, t.2)
  Inv t := t.1 ≤ pattern.bytes.length
  variant t := pattern.bytes.length - t.1
  Right t a := ∃ stop : Nat × Bool, a = (usize stop.1, stop.2) ∧
    (t.1 ≤ stop.1 ∧ stop.1 ≤ pattern.bytes.length) ∧
    ∀ f, pattern.bytes.length - t.1 ≤ f → globClass pattern.bytes c f t.1 t.2 = stop

/-- A round that takes `k` bytes of the class. -/
theorem classRound_again {k : Nat} {matched matched' : Bool}
    (hround : classRound pattern input (usize i) (usize p, matched) =
    .value (.inl (usize (p + k), matched'))) (hk : 0 < k ∧ p + k ≤ pattern.bytes.length)
    (hscan : ∀ f, globClass pattern.bytes c (f + 1) p matched =
      globClass pattern.bytes c f (p + k) matched') :
    (classProof pattern c).Round (classRound pattern input (usize i)) (p, matched) := by
  refine Or.inr ⟨(p + k, matched'), hround, hk.2, ?_, ?_⟩
  · simp only [classProof]
    omega
  · rintro a ⟨stop, rfl, hle, hstop⟩
    simp only at hle hstop
    refine ⟨stop, rfl, ⟨by simp only; omega, hle.2⟩, fun f hf => ?_⟩
    simp only at hf ⊢
    obtain ⟨f, rfl⟩ : ∃ f', f = f' + 1 := ⟨f - 1, by omega⟩
    rw [hscan]
    exact hstop f (by omega)

theorem classRound_spec (hc : input.bytes[i]? = some c) (t : Nat × Bool)
    (ht : (classProof pattern c).Inv t) :
    (classProof pattern c).Round (classRound pattern input (usize i)) t := by
  obtain ⟨p, matched⟩ := t
  have hp : p ≤ pattern.bytes.length := ht
  cases hx : pattern.bytes[p]? with
  | none =>
    exact Or.inl ⟨_, classRound_leave hp (Or.inl hx) _ matched, (p, matched), rfl, ⟨le_rfl, hp⟩,
      fun f _ => globClass_end hx f matched⟩
  | some x =>
    have hlt := (List.getElem?_eq_some_iff.mp hx).1
    by_cases hclose : x = 93
    · subst hclose
      exact Or.inl ⟨_, classRound_leave hp (Or.inr hx) _ matched, (p, matched), rfl, ⟨le_rfl, hp⟩,
        fun f _ => globClass_stop hx f matched⟩
    by_cases hd : pattern.bytes[p + 1]? = some 45 ∧ p + 2 < pattern.bytes.length
    · have hy : pattern.bytes[p + 2]? = some pattern.bytes[p + 2] := List.getElem?_eq_getElem hd.2
      exact classRound_again (classRound_range hc hx hclose hd.1 hy matched) ⟨by decide, hd.2⟩
        fun f => globClass_range hx hclose hd.1 hy f matched
    · have hdangling : pattern.bytes[p + 1]? = some 45 → pattern.bytes[p + 2]? = none := by
        intro h
        exact List.getElem?_eq_none (Nat.le_of_not_lt fun h2 => hd ⟨h, h2⟩)
      exact classRound_again (classRound_single hc hx hclose hd matched) ⟨by decide, hlt⟩
        fun f => globClass_single hx hclose hdangling f matched

theorem classLoop (hc : input.bytes[i]? = some c) (hp : p ≤ pattern.bytes.length)
    (hfuel : pattern.bytes.length < fuel) :
    ∃ stop : Nat × Bool, Exit.loop (classRound pattern input (usize i)) fuel (usize p, false) =
        .value (usize stop.1, stop.2) ∧
      (p ≤ stop.1 ∧ stop.1 ≤ pattern.bytes.length) ∧
      globClass pattern.bytes c pattern.bytes.length p false = stop := by
  obtain ⟨_, hrun, stop, rfl, hle, hstop⟩ :=
    (classProof pattern c).total (classRound_spec hc) (p, false)
    hp fuel (Nat.lt_of_le_of_lt (Nat.sub_le ..) hfuel)
  exact ⟨stop, hrun, hle, hstop _ (Nat.sub_le ..)⟩

/-! ## The main loop -/

/-- The variables of the main loop, as numbers, with the last star. -/
structure Place where
  pi : Nat
  ii : Nat
  star : Option (Nat × Nat)

def Place.state (t : Place) : GlobState :=
  ⟨usize t.pi, usize t.ii, t.star.elim usizeMax (usize ·.1), t.star.elim 0 (usize ·.2)⟩

structure Place.InRange (pattern input : Bytes) (t : Place) : Prop where
  pi_le : t.pi ≤ pattern.length
  ii_le : t.ii ≤ input.length
  star : ∀ q ∈ t.star, q.1 < pattern.length ∧ q.2 ≤ t.ii

/-- The loop is left where the loop of the model ends. -/
def globProof (pattern input : Slice) : LoopProof Place GlobState (Option UInt64) where
  state := Place.state
  Inv := Place.InRange pattern.bytes input.bytes
  variant t := stepsLeft pattern.bytes input.bytes t.pi t.star
  Right t a := ∃ stop : Option Nat, a = stop.map usize ∧ (∀ n ∈ stop, n ≤ pattern.bytes.length) ∧
    ∀ f, stepsLeft pattern.bytes input.bytes t.pi t.star < f →
      globLoop pattern.bytes input.bytes f t.pi t.ii t.star =
        some (stop.elim false fun n => (pattern.bytes.drop n).all (· = 42))

variable {t : Place}

theorem usize_ne_usizeMax (hp : p < pattern.bytes.length) : usize p ≠ usizeMax := by
  intro h
  have := pattern.fits
  have h := congrArg UInt64.toNat h
  rw [pattern.toNat_usize hp.le] at h
  simp [usizeMax, usize] at h
  omega

theorem globRound_again (t' : Place)
    (hround : globRound fuel pattern input t.state = .value (.inl t'.state))
    (ht' : t'.InRange pattern.bytes input.bytes)
    (hless : stepsLeft pattern.bytes input.bytes t'.pi t'.star <
      stepsLeft pattern.bytes input.bytes t.pi t.star)
    (hloop : ∀ f, globLoop pattern.bytes input.bytes (f + 1) t.pi t.ii t.star =
      globLoop pattern.bytes input.bytes f t'.pi t'.ii t'.star) :
    (globProof pattern input).Round (globRound fuel pattern input) t := by
  refine Or.inr ⟨t', hround, ht', hless, ?_⟩
  rintro a ⟨stop, rfl, hle, hstop⟩
  refine ⟨stop, rfl, hle, fun f hf => ?_⟩
  obtain ⟨f, rfl⟩ : ∃ f', f = f' + 1 := ⟨f - 1, by omega⟩
  rw [hloop]
  exact hstop f (by omega)

/-- A byte of the input is passed, and the pattern up to `next`. -/
theorem globRound_forward (ht : t.InRange pattern.bytes input.bytes)
    (hii : t.ii < input.bytes.length) {next : Nat}
    (hnext : t.pi < next ∧ next ≤ pattern.bytes.length)
    (hround : globRound fuel pattern input t.state =
      .value (.inl (Place.state ⟨next, t.ii + 1, t.star⟩)))
    (hloop : ∀ f, globLoop pattern.bytes input.bytes (f + 1) t.pi t.ii t.star =
      globLoop pattern.bytes input.bytes f next (t.ii + 1) t.star) :
    (globProof pattern input).Round (globRound fuel pattern input) t := by
  refine globRound_again ⟨next, t.ii + 1, t.star⟩ hround ⟨hnext.2, hii, fun q hq => ?_⟩
    (stepsLeft_forward (Nat.lt_of_lt_of_le hnext.1 hnext.2) hnext.1 _) hloop
  obtain ⟨hpi, hle⟩ := ht.star q hq
  exact ⟨hpi, Nat.le_succ_of_le hle⟩

theorem globRound_back (ht : t.InRange pattern.bytes input.bytes) (hii : t.ii < input.bytes.length)
    (pi : UInt64)
    (hround : globRound fuel pattern input t.state = .value (GlobState.back { t.state with pi }))
    (hloop : ∀ f, globLoop pattern.bytes input.bytes (f + 1) t.pi t.ii t.star =
      resume pattern.bytes input.bytes f t.star) :
    (globProof pattern input).Round (globRound fuel pattern input) t := by
  obtain ⟨p, i, star⟩ := t
  cases star with
  | none =>
    refine Or.inl ⟨none, hround, none, rfl, by simp, fun f hf => ?_⟩
    obtain ⟨f, rfl⟩ : ∃ f', f = f' + 1 := ⟨f - 1, by omega⟩
    exact hloop f
  | some q =>
    obtain ⟨starPi, starIi⟩ := q
    obtain ⟨hpi, hle⟩ := ht.star _ rfl
    simp only at hpi hle hii
    have hmet := usize_ne_usizeMax hpi
    refine globRound_again ⟨starPi, starIi + 1, some (starPi, starIi + 1)⟩ ?_ ?_ ?_ hloop
    · rw [hround]
      simp [GlobState.back, Place.state, hmet]
    · refine ⟨hpi.le, by simp only; omega, ?_⟩
      rintro _ ⟨⟩
      exact ⟨hpi, le_rfl⟩
    · exact stepsLeft_back (Nat.lt_of_le_of_lt hle hii) ..

theorem globRound_bracket (ht : t.InRange pattern.bytes input.bytes)
    (hfuel : pattern.bytes.length < fuel) (hc : input.bytes[t.ii]? = some c)
    (hp : pattern.bytes[t.pi]? = some 91) (h91 : c ≠ 91) :
    (globProof pattern input).Round (globRound fuel pattern input) t := by
  have hpi := (List.getElem?_eq_some_iff.mp hp).1
  have hii := (List.getElem?_eq_some_iff.mp hc).1
  have := pattern.fits
  have := input.fits
  generalize hnegate : decide (pattern.bytes[t.pi + 1]? = some 94) = negate
  have hguard := pattern.holds_beq (i := t.pi + 1) (by omega) 94
  rw [hnegate] at hguard
  obtain ⟨start, hstart⟩ : ∃ n, (if negate then t.pi + 2 else t.pi + 1) = n := ⟨_, rfl⟩
  have hfirst : t.pi < start ∧ start ≤ pattern.bytes.length := by
    rw [← hstart]
    split
    · rename_i h
      rw [h, decide_eq_true_eq] at hnegate
      exact ⟨by omega, (List.getElem?_eq_some_iff.mp hnegate).1⟩
    · exact ⟨Nat.lt_succ_self _, hpi⟩
  obtain ⟨stop, hrun, hle, hscan⟩ := classLoop hc hfirst.2 hfuel
  rw [← hstart] at hrun hscan
  have hloop := globLoop_bracket hc hp h91 hnegate hscan
  generalize hnext : (if stop.1 < pattern.bytes.length then stop.1 + 1 else stop.1) = next at hloop
  have hround : globRound fuel pattern input t.state =
      if stop.2 = negate then .value (GlobState.back { t.state with pi := usize next })
      else .value (.inl { t.state with pi := usize next, ii := usize (t.ii + 1) }) := by
    have hlt : usize t.ii < input.len := (input.usize_lt_len (by omega)).mpr hii
    have hclass : Exit.loop (classRound pattern input (usize t.ii)) fuel
        (if negate = true then usize (t.pi + 1 + 1) else usize (t.pi + 1), false) =
          .value (usize stop.1, stop.2) := by
      rw [← hrun]
      cases negate <;> rfl
    have hplace : (if usize stop.1 < pattern.len then usize (stop.1 + 1) else usize stop.1) =
        usize next := by
      rw [← hnext, apply_ite usize]
      exact if_congr (pattern.usize_lt_len (by omega)) rfl rfl
    simp [globRound, Place.state, hlt, pattern.holds_of_some hp, input.get_of_some hc, Ne.symm h91,
      hguard, hclass, hplace]
  by_cases hmatched : stop.2 = negate
  · simp only [if_pos hmatched] at hround hloop
    exact globRound_back ht hii _ hround fun f => hloop f t.star
  · simp only [if_neg hmatched] at hround hloop
    have hforward : t.pi < next ∧ next ≤ pattern.bytes.length := by
      rw [← hnext]
      split <;> omega
    exact globRound_forward ht hii hforward hround fun f => hloop f t.star

/-- One round of the main loop: every read is in range. -/
theorem globRound_spec (hfuel : pattern.bytes.length < fuel) (t : Place)
    (ht : (globProof pattern input).Inv t) :
    (globProof pattern input).Round (globRound fuel pattern input) t := by
  have ht : t.InRange pattern.bytes input.bytes := ht
  have := pattern.fits
  have := input.fits
  have hple := ht.pi_le
  have hile := ht.ii_le
  cases hc : input.bytes[t.ii]? with
  | none =>
    have hge := List.getElem?_eq_none_iff.mp hc
    have hend : ¬ usize t.ii < input.len := mt (input.usize_lt_len (by omega)).mp (by omega)
    refine Or.inl ⟨some (usize t.pi), ?_, some t.pi, rfl, ?_, fun f hf => ?_⟩
    · simp [globRound, globProof, Place.state, hend]
    · rintro _ ⟨⟩
      exact ht.pi_le
    · obtain ⟨f, rfl⟩ : ∃ f', f = f' + 1 := ⟨f - 1, by omega⟩
      simp only [globLoop, hc]
      rfl
  | some c =>
    have hii := (List.getElem?_eq_some_iff.mp hc).1
    have hlt : usize t.ii < input.len := (input.usize_lt_len (by omega)).mpr hii
    have hread := input.get_of_some hc
    cases hp : pattern.bytes[t.pi]? with
    | none =>
      refine globRound_back ht hii (usize t.pi) ?_ fun f => globLoop_end hc hp f t.star
      simp [globRound, Place.state, hlt, pattern.holds_of_none (by omega) hp]
    | some p =>
      have hpi := (List.getElem?_eq_some_iff.mp hp).1
      have htest := pattern.holds_of_some hp
      by_cases htake : p = 63 ∨ p = c
      · refine globRound_forward ht hii ⟨Nat.lt_succ_self _, hpi⟩ ?_
          fun f => globLoop_take hc hp htake f t.star
        rcases htake with rfl | rfl <;> simp [globRound, Place.state, hlt, htest, hread]
      obtain ⟨hany, hbyte⟩ := not_or.mp htake
      by_cases hstar : p = 42
      · subst hstar
        refine globRound_again ⟨t.pi + 1, t.ii, some (t.pi, t.ii)⟩ ?_ ?_
          (stepsLeft_star hpi fun q hq => (ht.star q hq).2) fun f =>
            globLoop_star hc hp (Ne.symm hbyte) f t.star
        · simp [globRound, Place.state, hlt, htest, hread, hbyte]
        · refine ⟨hpi, hii.le, ?_⟩
          rintro _ ⟨⟩
          exact ⟨hpi, le_rfl⟩
      by_cases hbracket : p = 91
      · subst hbracket
        exact globRound_bracket ht hfuel hc hp (Ne.symm hbyte)
      · refine globRound_back ht hii (usize t.pi) ?_ fun f => ?_
        · simp [globRound, Place.state, hlt, htest, hread, hany, hbyte, hstar, hbracket]
        · rw [globLoop_byte hc hp hstar hbracket, if_neg htake]

/-! ## The stars at the end -/

/-- The loop passes all of the pattern exactly if only stars are left. -/
def trailProof (pattern : Slice) : LoopProof Nat UInt64 UInt64 where
  state := usize
  Inv p := p ≤ pattern.bytes.length
  variant p := pattern.bytes.length - p
  Right p a := (a == pattern.len) = (pattern.bytes.drop p).all (· = 42)

theorem trailRound_spec (p : Nat) (hp : (trailProof pattern).Inv p) :
    (trailProof pattern).Round (trailRound pattern) p := by
  have hp : p ≤ pattern.bytes.length := hp
  have := pattern.fits
  cases hx : pattern.bytes[p]? with
  | none =>
    have hend : p = pattern.bytes.length := le_antisymm hp (List.getElem?_eq_none_iff.mp hx)
    refine Or.inl ⟨usize p,
      by simp [trailRound, trailProof, pattern.holds_of_none (by omega) hx], ?_⟩
    simp [trailProof, hend, Slice.len]
  | some x =>
    have hlt := (List.getElem?_eq_some_iff.mp hx).1
    have hdrop := pattern.drop_of_some hx
    by_cases hstar : x = 42
    · refine Or.inr
        ⟨p + 1, by simp [trailRound, trailProof, pattern.holds_of_some hx, hstar], hlt, ?_, ?_⟩
      · exact Nat.sub_lt_sub_left hlt (Nat.lt_succ_self p)
      · intro a ha
        simpa [trailProof, hdrop, hstar] using ha
    · refine Or.inl ⟨usize p, by simp [trailRound, trailProof, pattern.holds_of_some hx, hstar], ?_⟩
      have hne : usize p ≠ pattern.len := by
        intro h
        have h := congrArg UInt64.toNat h
        rw [pattern.toNat_usize hp, pattern.toNat_len] at h
        omega
      simp [trailProof, hdrop, hstar, hne]

end Rounds

/-- For every pattern and every input the loops end, after `(input.len() + 1) * (pattern.len() + 1)`
rounds at most, and no read is out of range. -/
theorem globMatchStr_returns (pattern input : Slice) (fuel : Nat)
    (hfuel : (input.bytes.length + 1) * (pattern.bytes.length + 1) ≤ fuel) :
    globMatchStr fuel pattern input = .value (ShrikeDb.globMatchStr pattern.bytes input.bytes) := by
  have hleft : stepsLeft pattern.bytes input.bytes 0 none <
      (input.bytes.length + 1) * (pattern.bytes.length + 1) := by
    simp only [stepsLeft, Option.elim_none, Nat.succ_mul]
    omega
  have hrounds := Nat.lt_of_lt_of_le hleft hfuel
  have hlen : pattern.bytes.length < fuel := by
    simp only [stepsLeft] at hrounds
    omega
  obtain ⟨_, hrun, stop, rfl, hle, hstop⟩ :=
    (globProof pattern input).total (globRound_spec hlen) ⟨0, 0, none⟩
    ⟨Nat.zero_le _, Nat.zero_le _, by simp⟩ fuel hrounds
  have hmodel : ShrikeDb.globMatchStr pattern.bytes input.bytes =
      stop.elim false fun n => (pattern.bytes.drop n).all (· = 42) := by
    have hmore : (input.bytes.length + 1) * (pattern.bytes.length + 1) ≤
        (input.bytes.length + 1) * (input.bytes.length + pattern.bytes.length + 2) :=
      Nat.mul_le_mul_left _ (by omega)
    rw [ShrikeDb.globMatchStr, hstop _ (Nat.lt_succ_of_lt (Nat.lt_of_lt_of_le hleft hmore)),
      Option.getD_some]
  have hloop : Exit.loop (globRound fuel pattern input) fuel ⟨0, 0, usizeMax, 0⟩ =
      .value (stop.map usize) := hrun
  rw [globMatchStr, hloop, hmodel]
  cases stop with
  | none => rfl
  | some n =>
    obtain ⟨a, htrail, ha⟩ := (trailProof pattern).total trailRound_spec n (hle n rfl) fuel
      (Nat.lt_of_le_of_lt (Nat.sub_le ..) hlen)
    have htrail : Exit.loop (trailRound pattern) fuel (usize n) = .value a := htrail
    simp only [Option.map_some, Exit.value_bind, htrail, Exit.pure_eq_value, Option.elim_some]
    exact congrArg Exit.value ha

theorem length_danglingClass : (ascii "*[^a-").length < 100 := by decide

def danglingClass : Slice := .brief _ length_danglingClass

theorem length_bracketInput : (ascii "b*[-").length < 100 := by decide

def bracketInput : Slice := .brief _ length_bracketInput

theorem globMatchStr_returns_danglingClass :
    (4 + 1) * (5 + 1) ≤ 30 ∧ globMatchStr 30 danglingClass bracketInput = .value false := by
  have hreturns := globMatchStr_returns danglingClass bracketInput 30 (by decide)
  have hmodel : ShrikeDb.globMatchStr danglingClass.bytes bracketInput.bytes = false := by decide
  exact ⟨by decide, hreturns.trans (congrArg _ hmodel)⟩

end Indexed

end ShrikeDb
