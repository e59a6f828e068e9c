import Mathlib.Data.List.Basic

/-! Patterns of single-letter tests and stars over any alphabet. A star stands for any
word, also the empty one, so a matcher need remember only the last star it met: the
letters that the earlier ones could still take can be left to that one. -/

namespace Wildcard

variable {α : Type}

/-- `some f` takes one letter that passes `f`, `none` takes any word. -/
def Matches : List (Option (α → Bool)) → List α → Prop
  | [], s => s = []
  | none :: ts, s => ∃ n, Matches ts (s.drop n)
  | some f :: ts, s => ∃ c r, s = c :: r ∧ f c = true ∧ Matches ts r

variable {ts : List (Option (α → Bool))} {s : List α}

theorem matches_cons {f : α → Bool} {c : α} :
    Matches (some f :: ts) (c :: s) ↔ f c = true ∧ Matches ts s := by
  constructor
  · rintro ⟨_, _, ⟨⟩, hf, h⟩
    exact ⟨hf, h⟩
  · rintro ⟨hf, h⟩
    exact ⟨c, s, rfl, hf, h⟩

theorem not_matches_nil {f : α → Bool} : ¬ Matches (some f :: ts) [] := by
  rintro ⟨_, _, h, _⟩
  cases h

/-- Only stars match the empty word. -/
theorem matches_nil_iff : Matches ts [] ↔ ∀ t ∈ ts, t = none := by
  induction ts with
  | nil => simp [Matches]
  | cons t ts ih =>
    cases t with
    | none => simp [Matches, ih]
    | some f =>
      refine ⟨fun h => absurd h not_matches_nil, fun h => ?_⟩
      cases h _ List.mem_cons_self

/-- A star can take letters in front of what it takes. -/
theorem Matches.of_drop {n : Nat} (h : Matches (none :: ts) (s.drop n)) :
    Matches (none :: ts) s := by
  obtain ⟨m, h⟩ := h
  rw [List.drop_drop] at h
  exact ⟨n + m, h⟩

/-- Tests without a star between them take as many letters as there are tests. -/
theorem Matches.drop_length {seg : List (Option (α → Bool))} (hseg : none ∉ seg)
    (h : Matches (seg ++ ts) s) : Matches ts (s.drop seg.length) := by
  induction seg generalizing s with
  | nil => exact h
  | cons t seg ih =>
    cases t with
    | none => exact absurd List.mem_cons_self hseg
    | some f =>
      obtain ⟨c, r, rfl, _, h⟩ := h
      exact ih (fun hmem => hseg (List.mem_cons_of_mem _ hmem)) h

theorem Matches.length_eq (hts : none ∉ ts) (h : Matches ts s) : s.length = ts.length := by
  induction ts generalizing s with
  | nil => exact congrArg List.length h
  | cons t ts ih =>
    cases t with
    | none => exact absurd List.mem_cons_self hts
    | some f =>
      obtain ⟨c, r, rfl, _, h⟩ := h
      rw [List.length_cons, List.length_cons, ih (fun hmem => hts (List.mem_cons_of_mem _ hmem)) h]

/-- What an earlier start of the tests `seg` could still match, the star behind them matches. -/
theorem Matches.absorb {seg : List (Option (α → Bool))} (hseg : none ∉ seg) {i k : Nat}
    (hik : i ≤ k) (h : Matches (seg ++ none :: ts) (s.drop k)) :
    Matches (none :: ts) (s.drop (i + seg.length)) := by
  have hrest := h.drop_length hseg
  have hsplit : k + seg.length = (i + seg.length) + (k - i) := by omega
  rw [List.drop_drop, hsplit, ← List.drop_drop] at hrest
  exact hrest.of_drop

/-- A word that matches a pattern with a star can be continued in the pattern. -/
theorem Matches.pump {ts' : List (Option (α → Bool))} (h : Matches (ts ++ none :: ts') s) :
    ∃ w, ∀ r, Matches (ts ++ none :: ts') (s ++ (r ++ w)) := by
  induction ts generalizing s with
  | nil =>
    obtain ⟨n, h⟩ := h
    refine ⟨s.drop n, fun r => ⟨(s ++ r).length, ?_⟩⟩
    rw [← List.append_assoc, List.drop_left]
    exact h
  | cons t ts ih =>
    cases t with
    | none =>
      obtain ⟨n, h⟩ := h
      obtain ⟨w, hw⟩ := ih h
      refine ⟨w, fun r => ⟨min n s.length, ?_⟩⟩
      rw [List.drop_append_of_le_length (Nat.min_le_right ..)]
      have hmin : s.drop (min n s.length) = s.drop n := by
        rcases Nat.le_total n s.length with hn | hn
        · rw [Nat.min_eq_left hn]
        · rw [Nat.min_eq_right hn, List.drop_length, List.drop_eq_nil_of_le hn]
      rw [hmin]
      exact hw r
    | some f =>
      obtain ⟨c, s', rfl, hf, h⟩ := h
      obtain ⟨w, hw⟩ := ih h
      exact ⟨w, fun r => ⟨c, s' ++ (r ++ w), rfl, hf, hw r⟩⟩

end Wildcard
