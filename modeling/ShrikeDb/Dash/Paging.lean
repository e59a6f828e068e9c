import Mathlib.Algebra.BigOperators.Group.Finset.Basic
import ShrikeDb.Dash.Scan

/-! Paging through a table that does not change. The pages are slices of the iteration one
after another, as long as the index of a page and its size do not add up to more than a
`usize` holds: the sum wraps, and the slice would end before it starts. -/

namespace ShrikeDb.Dash.DashTable

variable {K V : Type}

/-- The pages from a cursor on, one for each size, until a cursor says that it is done. -/
def pages (t : DashTable K V) (cursor : Cursor) :
    List UInt64 → Option (List (List (K × V)) × Cursor)
  | [] => some ([], cursor)
  | count :: counts =>
    (t.scan cursor count).bind fun (page, next) =>
      if next.isDone then some ([page], next)
      else (t.pages next counts).map fun (rest, last) => (page :: rest, last)

/-- Where the page after the first `j` starts. -/
def offset (sizes : Nat → UInt64) (j : Nat) : Nat := ∑ i ∈ Finset.range j, (sizes i).toNat

/-- Pages of these sizes come to an end without a panic, in at most as many calls as there are
entries, or one, and are the iteration. -/
def PagesComplete (t : DashTable K V) (sizes : Nat → UInt64) : Prop :=
  ∃ ps : List (List (K × V)), 0 < ps.length ∧ ps.length ≤ max 1 t.iter.length ∧
    t.pages .done ((List.range ps.length).map sizes) = some (ps, .done) ∧ ps.flatten = t.iter

theorem offset_succ (sizes : Nat → UInt64) (j : Nat) :
    offset sizes (j + 1) = (sizes 0).toNat + offset (fun i => sizes (i + 1)) j := by
  rw [offset, Finset.sum_range_succ', Nat.add_comm]
  rfl

variable {t : DashTable K V} {s : Nat} {count : UInt64}

theorem toNat_index (h : s < 2 ^ 64) : (UInt64.ofNat s).toNat = s :=
  UInt64.toNat_ofNat_of_lt' h

theorem scan_last (hs : s < t.iter.length) (hle : t.iter.length ≤ s + count.toNat)
    (hadd : s + count.toNat < 2 ^ 64) :
    t.scan ⟨UInt64.ofNat s⟩ count = some (t.iter.drop s, .done) := by
  have hval := toNat_index (s := s) (by omega)
  have hsum : (UInt64.ofNat s + count).toNat = s + count.toNat := by
    rw [UInt64.toNat_add, hval, Nat.mod_eq_of_lt hadd]
  simp only [scan, hval, hsum]
  rw [if_neg (by omega), if_neg (by omega), if_pos (by omega), List.take_of_length_le]
  rw [List.length_drop]
  omega

theorem scan_more (hfit : t.iter.length < 2 ^ 64) (hlt : s + count.toNat < t.iter.length) :
    t.scan ⟨UInt64.ofNat s⟩ count =
      some ((t.iter.drop s).take count.toNat, ⟨UInt64.ofNat (s + count.toNat)⟩) := by
  have hval := toNat_index (s := s) (by omega)
  have hsum : (UInt64.ofNat s + count).toNat = s + count.toNat := by
    rw [UInt64.toNat_add, hval, Nat.mod_eq_of_lt (by omega)]
  simp only [scan, hval, hsum]
  rw [if_neg (by omega), if_neg (by omega), if_neg (by omega), Nat.min_eq_left (by omega),
    Nat.add_sub_cancel_left]

theorem scan_wraps (hfit : t.iter.length < 2 ^ 64) (hs : s < t.iter.length)
    (hadd : 2 ^ 64 ≤ s + count.toNat) : t.scan ⟨UInt64.ofNat s⟩ count = none := by
  have hval := toNat_index (s := s) (by omega)
  have hcount := count.toNat_lt
  have hsum : (UInt64.ofNat s + count).toNat = s + count.toNat - 2 ^ 64 := by
    rw [UInt64.toNat_add, hval]
    omega
  simp only [scan, hval, hsum]
  rw [if_neg (by omega), if_pos (by omega)]

theorem not_isDone (hfit : s < 2 ^ 64) (hs : 0 < s) : Cursor.isDone ⟨UInt64.ofNat s⟩ = false := by
  have hval := toNat_index (s := s) (by omega)
  rw [Cursor.isDone, beq_eq_false_iff_ne, ne_eq, ← UInt64.toNat_inj, hval]
  exact hs.ne'

theorem pages_nil_ne {ps : List (List (K × V))} (hfit : s < 2 ^ 64) (hs : 0 < s) :
    t.pages ⟨UInt64.ofNat s⟩ [] ≠ some (ps, .done) := by
  intro h
  have hdone := not_isDone hfit hs
  rw [(Prod.mk.inj (Option.some.inj h)).2] at hdone
  exact Bool.noConfusion hdone

variable {counts : List UInt64}

theorem pages_last (hs : s < t.iter.length) (hle : t.iter.length ≤ s + count.toNat)
    (hadd : s + count.toNat < 2 ^ 64) :
    t.pages ⟨UInt64.ofNat s⟩ (count :: counts) = some ([t.iter.drop s], .done) := by
  rw [pages, scan_last hs hle hadd]
  rfl

theorem pages_more (hfit : t.iter.length < 2 ^ 64) (hpos : 0 < count.toNat)
    (hlt : s + count.toNat < t.iter.length) :
    t.pages ⟨UInt64.ofNat s⟩ (count :: counts) =
      (t.pages ⟨UInt64.ofNat (s + count.toNat)⟩ counts).map
        fun (rest, last) => ((t.iter.drop s).take count.toNat :: rest, last) := by
  rw [pages, scan_more hfit hlt, Option.bind_some]
  exact if_neg (Bool.eq_false_iff.mp (not_isDone (by omega) (by omega)))

theorem pages_wraps (hfit : t.iter.length < 2 ^ 64) (hs : s < t.iter.length)
    (hadd : 2 ^ 64 ≤ s + count.toNat) : t.pages ⟨UInt64.ofNat s⟩ (count :: counts) = none := by
  rw [pages, scan_wraps hfit hs hadd]
  rfl

variable {sizes : Nat → UInt64}

/-- The first `k` sizes, with the first of them in front. -/
theorem range_sizes (sizes : Nat → UInt64) (k : Nat) :
    (List.range (k + 1)).map sizes = sizes 0 :: (List.range k).map fun i => sizes (i + 1) := by
  rw [List.range_succ_eq_map, List.map_cons, List.map_map]
  rfl

/-- From an index on the pages are what is left of the iteration. -/
theorem pages_complete (hfit : t.iter.length < 2 ^ 64) (hs : s < t.iter.length)
    (hpos : ∀ j, 0 < (sizes j).toNat)
    (hadd : ∀ j, s + offset sizes j < t.iter.length →
      s + offset sizes j + (sizes j).toNat < 2 ^ 64) :
    ∃ ps : List (List (K × V)), 0 < ps.length ∧ ps.length ≤ t.iter.length - s ∧
      t.pages ⟨UInt64.ofNat s⟩ ((List.range ps.length).map sizes) = some (ps, .done) ∧
      ps.flatten = t.iter.drop s := by
  -- every page brings the end of the iteration closer
  induction hleft : t.iter.length - s using Nat.strong_induction_on generalizing s sizes with
  | _ left ih =>
    subst hleft
    have hfirst : s + (sizes 0).toNat < 2 ^ 64 := hadd 0 hs
    by_cases hend : t.iter.length ≤ s + (sizes 0).toNat
    · refine ⟨[t.iter.drop s], Nat.one_pos, ?_, ?_, List.append_nil _⟩
      · change 1 ≤ _
        omega
      · exact pages_last hs hend hfirst
    · have hlt := Nat.not_le.mp hend
      have hone := hpos 0
      have hrest : ∀ j, s + (sizes 0).toNat + offset (fun i => sizes (i + 1)) j < t.iter.length →
          s + (sizes 0).toNat + offset (fun i => sizes (i + 1)) j + (sizes (j + 1)).toNat <
          2 ^ 64 := by
        intro j
        rw [Nat.add_assoc s, ← offset_succ]
        exact hadd (j + 1)
      obtain ⟨ps, hps, hlen, hpages, hflat⟩ := ih _ (by omega) hlt (fun j => hpos (j + 1)) hrest rfl
      refine ⟨(t.iter.drop s).take (sizes 0).toNat :: ps, Nat.succ_pos _, ?_, ?_, ?_⟩
      · rw [List.length_cons]
        omega
      · rw [List.length_cons, range_sizes, pages_more hfit hone hlt, hpages]
        rfl
      · rw [List.flatten_cons, hflat, ← List.drop_drop, List.take_append_drop]

/-- A page that wraps is not survived. -/
theorem pages_panic (hfit : t.iter.length < 2 ^ 64) (hpos : ∀ j, 0 < (sizes j).toNat) {j : Nat}
    (hj : s + offset sizes j < t.iter.length) (hadd : 2 ^ 64 ≤ s + offset sizes j + (sizes j).toNat)
    {ps : List (List (K × V))} (hps : 0 < s ∨ 0 < ps.length) :
    t.pages ⟨UInt64.ofNat s⟩ ((List.range ps.length).map sizes) ≠ some (ps, .done) := by
  -- the pages before the one that wraps leave a cursor that is not done
  induction j generalizing s sizes ps with
  | zero =>
    have hs : s < t.iter.length := hj
    cases ps with
    | nil => exact pages_nil_ne (by omega) (by simpa using hps)
    | cons p ps =>
      rw [List.length_cons, range_sizes, pages_wraps hfit hs hadd]
      rintro ⟨⟩
  | succ j ih =>
    rw [offset_succ] at hj hadd
    cases ps with
    | nil => exact pages_nil_ne (by omega) (by simpa using hps)
    | cons p ps =>
      have hone := hpos 0
      rw [List.length_cons, range_sizes, pages_more hfit hone (by omega)]
      intro h
      obtain ⟨⟨rest, last⟩, hrest, heq⟩ := Option.map_eq_some_iff.mp h
      obtain ⟨hcons, rfl⟩ := Prod.mk.inj heq
      obtain ⟨-, rfl⟩ := List.cons.inj hcons
      exact ih (fun i => hpos (i + 1)) (by omega) (by omega) (.inl (by omega)) hrest

theorem pages_empty (h : t.iter = []) (counts : List UInt64) :
    t.pages .done (count :: counts) = some ([[]], .done) := by
  have hscan : t.scan .done count = some ([], .done) := by
    rw [scan, h]
    rfl
  rw [pages, hscan]
  rfl

/-- Pages of any sizes end in time, panic nowhere and are the iteration exactly when no page
that starts inside the iteration wraps. -/
theorem paging_complete_iff (hfit : t.iter.length < 2 ^ 64) (hpos : ∀ j, 0 < (sizes j).toNat) :
    (t.PagesComplete sizes ↔ ∀ j, offset sizes j < t.iter.length →
      offset sizes j + (sizes j).toNat < 2 ^ 64) ∧
      ∀ hash, t.WF hash → t.iter.length = t.size := by
  refine ⟨⟨?_, fun hadd => ?_⟩, fun hash hwf => ?_⟩
  · rintro ⟨ps, hps, -, hpages, -⟩ j hj
    by_contra hwraps
    refine pages_panic (s := 0) hfit hpos (j := j) ?_ ?_ (.inr hps) hpages
    · rwa [Nat.zero_add]
    · rw [Nat.zero_add]
      exact Nat.not_lt.mp hwraps
  · rcases Nat.eq_zero_or_pos t.iter.length with hempty | hne
    · have hnil := List.length_eq_zero_iff.mp hempty
      exact ⟨[[]], Nat.one_pos, Nat.le_max_left _ _, pages_empty hnil [], hnil.symm⟩
    · obtain ⟨ps, hps, hlen, hpages, hflat⟩ :=
        pages_complete (s := 0) hfit hne hpos (by simpa only [Nat.zero_add] using hadd)
      exact ⟨ps, hps, hlen.trans (Nat.le_max_right _ _), hpages, hflat⟩
  · rw [hwf.size, ← hwf.iter_eq, Multiset.coe_card]

theorem twoEntries :
    ∃ t : DashTable Nat Nat, Reached UInt64.ofNat t ∧ t.iter = [(1, 10), (2, 20)] := by
  have hrun : (((withHasher : DashTable Nat Nat).insert UInt64.ofNat 1 10).bind fun r =>
      r.1.insert UInt64.ofNat 2 20).map (fun r => r.1.iter) = some [(1, 10), (2, 20)] := by decide
  obtain ⟨⟨t, old⟩, ht, hiter⟩ := Option.map_eq_some_iff.mp hrun
  obtain ⟨⟨t₁, old₁⟩, h₁, h₂⟩ := Option.bind_eq_some_iff.mp ht
  exact ⟨t, (Reached.new.insert h₁).insert h₂, hiter⟩

/-- Two entries, one by one. -/
theorem paging_complete_ones : ∃ t : DashTable Nat Nat,
    t.iter = [(1, 10), (2, 20)] ∧ t.PagesComplete fun _ => 1 := by
  obtain ⟨t, -, hiter⟩ := twoEntries
  have hlen : t.iter.length = 2 := by rw [hiter]; rfl
  refine ⟨t, hiter, (paging_complete_iff (by omega) fun _ => by decide).1.mpr fun j hj => ?_⟩
  change _ + 1 < _
  omega

/-- Two entries, the second asked for with the largest `COUNT`. -/
theorem largest_count_panics :
    ∃ (t : DashTable Nat Nat) (sizes : Nat → UInt64), Reached UInt64.ofNat t ∧
    (∀ j, 0 < (sizes j).toNat) ∧ t.scan .done (sizes 0) = some ([(1, 10)], ⟨1⟩) ∧
      t.scan ⟨1⟩ (sizes 1) = none ∧ ¬t.PagesComplete sizes := by
  obtain ⟨t, ht, hiter⟩ := twoEntries
  have hlen : t.iter.length = 2 := by rw [hiter]; rfl
  let sizes : Nat → UInt64 := fun j => if j = 0 then 1 else -1
  have hpos : ∀ j, 0 < (sizes j).toNat := by
    intro j
    by_cases hj : j = 0
    · rw [show sizes j = 1 from if_pos hj]
      decide
    · rw [show sizes j = -1 from if_neg hj]
      decide
  refine ⟨t, sizes, ht, hpos, ?_, scan_wraps (s := 1) (by omega) (by omega) (by decide), ?_⟩
  · rw [scan, hiter]
    rfl
  · rintro ⟨ps, hps, -, hpages, -⟩
    exact pages_panic (s := 0) (j := 1) (by omega) hpos (by rw [hlen]; decide) (by decide)
      (.inr hps) hpages

end ShrikeDb.Dash.DashTable
