import ShrikeDb.Dash.Scan

/-! `retain` with a predicate that keeps a state and rewrites values. The positions are
listed first and visited from the last to the first; a deletion in between clears one
position and leaves the items of all others where they are, so the predicate sees every
entry once and the entries it accepts stay in iteration order. -/

namespace ShrikeDb.Dash

namespace DashTable

open IndexedLists List

variable {K V : Type}

/-! ## The predicate -/

section Predicate

variable {σ : Type} (pred : σ → K → V → Bool × V × σ)

/-- `retain` with the state its predicate ends in. -/
def retainState (hash : K → UInt64) (t : DashTable K V) (st : σ) :
    Option (DashTable K V × Nat × σ) :=
  retainLoop pred t st 0 (t.hashedItems hash).reverse

/-- A predicate that keeps more in its state than another one, and answers alike, does the same. -/
theorem retainLoop_map {τ : Type} {pred' : τ → K → V → Bool × V × τ} {φ : τ → σ}
    (hφ : ∀ st k v, pred (φ st) k v =
      ((pred' st k v).1, (pred' st k v).2.1, φ (pred' st k v).2.2)) (t : DashTable K V) (st : τ)
    (removed : Nat) (l : List (Nat × SegmentPos × UInt64)) :
    retainLoop pred t (φ st) removed l =
      (retainLoop pred' t st removed l).map fun r => (r.1, r.2.1, φ r.2.2) := by
  induction l generalizing t st removed with
  | nil => rfl
  | cons e l ih =>
    obtain ⟨sid, pos, h⟩ := e
    simp only [retainLoop]
    split
    · split
      · exact ih ..
      · cases (((t.segments ⟨sid, _⟩).buckets pos.bucketIdx).item pos.slotIdx) with
        | none => rfl
        | some kv =>
          simp only [hφ]
          split
          · exact ih ..
          · cases Segment.delete _ pos h with
            | none => rfl
            | some r => exact ih ..
    · rfl

/-- One call: the next state, and the answer with the key and the value it left. -/
def answer (kv : K × V) (st : σ) : σ × (Bool × K × V) :=
  ((pred st kv.1 kv.2).2.2, (pred st kv.1 kv.2).1, kv.1, (pred st kv.1 kv.2).2.1)

/-- The answers for a list of entries that is visited from its end. -/
def answers (l : List (K × V)) (st : σ) : List (Bool × K × V) := (l.mapAccumr (answer pred) st).2

/-- The entries answered with true. -/
def accepted (l : List (Bool × K × V)) :
    List (K × V) := l.filterMap fun a => if a.1 then some a.2 else none

/-- The number of false answers. -/
def rejected (l : List (Bool × K × V)) : Nat := l.countP fun a => !a.1

theorem accepted_append (l l' : List (Bool × K × V)) :
    accepted (l ++ l') = accepted l ++ accepted l' :=
  filterMap_append

theorem rejected_append (l l' : List (Bool × K × V)) :
    rejected (l ++ l') = rejected l + rejected l' :=
  countP_append

/-- The predicate with a log of its calls, the latest first. -/
def logged : σ × List (K × V) → K → V → Bool × V × (σ × List (K × V)) := fun s k v =>
  ((pred s.1 k v).1, (pred s.1 k v).2.1, (pred s.1 k v).2.2, (k, v) :: s.2)

theorem answers_concat (l : List (K × V)) (kv : K × V) (st : σ) :
    answers pred (l ++ [kv]) st = answers pred l (answer pred kv st).1 ++
    [(answer pred kv st).2] := by
  rw [answers, mapAccumr_append]
  rfl

theorem mapAccumr_logged (l : List (K × V)) (st : σ) :
    l.mapAccumr (answer (logged pred)) (st, []) =
      (((l.mapAccumr (answer pred) st).1, l), (l.mapAccumr (answer pred) st).2) := by
  induction l with
  | nil => rfl
  | cons kv l ih =>
    rw [mapAccumr, ih]
    rfl

end Predicate

/-! ## The loop -/

variable {hash : K → UInt64}

/-- What `hashedItems` lists for a position. -/
def hashedAt (hash : K → UInt64) (t : DashTable K V) (p : Fin t.numSegments × SegmentPos) :
    Option (Nat × SegmentPos × UInt64) :=
  (t.itemAt p).map fun kv => (p.1.val, p.2, hash kv.1)

variable {t : DashTable K V}

theorem WF.hashedItems_filterMap (h : t.WF hash) : t.hashedItems hash =
    (finRange t.numSegments ×ˢ Segment.allPositions).filterMap (t.hashedAt hash) := by
  have hseg : ∀ sid, (t.segments sid).positions.filterMap (fun pos =>
      (((t.segments sid).buckets pos.bucketIdx).keys pos.slotIdx).map fun k =>
        (sid.val, pos, hash k)) =
      Segment.allPositions.filterMap fun pos => t.hashedAt hash (sid, pos) := by
    intro sid
    have hkey : ∀ pos : SegmentPos, ((t.segments sid).buckets pos.bucketIdx).keys pos.slotIdx =
        ((t.segments sid).item pos).map Prod.fst := fun pos => (h.initialised sid _).keys_eq_item _
    rw [Segment.positions_eq (h.initialised sid), filterMap_filter]
    refine filterMap_congr fun pos _ => ?_
    rw [hkey, hashedAt, itemAt]
    cases (t.segments sid).item pos <;> rfl
  simp only [SProd.sprod, product, filterMap_flatMap, filterMap_map]
  exact flatMap_congr fun sid _ => hseg sid

variable {σ : Type} (pred : σ → K → V → Bool × V × σ)

theorem retainLoop_cons (h : t.Exact hash) {sid : Fin t.numSegments} {pos : SegmentPos} {k : K}
    {v : V} (hi : t.itemAt (sid, pos) = some (k, v)) (st : σ) (removed : Nat) :
    ∃ segments size,
    (⟨t.numSegments, t.numSegments_pos, segments, size⟩ : DashTable K V).Exact hash ∧
      itemAt ⟨t.numSegments, t.numSegments_pos, segments, size⟩ =
        Function.update t.itemAt (sid, pos) (accepted [(answer pred (k, v) st).2]).head? ∧
      size + rejected [(answer pred (k, v) st).2] = t.size ∧
      ∀ l, retainLoop pred t st removed ((sid.val, pos, hash k) :: l) =
        retainLoop pred ⟨t.numSegments, t.numSegments_pos, segments, size⟩ (answer pred (k, v) st).1
          (removed + rejected [(answer pred (k, v) st).2]) l := by
  have hbusy := busy_of_item (h.segment sid).toBucketsWF hi
  have hi' : ((t.segments sid).buckets pos.bucketIdx).item pos.slotIdx = some (k, v) := hi
  rcases hp : pred st k v with ⟨keep, v', st'⟩
  have hanswer : answer pred (k, v) st = (st', keep, k, v') := by rw [answer, hp]
  rw [hanswer]
  cases keep with
  | true =>
    have hitem := Segment.setValue_item (h.segment sid).toBucketsWF hi v'
    refine ⟨_, t.size, h.setValue hi v', item_update_segment t hitem, rfl, fun l => ?_⟩
    simp only [retainLoop, sid.isLt, dif_pos, hbusy, hi', hp, Bool.true_eq_false, if_false, if_true]
    rfl
  | false =>
    obtain ⟨_, hpos, s', hdel, hexact, hitem⟩ := h.reject hi v'
    refine ⟨_, t.size - 1, hexact, item_update_segment t hitem, Nat.sub_add_cancel hpos,
      fun l => ?_⟩
    simp only [retainLoop, sid.isLt, dif_pos, hbusy, hi', hp, Bool.true_eq_false,
      Bool.false_eq_true, if_false, hdel]
    rfl

/-- The loop from the last position of `front` on. The positions behind it are done. -/
theorem retainLoop_iter {n : Nat} {hn : 0 < n} {segments : Fin n → Segment K V} {size : Nat}
    (h : (⟨n, hn, segments, size⟩ : DashTable K V).Exact hash) (st : σ) (removed : Nat)
    {front back : List (Fin n × SegmentPos)}
    (hall : front ++ back = finRange n ×ˢ Segment.allPositions) {l : List (K × V)}
    (hl : front.filterMap (itemAt ⟨n, hn, segments, size⟩) = l) :
    ∃ t', retainLoop pred ⟨n, hn, segments, size⟩ st removed
        (front.filterMap (hashedAt hash ⟨n, hn, segments, size⟩)).reverse =
        some (t', removed + rejected (answers pred l st), (l.mapAccumr (answer pred) st).1) ∧
      t'.Exact hash ∧ t'.size + rejected (answers pred l st) = size ∧
      t'.iter = accepted (answers pred l st) ++
      back.filterMap (itemAt ⟨n, hn, segments, size⟩) := by
  induction front using reverseRecOn generalizing segments size st removed back l with
  | nil =>
    subst hl
    refine ⟨⟨n, hn, segments, size⟩, rfl, h, rfl, ?_⟩
    rw [h.toWF.iter_filterMap, ← hall]
    rfl
  | append_singleton front p ih =>
    have hsplit : front ++ p :: back = finRange n ×ˢ Segment.allPositions := by
      rw [← hall, append_cons]
    have hnodup : (front ++ p :: back).Nodup := by
      rw [hsplit]
      exact (nodup_finRange _).product Segment.nodup_allPositions
    have hfront : p ∉ front := fun hp => (nodup_append.mp hnodup).2.2 p hp p mem_cons_self rfl
    have hback : p ∉ back := (nodup_cons.mp (nodup_append.mp hnodup).2.1).1
    rw [filterMap_append] at hl
    cases hi : itemAt ⟨n, hn, segments, size⟩ p with
    | none =>
      rw [filterMap_cons_none hi, filterMap_nil, append_nil] at hl
      obtain ⟨t', hrun, hexact, hsize, hiter⟩ := ih h st removed hsplit hl
      have hnone : hashedAt hash ⟨n, hn, segments, size⟩ p = none := by rw [hashedAt, hi]; rfl
      rw [filterMap_cons_none hi] at hiter
      refine ⟨t', ?_, hexact, hsize, hiter⟩
      rw [filterMap_append, filterMap_cons_none hnone, filterMap_nil, append_nil]
      exact hrun
    | some kv =>
      obtain ⟨sid, pos⟩ := p
      obtain ⟨k, v⟩ := kv
      obtain ⟨segments', size', hexact, hitem, hsize, hstep⟩ := retainLoop_cons pred h hi st removed
      rw [filterMap_cons_some hi, filterMap_nil] at hl
      subst hl
      have hrest : ∀ x ∈ front,
          itemAt ⟨n, hn, segments', size'⟩ x = itemAt ⟨n, hn, segments, size⟩ x := by
        intro x hx
        have hne : x ≠ (sid, pos) := fun e => hfront (e ▸ hx)
        rw [hitem, Function.update_of_ne hne]
      obtain ⟨t', hrun, hexact', hsize', hiter⟩ := ih hexact (answer pred (k, v) st).1
        (removed + rejected [(answer pred (k, v) st).2]) hsplit (filterMap_congr hrest)
      refine ⟨t', ?_, hexact', ?_, ?_⟩
      · have hlist : front.filterMap (hashedAt hash ⟨n, hn, segments', size'⟩) =
            front.filterMap (hashedAt hash ⟨n, hn, segments, size⟩) :=
          filterMap_congr fun x hx => by rw [hashedAt, hashedAt, hrest x hx]
        have hhead : hashedAt hash ⟨n, hn, segments, size⟩ (sid, pos) =
            some (sid.val, pos, hash k) := by
          rw [hashedAt, hi]
          rfl
        rw [filterMap_append, filterMap_cons_some hhead, filterMap_nil, reverse_concat,
          hstep, ← hlist, hrun, answers_concat, rejected_append, mapAccumr_append, ← Nat.add_assoc,
          Nat.add_right_comm]
        rfl
      · rw [answers_concat, rejected_append, ← Nat.add_assoc, hsize', hsize]
      · have hlast : (((sid, pos) :: back).filterMap (itemAt ⟨n, hn, segments', size'⟩)) =
            accepted [(answer pred (k, v) st).2] ++
            back.filterMap (itemAt ⟨n, hn, segments, size⟩) := by
          rw [hitem, filterMap_cons, Function.update_self, filterMap_update_of_notMem hback]
          cases hk : (answer pred (k, v) st).2.1 <;> simp [accepted, hk]
        rw [hiter, hlast, answers_concat, accepted_append, append_assoc]

theorem retainState_spec (h : t.Exact hash) (st : σ) :
    ∃ t', t.retainState pred hash st = some (t', rejected (answers pred t.iter st),
        (t.iter.mapAccumr (answer pred) st).1) ∧ t'.Exact hash ∧
      t'.size + rejected (answers pred t.iter st) = t.size ∧
      t'.iter = accepted (answers pred t.iter st) := by
  obtain ⟨t', hrun, hexact, hsize, hiter⟩ := retainLoop_iter pred h st 0 (append_nil _)
    h.toWF.iter_filterMap.symm
  rw [Nat.zero_add] at hrun
  rw [filterMap_nil, append_nil] at hiter
  refine ⟨t', ?_, hexact, hsize, hiter⟩
  rw [retainState, h.toWF.hashedItems_filterMap]
  exact hrun

/-- In every table a run leads to, the predicate is called once on each entry, from the last
one back, what stays is what it accepted, and the count returned is the number it rejected. -/
theorem retain_visits_once [DecidableEq K] (hash : K → UInt64) (t : DashTable K V)
    (h : Reached hash t) (st : σ) : ∃ t' n, t.retain hash pred st = some (t', n) ∧
      t.retainState (logged pred) hash (st, []) =
        some (t', n, (t.iter.mapAccumr (answer pred) st).1, t.iter) ∧
      t'.iter = accepted (answers pred t.iter st) ∧
      n = rejected (answers pred t.iter st) ∧ t'.len + n = t.len := by
  obtain ⟨t', hrun, _, hsize, hiter⟩ := retainState_spec (logged pred) h.exact (st, [])
  have hanswers : answers (logged pred) t.iter (st, []) = answers pred t.iter st := by
    rw [answers, mapAccumr_logged]
    rfl
  rw [hanswers] at hrun hsize hiter
  rw [mapAccumr_logged] at hrun
  refine ⟨t', rejected (answers pred t.iter st), ?_, hrun, hiter, rfl, hsize⟩
  have hlogged : ∀ (s : σ × List (K × V)) (k : K) (v : V), pred s.1 k v =
      ((logged pred s k v).1, (logged pred s k v).2.1, (logged pred s k v).2.2.1) :=
    fun _ _ _ => rfl
  have hplain : t.retainState pred hash st =
      (t.retainState (logged pred) hash (st, [])).map fun r => (r.1, r.2.1, r.2.2.1) :=
    retainLoop_map pred hlogged t (st, []) 0 _
  rw [retain, ← retainState, hplain, hrun]
  rfl

/-- A predicate that rejects every second entry it sees and doubles the values. -/
theorem retain_visits_once_three : ∃ t t' : DashTable Nat Nat, Reached UInt64.ofNat t ∧
    t.iter = [(1, 10), (2, 20), (3, 30)] ∧
    t.retain UInt64.ofNat (fun (b : Bool) _ v => (b, 2 * v, !b)) true = some (t', 1) ∧
    t.retainState (logged fun (b : Bool) _ v => (b, 2 * v, !b)) UInt64.ofNat (true, []) =
      some (t', 1, false, [(1, 10), (2, 20), (3, 30)]) ∧
    t'.iter = [(1, 20), (3, 60)] ∧ t'.len + 1 = t.len := by
  have hrun : ((((withHasher : DashTable Nat Nat).insert UInt64.ofNat 1 10).bind fun r =>
      r.1.insert UInt64.ofNat 2 20).bind fun r => r.1.insert UInt64.ofNat 3 30).map
      (fun r => r.1.iter) = some [(1, 10), (2, 20), (3, 30)] := by decide
  obtain ⟨⟨t, old⟩, hrun, hitems⟩ := Option.map_eq_some_iff.mp hrun
  obtain ⟨⟨t2, old2⟩, hrun, hins3⟩ := Option.bind_eq_some_iff.mp hrun
  obtain ⟨⟨t1, old1⟩, hins, hins2⟩ := Option.bind_eq_some_iff.mp hrun
  have hreached := ((Reached.new.insert hins).insert hins2).insert hins3
  obtain ⟨t', n, hret, hlog, hiter, hn, hlen⟩ :=
    retain_visits_once (fun (b : Bool) _ v => (b, 2 * v, !b)) UInt64.ofNat t hreached true
  have hitems' : t.iter = [(1, 10), (2, 20), (3, 30)] := hitems
  rw [hitems'] at hlog hiter hn
  subst hn
  exact ⟨t, t', hreached, hitems', hret, hlog, hiter, hlen⟩

end DashTable

end ShrikeDb.Dash
