import ShrikeDb.Server.Cells

/-! The expire table never holds a deadline for a key that is not in the prime table,
whatever is done to the databases and in whatever order. A key that is created is
therefore created without a deadline. The active sweep removes lapsed keys from both tables,
but looks at the beginning of the expire table only. -/

namespace ShrikeDb

open Function

variable {F : Type}

/-! ## What can happen to the databases -/

inductive SliceStep (F : Type)
  | updateTime (now : UInt64)
  | operation (o : DbOp F)
  | expireSweep (i : DbIndex) (count : Nat)

variable (ω : Listing Bytes)

def SliceStep.apply : SliceStep F → DbSlice F → DbSlice F
  | .updateTime now, s => s.updateTime now
  | .operation o, s => (o.apply ω s).2
  | .expireSweep i count, s => (s.expireSweep ω i count).2

/-- The databases after a sequence of steps; each iterates the tables in an order of
its own. -/
def DbSlice.after (s : DbSlice F) (steps : List (SliceStep F × Listing Bytes)) : DbSlice F :=
  steps.foldl (fun s step => step.1.apply step.2 s) s

/-! ## Cells -/

/-- There is no deadline without a value. -/
def Cell.Tidy (c : Cell F) : Prop := c.2.isSome = true → c.1.isSome = true

namespace Cell

theorem tidy_empty : (empty : Cell F).Tidy := fun h => nomatch h

theorem Tidy.live {c : Cell F} (h : c.Tidy) (now : UInt64) : (c.live now).Tidy := by
  rcases c.live_cases now with ⟨_, he⟩ | ⟨_, he⟩ <;> rw [he]
  · exact tidy_empty
  · exact h

theorem tidy_update {f : Addr → Cell F} (h : ∀ b, (f b).Tidy) {c : Cell F} (hc : c.Tidy)
    (a : Addr) : ∀ b, (update f a c b).Tidy :=
  (forall_update_iff f fun _ c => c.Tidy).mpr ⟨hc, fun b _ => h b⟩

/-- What is absent has no deadline. -/
theorem Tidy.snd_eq_none {c : Cell F} (h : c.Tidy) (hc : c.1 = none) : c.2 = none := by
  cases hd : c.2 with
  | none => rfl
  | some d =>
    have hsome := h (by rw [hd]; rfl)
    rw [hc] at hsome
    cases hsome

end Cell

/-- An operation on one cell keeps it tidy. -/
theorem DbOp.onCell_tidy (now : UInt64) (o : DbOp F) {c : Cell F} (h : c.Tidy) :
    (o.onCell now c).Tidy := by
  cases o with
  | find i key => exact h.live now
  | findMut i key => exact h.live now
  | store i key value =>
    rw [DbOp.onCell]
    split
    · exact fun _ => rfl
    · exact h
  | addOrUpdate i key value => exact fun _ => rfl
  | addIfAbsent i key value =>
    rw [DbOp.onCell]
    split
    · exact h.live now
    · exact fun _ => rfl
  | del i key => exact Cell.tidy_empty
  | addExpire i key deadline =>
    rw [DbOp.onCell]
    split
    · rename_i hsome
      exact fun _ => hsome
    · exact h
  | removeExpire i key => exact fun hd => absurd hd Bool.false_ne_true
  | ttlMs i key =>
    rw [DbOp.onCell]
    split
    · exact h.live now
    · exact h
  | _ => exact h

/-! ## Steps and runs -/

/-- Every deadline belongs to a key that is there. -/
def DbSlice.Tidy (s : DbSlice F) : Prop := ∀ a, (s.cell a).Tidy

namespace DbSlice.Tidy

variable {s s' : DbSlice F}

theorem update (h : s.Tidy) {a : Addr} {c : Cell F} (hc : c.Tidy)
    (hs : s'.cell = update s.cell a c) : s'.Tidy := by
  rw [Tidy, hs]
  exact Cell.tidy_update h hc a

theorem purges (h : s.Tidy) (hp : Purges s s') : s'.Tidy := by
  intro a
  rcases hp.cell a with heq | ⟨_, heq⟩ <;> rw [heq]
  · exact h a
  · exact Cell.tidy_empty

theorem rename (h : s.Tidy) (i : DbIndex) (source dest : Bytes) :
    (s.rename i source dest).2.Tidy := by
  cases hv : (s.cell (i, source)).1 with
  | none => exact h.update Cell.tidy_empty (s.rename_none i dest hv).2.1
  | some value =>
    rw [Tidy, (s.rename_some i dest hv).2.1]
    exact Cell.tidy_update (Cell.tidy_update h Cell.tidy_empty _) (fun _ => rfl) _

theorem operation (h : s.Tidy) (ω : Listing Bytes) (o : DbOp F) : (o.apply ω s).2.Tidy := by
  cases ht : o.target with
  | some a => exact h.update (o.onCell_tidy s.nowMs (h a)) (DbOp.apply_target ht ω s).2.1
  | none =>
    cases o with
    | rename i source dest => exact h.rename i source dest
    | keys i pattern => exact h.purges (s.purges_keys i ω pattern)
    | flushDb i =>
      intro a
      change ((s.flushDb i).cell a).Tidy
      rw [s.cell_flushDb]
      split
      · exact Cell.tidy_empty
      · exact h a
    | nowMs | dbSize | scan | randomEntry | select => exact h
    | _ => cases ht

/-- The step lemma. -/
theorem step (h : s.Tidy) (ω : Listing Bytes) (step : SliceStep F) : (step.apply ω s).Tidy := by
  cases step with
  | updateTime now => exact h
  | operation o => exact h.operation ω o
  | expireSweep i count => exact h.purges (s.purges_expireSweep i ω count)

/-- The run lemma. -/
theorem after (h : s.Tidy) (steps : List (SliceStep F × Listing Bytes)) : (s.after steps).Tidy := by
  induction steps generalizing s with
  | nil => exact h
  | cons p steps ih => exact ih (h.step p.2 p.1)

end DbSlice.Tidy

theorem DbSlice.tidy_new : (new : DbSlice F).Tidy := fun _ => Cell.tidy_empty

/-! ## Created keys -/

/-- The deadline a step brings along for a key: a rename moves that of the source. -/
def SliceStep.carried (s : DbSlice F) (a : Addr) : SliceStep F → Option UInt64
  | .operation (.rename i source dest) => if a = (i, dest) then (s.cell (i, source)).2 else none
  | _ => none

theorem DbOp.onCell_empty (now : UInt64) (o : DbOp F) : (o.onCell now Cell.empty).2 = none := by
  cases o <;> rfl

variable {s : DbSlice F}

/-- A key that was absent and is there after an operation has the deadline the operation
brought along, and no other. -/
theorem DbSlice.Tidy.created_operation (h : s.Tidy) (ω : Listing Bytes) (o : DbOp F) {a : Addr}
    (habsent : (s.cell a).1 = none) (hcreated : ((o.apply ω s).2.cell a).1.isSome = true) :
    ((o.apply ω s).2.cell a).2 = (SliceStep.operation o).carried s a := by
  have hempty : s.cell a = Cell.empty := Prod.ext habsent ((h a).snd_eq_none habsent)
  have hnew : (o.apply ω s).2.cell a ≠ Cell.empty := by
    intro heq
    rw [heq] at hcreated
    cases hcreated
  cases ht : o.target with
  | some b =>
    have hcell := (DbOp.apply_target ht ω s).2.1
    by_cases hab : a = b
    · subst hab
      rw [hcell, update_self, hempty, DbOp.onCell_empty]
      cases o with
      | rename => cases ht
      | _ => rfl
    · rw [hcell, update_of_ne hab] at hnew
      exact absurd hempty hnew
  | none =>
    cases o with
    | rename i source dest =>
      cases hv : (s.cell (i, source)).1 with
      | none =>
        have hcell : ((s.rename i source dest).2).cell a = Cell.empty := by
          rw [(s.rename_none i dest hv).2.1, update_apply, hempty, ite_self]
        exact absurd hcell hnew
      | some value =>
        have hcell : ((s.rename i source dest).2).cell a =
            if a = (i, dest) then (some value, (s.cell (i, source)).2) else Cell.empty := by
          rw [(s.rename_some i dest hv).2.1, update_apply, update_apply, hempty, ite_self]
        rw [SliceStep.carried]
        by_cases ha : a = (i, dest)
        · rw [if_pos ha] at hcell ⊢
          exact (congrArg Prod.snd hcell :)
        · rw [if_neg ha] at hcell
          exact absurd hcell hnew
    | keys i pattern =>
      rcases (s.purges_keys i ω pattern).cell a with heq | ⟨_, heq⟩
      · exact absurd (heq.trans hempty) hnew
      · exact absurd heq hnew
    | flushDb i =>
      have hcell : (s.flushDb i).cell a = Cell.empty := by
        rw [s.cell_flushDb, hempty, ite_self]
      exact absurd hcell hnew
    | nowMs | dbSize | scan | randomEntry | select => exact absurd hempty hnew
    | _ => cases ht

theorem DbSlice.Tidy.created (h : s.Tidy) (ω : Listing Bytes) (step : SliceStep F) {a : Addr}
    (habsent : (s.cell a).1 = none) (hcreated : ((step.apply ω s).cell a).1.isSome = true) :
    ((step.apply ω s).cell a).2 = step.carried s a := by
  cases step with
  | operation o => exact h.created_operation ω o habsent hcreated
  | updateTime now => exact (h a).snd_eq_none habsent
  | expireSweep i count =>
    rcases (s.purges_expireSweep i ω count).cell a with heq | ⟨_, heq⟩
    · exact (congrArg Prod.snd heq).trans ((h a).snd_eq_none habsent)
    · exact congrArg Prod.snd heq

/-- `add_if_absent` creates without a deadline also where it found a key that had
lapsed. -/
theorem DbSlice.Tidy.added (h : s.Tidy) {i : DbIndex} {key : Bytes} {value : PrimeValue F}
    (hadded : (s.addIfAbsent i key value).1 = true) :
    ((s.addIfAbsent i key value).2.cell (i, key)).2 = none := by
  obtain ⟨hanswer, hcell, -⟩ := s.addIfAbsent_spec i key value
  have hnone : ((s.cell (i, key)).live s.nowMs).1 = none :=
    Option.isNone_iff_eq_none.mp (hanswer.symm.trans hadded)
  rw [hcell, update_self, DbOp.onCell, hnone]
  exact ((h (i, key)).live s.nowMs).snd_eq_none hnone

/-- In every state of the databases that can be reached, every key of an expire table is
a key of the prime table, and whatever comes next, a key that is created while it is
absent has no deadline, or the one that was renamed along with it. -/
theorem deadlines_never_outlive_keys (steps : List (SliceStep F × Listing Bytes)) :
    let s := (DbSlice.new : DbSlice F).after steps
    (∀ i key, key ∈ (s.dbs i).expire → key ∈ (s.dbs i).prime) ∧
      (∀ ω (step : SliceStep F) i key, key ∉ (s.dbs i).prime →
        key ∈ ((step.apply ω s).dbs i).prime →
          ((step.apply ω s).dbs i).expire.lookup key = step.carried s (i, key)) ∧
      ∀ i key value, (s.addIfAbsent i key value).1 = true →
        ((s.addIfAbsent i key value).2.dbs i).expire.lookup key = none := by
  intro s
  have h : s.Tidy := DbSlice.tidy_new.after steps
  refine ⟨fun i key hkey => ?_, fun ω step i key habsent hcreated => ?_, fun i key value => h.added⟩
  · exact Finmap.lookup_isSome.mp (h (i, key) (Finmap.lookup_isSome.mpr hkey))
  · have hnone : (s.cell (i, key)).1 = none := Finmap.lookup_eq_none.mpr habsent
    exact h.created ω step hnone (Finmap.lookup_isSome.mpr hcreated)

/-! ## The active sweep -/

namespace DbSlice

/-- What a sweep of a database should return and leave: some keys are gone from both tables,
all of them lapsed, their number is returned, and it is 0 only when nothing has lapsed. -/
structure Swept (s : DbSlice F) (i : DbIndex) (removed : Nat) (s' : DbSlice F) : Prop where
  nowMs : s'.nowMs = s.nowMs
  gone : ∃ keys : Finset Bytes, keys.card = removed ∧
    (∀ k ∈ keys, k ∈ (s.dbs i).prime ∧
      ∃ deadline, (s.dbs i).expire.lookup k = some deadline ∧ deadline ≤ s.nowMs) ∧
    ∀ a : Addr, s'.cell a = if a.1 = i ∧ a.2 ∈ keys then Cell.empty else s.cell a
  progress : removed = 0 → ∀ k deadline, (s.dbs i).expire.lookup k = some deadline →
    s.nowMs < deadline

variable {s : DbSlice F} {i : DbIndex}

theorem lapsed_iff {k : Bytes} : (s.dbs i).lapsed s.nowMs k = true ↔
    ∃ deadline, (s.dbs i).expire.lookup k = some deadline ∧ deadline ≤ s.nowMs := by
  rw [DbTable.lapsed]
  cases (s.dbs i).expire.lookup k with
  | none => simp
  | some deadline => simp

/-- The keys a sweep finds lapsed. -/
def sweepPage (s : DbSlice F) (ω : Listing Bytes) (i : DbIndex) (count : Nat) : List Bytes :=
  ((ω.list (s.dbs i).expire.keys).take count).filter ((s.dbs i).lapsed s.nowMs)

theorem sweepPage_nodup (count : Nat) : (s.sweepPage ω i count).Nodup :=
  ((ω.nodup _).sublist (List.take_sublist _ _)).filter _

theorem cell_expireSweep (count : Nat) (a : Addr) :
    (s.expireSweep ω i count).2.cell a =
      if a.1 = i ∧ a.2 ∈ (s.sweepPage ω i count).toFinset then Cell.empty else s.cell a := by
  obtain ⟨j, k⟩ := a
  by_cases hj : j = i
  · subst hj
    rw [expireSweep, cell_setDb_self, DbTable.cell_foldl_forget]
    simp only [true_and, List.mem_toFinset]
    rfl
  · rw [if_neg fun h => hj h.1]
    exact cell_setDb_ne s _ hj

/-- A sweep does what it should exactly when nothing has lapsed or something that has is among
the first entries of the expire table, as many as are looked at. -/
theorem expireSweep_swept_iff (s : DbSlice F) (i : DbIndex)
    (hsub : ∀ k ∈ (s.dbs i).expire, k ∈ (s.dbs i).prime) (ω : Listing Bytes) (count : Nat) :
    s.Swept i (s.expireSweep ω i count).1 (s.expireSweep ω i count).2 ↔
      (∀ k, (s.dbs i).lapsed s.nowMs k = false) ∨
        ∃ k ∈ (ω.list (s.dbs i).expire.keys).take count, (s.dbs i).lapsed s.nowMs k = true := by
  have hcard : (s.sweepPage ω i count).toFinset.card = (s.expireSweep ω i count).1 :=
    List.toFinset_card_of_nodup (sweepPage_nodup ω count)
  constructor
  · intro h
    by_cases hzero : (s.expireSweep ω i count).1 = 0
    · refine .inl fun k => Bool.eq_false_iff.mpr fun hk => ?_
      obtain ⟨deadline, hlookup, hle⟩ := lapsed_iff.mp hk
      exact absurd (h.progress hzero k deadline hlookup) (UInt64.not_lt.mpr hle)
    · obtain ⟨k, hk⟩ := List.exists_mem_of_length_pos (Nat.pos_of_ne_zero hzero)
      obtain ⟨htake, hlapsed⟩ := List.mem_filter.mp hk
      exact .inr ⟨k, htake, hlapsed⟩
  · intro h
    refine ⟨rfl, ⟨_, hcard, fun k hk => ?_, cell_expireSweep ω count⟩,
      fun hzero k deadline hlookup => ?_⟩
    · obtain ⟨-, hlapsed⟩ := List.mem_filter.mp (List.mem_toFinset.mp hk)
      obtain ⟨deadline, hlookup, hle⟩ := lapsed_iff.mp hlapsed
      exact ⟨hsub k (Finmap.mem_of_lookup_eq_some hlookup), deadline, hlookup, hle⟩
    · rcases h with hnone | ⟨k', htake, hlapsed⟩
      · by_contra hlt
        have hk := lapsed_iff.mpr ⟨deadline, hlookup, UInt64.not_lt.mp hlt⟩
        rw [hnone k] at hk
        cases hk
      · have hmem : k' ∈ s.sweepPage ω i count := List.mem_filter.mpr ⟨htake, hlapsed⟩
        exact absurd hzero (List.length_pos_of_mem hmem).ne'

/-- Two keys at the time 10, with the deadlines 100 and 5. -/
def twoDeadlines (x y : Bytes) : DbSlice Int :=
  ⟨fun _ => ⟨((∅ : Finmap _).insert x (.integer 1)).insert y (.integer 2),
    ((∅ : Finmap _).insert x 100).insert y 5⟩, 10⟩

theorem mem_twoDeadlines {x y k : Bytes} :
    k ∈ ((twoDeadlines x y).dbs 0).expire ↔ k = y ∨ k = x := by
  rw [twoDeadlines, Finmap.mem_insert, Finmap.mem_insert,
    or_iff_left (Finmap.notMem_empty (a := k))]

theorem keys_twoDeadlines (x y : Bytes) : ((twoDeadlines x y).dbs 0).expire.keys = {x, y} := by
  ext k
  rw [Finmap.mem_keys, mem_twoDeadlines, Finset.mem_insert, Finset.mem_singleton, or_comm]

theorem twoDeadlines_sub {x y k : Bytes} (h : k ∈ ((twoDeadlines x y).dbs 0).expire) :
    k ∈ ((twoDeadlines x y).dbs 0).prime := by
  rw [mem_twoDeadlines] at h
  rw [twoDeadlines, Finmap.mem_insert, Finmap.mem_insert]
  exact h.imp_right .inl

theorem twoDeadlines_lapsed (x y : Bytes) : ((twoDeadlines x y).dbs 0).lapsed 10 y = true := by
  rw [DbTable.lapsed, twoDeadlines, Finmap.lookup_insert]
  rfl

/-- With two entries to look at, the lapsed one is found. -/
theorem sweep_finds_lapsed : (twoDeadlines (ascii "a") (ascii "b")).Swept 0
    ((twoDeadlines (ascii "a") (ascii "b")).expireSweep (.arbitrary Bytes) 0 2).1
    ((twoDeadlines (ascii "a") (ascii "b")).expireSweep (.arbitrary Bytes) 0 2).2 := by
  refine (expireSweep_swept_iff _ 0 (fun k => twoDeadlines_sub) (.arbitrary Bytes) 2).mpr
    (.inr ⟨ascii "b", ?_, twoDeadlines_lapsed _ _⟩)
  rw [keys_twoDeadlines, List.take_of_length_le, Listing.mem_list]
  · exact Finset.mem_insert_of_mem (Finset.mem_singleton_self _)
  · rw [Listing.length_list]
    exact Finset.card_le_two

/-- The first key listed is not lapsed, the second one is. -/
theorem sweep_misses_lapsed : ∃ (s : DbSlice Int) (k : Bytes),
    (∀ k ∈ (s.dbs 0).expire, k ∈ (s.dbs 0).prime) ∧ (s.dbs 0).lapsed s.nowMs k = true ∧
      s.expireSweep (.arbitrary Bytes) 0 1 = (0, s) ∧ ¬s.Swept 0 0 s := by
  let ω : Listing Bytes := .arbitrary Bytes
  have hlen : (ω.list {ascii "a", ascii "b"}).length = 2 := (ω.length_list _).trans (by decide)
  obtain ⟨x, y, hlist⟩ := List.length_eq_two.mp hlen
  have hne : x ≠ y := by
    have hnodup := ω.nodup {ascii "a", ascii "b"}
    rw [hlist] at hnodup
    simpa using hnodup
  have hkeys : ((twoDeadlines x y).dbs 0).expire.keys = {ascii "a", ascii "b"} := by
    ext k
    rw [keys_twoDeadlines, ← ω.mem_list {ascii "a", ascii "b"}, hlist]
    simp
  have hfirst : ((twoDeadlines x y).dbs 0).lapsed 10 x = false := by
    rw [DbTable.lapsed, twoDeadlines, Finmap.lookup_insert_of_ne _ hne, Finmap.lookup_insert]
    rfl
  have hpage : (twoDeadlines x y).sweepPage ω 0 1 = [] := by
    rw [sweepPage, hkeys, hlist]
    exact List.filter_cons_of_neg (Bool.eq_false_iff.mp hfirst)
  have hsweep : (twoDeadlines x y).expireSweep ω 0 1 = (0, twoDeadlines x y) := by
    change ((sweepPage _ ω 0 1).length, setDb _ 0 ((sweepPage _ ω 0 1).foldl DbTable.forget _)) = _
    rw [hpage, List.foldl_nil, setDb, update_eq_self]
    rfl
  refine ⟨twoDeadlines x y, y, fun k => twoDeadlines_sub, twoDeadlines_lapsed x y, hsweep,
    fun h => ?_⟩
  have hlt : (10 : UInt64) < 5 := h.progress rfl y 5 (Finmap.lookup_insert _)
  exact absurd hlt (by decide)

end DbSlice

end ShrikeDb
