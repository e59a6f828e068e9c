import ShrikeDb.Server.Command

/-! What the tables hold for one key of one database is a cell: the value and the
deadline. An operation on one key changes that cell, in a way that depends on the
clock and the cell alone, and no other. -/

namespace ShrikeDb

open Function

variable {F : Type}

abbrev Addr := DbIndex × Bytes

abbrev Cell (F : Type) := Option (PrimeValue F) × Option UInt64

namespace Cell

def empty : Cell F := (none, none)

variable (now : UInt64)

def lapsed (c : Cell F) : Bool :=
  match c.2 with
  | some deadline => deadline ≤ now
  | none => false

/-- The cell once its key has been purged if it lapsed. -/
def live (c : Cell F) : Cell F := if lapsed now c then empty else c

@[simp] theorem live_empty : live now (empty : Cell F) = empty := rfl

variable {now : UInt64}

theorem live_of_lapsed {c : Cell F} (h : lapsed now c = true) : live now c = empty :=
  if_pos h

theorem live_of_not_lapsed {c : Cell F} (h : lapsed now c = false) : live now c = c := by
  rw [live, h]
  rfl

theorem live_cases (now : UInt64) (c : Cell F) :
    (lapsed now c = true ∧ live now c = empty) ∨ (lapsed now c = false ∧ live now c = c) := by
  cases h : lapsed now c with
  | true => exact .inl ⟨rfl, live_of_lapsed h⟩
  | false => exact .inr ⟨rfl, live_of_not_lapsed h⟩

@[simp] theorem live_live (now : UInt64) (c : Cell F) : live now (live now c) = live now c := by
  rcases live_cases now c with ⟨_, h⟩ | ⟨_, h⟩ <;> rw [h]
  · rfl
  · exact h

/-- A cell that lapsed stays lapsed. -/
theorem live_live_le {t : UInt64} (h : t ≤ now) (c : Cell F) :
    live now (live t c) = live now c := by
  rcases live_cases t c with ⟨hl, he⟩ | ⟨_, he⟩
  · obtain ⟨v, d⟩ := c
    cases d with
    | none => cases hl
    | some d =>
      have hd : d ≤ t := of_decide_eq_true hl
      have hl' : lapsed now ((v, some d) : Cell F) = true := decide_eq_true (UInt64.le_trans hd h)
      rw [he, live_empty, live_of_lapsed hl']
  · rw [he]

end Cell

def DbTable.cell (db : DbTable F) (key : Bytes) :
    Cell F := (db.prime.lookup key, db.expire.lookup key)

variable (s : DbSlice F)

def DbSlice.cell (a : Addr) : Cell F := (s.dbs a.1).cell a.2

theorem mem_prime_keys (i : DbIndex) (k : Bytes) :
    k ∈ (s.dbs i).prime.keys ↔ (s.cell (i, k)).1.isSome = true := by
  rw [Finmap.mem_keys, ← Finmap.lookup_isSome]
  rfl

namespace DbTable

theorem lapsed_eq (db : DbTable F) (now : UInt64) (key : Bytes) :
    db.lapsed now key = (db.cell key).lapsed now := rfl

theorem ext_cell {db db' : DbTable F} (h : ∀ key, db.cell key = db'.cell key) : db = db' := by
  have hprime : db.prime = db'.prime := Finmap.ext_lookup fun k => congrArg Prod.fst (h k)
  have hexpire : db.expire = db'.expire := Finmap.ext_lookup fun k => congrArg Prod.snd (h k)
  cases db
  cases db'
  cases hprime
  cases hexpire
  rfl

@[simp] theorem cell_forget_self (db : DbTable F) (key : Bytes) :
    (db.forget key).cell key = Cell.empty := by
  rw [cell, forget, Finmap.lookup_erase, Finmap.lookup_erase]
  rfl

theorem cell_forget_ne (db : DbTable F) {key k : Bytes} (h : k ≠ key) :
    (db.forget key).cell k = db.cell k := by
  rw [cell, forget, Finmap.lookup_erase_ne h, Finmap.lookup_erase_ne h]
  rfl

/-- Forgetting a list of keys empties their cells. -/
theorem cell_foldl_forget (keys : List Bytes) (db : DbTable F) (k : Bytes) :
    (keys.foldl forget db).cell k = if k ∈ keys then Cell.empty else db.cell k := by
  induction keys generalizing db with
  | nil => rfl
  | cons key keys ih =>
    rw [List.foldl_cons, ih]
    by_cases hk : k = key
    · subst hk
      rw [cell_forget_self, ite_self, if_pos List.mem_cons_self]
    · rw [cell_forget_ne db hk]
      simp only [List.mem_cons, hk, false_or]

theorem checkAndExpire_eq (db : DbTable F) (key : Bytes) (now : UInt64) :
    db.checkAndExpire key now = ((db.cell key).lapsed now, (db.checkAndExpire key now).2) ∧
      (db.checkAndExpire key now).2.cell key = (db.cell key).live now ∧
      ∀ k ≠ key, (db.checkAndExpire key now).2.cell k = db.cell k := by
  rw [checkAndExpire, lapsed_eq]
  rcases (db.cell key).live_cases now with ⟨hl, he⟩ | ⟨hl, he⟩ <;> rw [hl, he]
  · exact ⟨rfl, cell_forget_self db key, fun k hk => cell_forget_ne db hk⟩
  · exact ⟨rfl, rfl, fun k _ => rfl⟩

end DbTable

namespace DbSlice

theorem cell_setDb_self (i : DbIndex) (db : DbTable F) (key : Bytes) :
    (s.setDb i db).cell (i, key) = db.cell key := by
  rw [cell, setDb]
  dsimp only
  rw [update_self]

theorem cell_setDb_ne {i : DbIndex} (db : DbTable F) {a : Addr} (h : a.1 ≠ i) :
    (s.setDb i db).cell a = s.cell a := by
  rw [cell, setDb]
  dsimp only
  rw [update_of_ne h]
  rfl

variable {s : DbSlice F}

/-- A new database that differs in one key changes one cell. -/
theorem cell_setDb {i : DbIndex} {db : DbTable F} {key : Bytes} {c : Cell F}
    (hkey : db.cell key = c) (hframe : ∀ k ≠ key, db.cell k = (s.dbs i).cell k) :
    (s.setDb i db).cell = update s.cell (i, key) c := by
  funext ⟨j, k⟩
  by_cases hj : j = i
  · subst hj
    rw [cell_setDb_self]
    by_cases hk : k = key
    · subst hk
      rw [hkey, update_self]
    · rw [hframe k hk, update_of_ne fun h => hk (Prod.mk.inj h).2]
      rfl
  · rw [cell_setDb_ne s db hj, update_of_ne fun h => hj (Prod.mk.inj h).1]

theorem ext_cell {t : DbSlice F} (hnow : s.nowMs = t.nowMs) (h : s.cell = t.cell) : s = t := by
  have hdbs : s.dbs = t.dbs := funext fun i => DbTable.ext_cell fun key => congrFun h (i, key)
  cases s
  cases t
  cases hnow
  cases hdbs
  rfl

theorem update_cell_self {a : Addr} {c : Cell F} (h : s.cell a = c) :
    s.cell = update s.cell a c := by
  rw [← h, update_eq_self]

end DbSlice

/-! ## Operations on one cell -/

namespace DbOp

/-- The cell an operation works on, if it is only one. -/
def target : DbOp F → Option Addr
  | .find i key | .findMut i key | .store i key _ | .addOrUpdate i key _ | .addIfAbsent i key _
  | .del i key | .addExpire i key _ | .removeExpire i key | .ttlMs i key => some (i, key)
  | _ => none

/-- What such an operation makes of its cell. -/
def onCell (now : UInt64) : DbOp F → Cell F → Cell F
  | .find _ _, c | .findMut _ _, c => c.live now
  | .store _ _ value, c => if c.1.isSome then (some value, c.2) else c
  | .addOrUpdate _ _ value, c => (some value, c.2)
  | .addIfAbsent _ _ value, c =>
    if (c.live now).1.isSome then c.live now else (some value, (c.live now).2)
  | .del _ _, _ => Cell.empty
  | .addExpire _ _ deadline, c => if c.1.isSome then (c.1, some deadline) else c
  | .removeExpire _ _, c => (c.1, none)
  | .ttlMs _ _, c => if c.1.isSome then c.live now else c
  | _, c => c

def found (c : Cell F) : Option (FindResult F) := c.1.map fun value => ⟨value, c.2.isSome⟩

def ttlOf (now : UInt64) (c : Cell F) : TtlResult :=
  match c with
  | (none, _) => .keyNotFound
  | (some _, none) => .noExpiry
  | (some _, some deadline) => .expires (deadline - now)

/-- What it returns; for the other operations the value does not matter. -/
def answer (now : UInt64) : (o : DbOp F) → Cell F → o.Result
  | .find _ _, c | .findMut _ _, c => found (c.live now)
  | .addOrUpdate _ _ _, c => c.1.isNone
  | .addIfAbsent _ _ _, c => (c.live now).1.isNone
  | .del _ _, c => c.1.isSome
  | .removeExpire _ _, c => c.2.isSome
  | .ttlMs _ _, c => ttlOf now (c.live now)
  | .store _ _ _, _ | .addExpire _ _ _, _ | .flushDb _, _ | .select _, _ => ()
  | .nowMs, _ => now
  | .dbSize _, _ => (0 : Nat)
  | .rename _ _ _, _ => false
  | .scan _ _ _ _, _ => none
  | .keys _ _, _ => []
  | .randomEntry _, _ => none

end DbOp

namespace DbSlice

variable (s : DbSlice F) (i : DbIndex) (key : Bytes)

theorem find_spec : (s.find i key).1 = DbOp.found ((s.cell (i, key)).live s.nowMs) ∧
    (s.find i key).2.cell = update s.cell (i, key) ((s.cell (i, key)).live s.nowMs) ∧
    (s.find i key).2.nowMs = s.nowMs := by
  obtain ⟨heq, hkey, hframe⟩ := (s.dbs i).checkAndExpire_eq key s.nowMs
  have hcell := cell_setDb hkey hframe
  rw [find, heq]
  change _ ∧ _ = update s.cell (i, key) (((s.dbs i).cell key).live s.nowMs) ∧ _
  rcases ((s.dbs i).cell key).live_cases s.nowMs with ⟨hl, he⟩ | ⟨hl, he⟩ <;> rw [hl]
  · exact ⟨(congrArg DbOp.found he).symm, hcell, rfl⟩
  · exact ⟨congrArg DbOp.found hkey, hcell, rfl⟩

theorem cell_insert_prime (db : DbTable F) (value : PrimeValue F) :
    ({ db with prime := db.prime.insert key value } : DbTable F).cell key =
      (some value, (db.cell key).2) ∧
    ∀ k ≠ key, ({ db with prime := db.prime.insert key value } : DbTable F).cell k = db.cell k := by
  refine ⟨?_, fun k hk => ?_⟩
  · rw [DbTable.cell, Finmap.lookup_insert]
    rfl
  · rw [DbTable.cell, Finmap.lookup_insert_of_ne _ hk]
    rfl

theorem store_spec (value : PrimeValue F) :
    (s.store i key value).cell = update s.cell (i, key)
      (DbOp.onCell s.nowMs (.store i key value) (s.cell (i, key))) ∧
    (s.store i key value).nowMs = s.nowMs := by
  obtain ⟨hkey, hframe⟩ := cell_insert_prime key (s.dbs i) value
  change (if ((s.dbs i).cell key).1.isSome then _ else s).cell = update s.cell (i, key)
    (if ((s.dbs i).cell key).1.isSome then _ else _) ∧
    (if ((s.dbs i).cell key).1.isSome then _ else s).nowMs = _
  split
  · exact ⟨cell_setDb hkey hframe, rfl⟩
  · exact ⟨update_cell_self rfl, rfl⟩

theorem addIfAbsent_spec (value : PrimeValue F) :
    (s.addIfAbsent i key value).1 =
    DbOp.answer s.nowMs (.addIfAbsent i key value) (s.cell (i, key)) ∧
    (s.addIfAbsent i key value).2.cell = update s.cell (i, key)
      (DbOp.onCell s.nowMs (.addIfAbsent i key value) (s.cell (i, key))) ∧
    (s.addIfAbsent i key value).2.nowMs = s.nowMs := by
  obtain ⟨heq, hkey, hframe⟩ := (s.dbs i).checkAndExpire_eq key s.nowMs
  obtain ⟨hins, hins'⟩ := cell_insert_prime key ((s.dbs i).checkAndExpire key s.nowMs).2 value
  have hput := cell_setDb hins fun k hk => (hins' k hk).trans (hframe k hk)
  have hcell : s.cell (i, key) = (s.dbs i).cell key := rfl
  rw [hkey] at hput
  rw [addIfAbsent, heq, DbOp.answer, DbOp.onCell, hcell]
  rcases ((s.dbs i).cell key).live_cases s.nowMs with ⟨hl, he⟩ | ⟨hl, he⟩ <;> rw [hl]
  · rw [he] at hput ⊢
    exact ⟨rfl, hput, rfl⟩
  · have hsome : (((s.dbs i).checkAndExpire key s.nowMs).2.prime.lookup key).isSome =
        (((s.dbs i).cell key).live s.nowMs).1.isSome := congrArg (fun c => c.1.isSome) hkey
    dsimp only
    rw [hsome]
    cases hv : (((s.dbs i).cell key).live s.nowMs).1 with
    | none => exact ⟨rfl, hput, rfl⟩
    | some v => exact ⟨rfl, cell_setDb hkey hframe, rfl⟩

theorem addExpire_spec (deadline : UInt64) :
    (s.addExpire i key deadline).cell = update s.cell (i, key)
      (DbOp.onCell s.nowMs (.addExpire i key deadline) (s.cell (i, key))) ∧
    (s.addExpire i key deadline).nowMs = s.nowMs := by
  change (if ((s.dbs i).cell key).1.isSome then _ else s).cell = update s.cell (i, key)
    (if ((s.dbs i).cell key).1.isSome then _ else _) ∧
    (if ((s.dbs i).cell key).1.isSome then _ else s).nowMs = _
  split
  · refine ⟨cell_setDb ?_ fun k hk => ?_, rfl⟩
    · rw [DbTable.cell, Finmap.lookup_insert]
      rfl
    · rw [DbTable.cell, Finmap.lookup_insert_of_ne _ hk]
      rfl
  · exact ⟨update_cell_self rfl, rfl⟩

theorem removeExpire_spec : (s.removeExpire i key).2.cell = update s.cell (i, key)
    ((s.cell (i, key)).1, none) := by
  refine cell_setDb ?_ fun k hk => ?_
  · rw [DbTable.cell, Finmap.lookup_erase]
    rfl
  · rw [DbTable.cell, Finmap.lookup_erase_ne hk]
    rfl

theorem ttlMs_spec : (s.ttlMs i key).1 = DbOp.ttlOf s.nowMs ((s.cell (i, key)).live s.nowMs) ∧
    (s.ttlMs i key).2.cell = update s.cell (i, key)
      (DbOp.onCell s.nowMs (.ttlMs i key) (s.cell (i, key))) ∧
    (s.ttlMs i key).2.nowMs = s.nowMs := by
  have hcell : s.cell (i, key) = ((s.dbs i).prime.lookup key, (s.dbs i).expire.lookup key) := rfl
  rw [ttlMs]
  cases hp : (s.dbs i).prime.lookup key with
  | none =>
    rw [hp] at hcell
    refine ⟨?_, ?_, rfl⟩
    · rcases (s.cell (i, key)).live_cases s.nowMs with ⟨_, he⟩ | ⟨_, he⟩ <;> rw [he]
      · rfl
      · rw [hcell]
        rfl
    · rw [hcell]
      exact update_cell_self hcell
  | some v =>
    cases hd : (s.dbs i).expire.lookup key with
    | none =>
      rw [hp, hd] at hcell
      rw [hcell]
      exact ⟨rfl, update_cell_self hcell, rfl⟩
    | some d =>
      rw [hp, hd] at hcell
      rw [hcell]
      by_cases hle : d ≤ s.nowMs
      · have hl : Cell.live s.nowMs ((some v, some d) : Cell F) = Cell.empty :=
          Cell.live_of_lapsed (decide_eq_true hle)
        rw [hl, DbOp.onCell, hl]
        dsimp only [Option.isNone_some, Option.isSome_some, Bool.false_eq_true, if_false, if_true]
        rw [if_neg Bool.false_ne_true, if_pos hle]
        exact ⟨rfl, cell_setDb (DbTable.cell_forget_self _ key) fun k hk =>
          DbTable.cell_forget_ne _ hk, rfl⟩
      · have hl : Cell.live s.nowMs ((some v, some d) : Cell F) = (some v, some d) :=
          Cell.live_of_not_lapsed (decide_eq_false hle)
        rw [hl, DbOp.onCell, hl]
        dsimp only [Option.isNone_some, Option.isSome_some]
        rw [if_neg Bool.false_ne_true, if_neg hle]
        exact ⟨rfl, update_cell_self hcell, rfl⟩

end DbSlice

/-- An operation on one cell reads and writes that cell only. -/
theorem DbOp.apply_target {o : DbOp F} {a : Addr} (h : o.target = some a) (ω : Listing Bytes)
    (s : DbSlice F) :
    (o.apply ω s).1 = o.answer s.nowMs (s.cell a) ∧
      (o.apply ω s).2.cell = update s.cell a (o.onCell s.nowMs (s.cell a)) ∧
      (o.apply ω s).2.nowMs = s.nowMs := by
  cases o with
  | find i key => cases h; exact s.find_spec i key
  | findMut i key => cases h; exact s.find_spec i key
  | store i key value => cases h; exact ⟨rfl, s.store_spec i key value⟩
  | addOrUpdate i key value =>
    cases h
    obtain ⟨hkey, hframe⟩ := DbSlice.cell_insert_prime key (s.dbs i) value
    exact ⟨rfl, DbSlice.cell_setDb hkey hframe, rfl⟩
  | addIfAbsent i key value => cases h; exact s.addIfAbsent_spec i key value
  | del i key =>
    cases h
    exact ⟨rfl, DbSlice.cell_setDb (DbTable.cell_forget_self _ key) fun k hk =>
      DbTable.cell_forget_ne _ hk, rfl⟩
  | addExpire i key deadline => cases h; exact ⟨rfl, s.addExpire_spec i key deadline⟩
  | removeExpire i key => cases h; exact ⟨rfl, s.removeExpire_spec i key, rfl⟩
  | ttlMs i key => cases h; exact s.ttlMs_spec i key
  | _ => cases h

/-! ## The other operations -/

namespace DbSlice

variable (s : DbSlice F) (i : DbIndex)

theorem rename_some {source : Bytes} (dest : Bytes) {value : PrimeValue F}
    (h : (s.cell (i, source)).1 = some value) :
    (s.rename i source dest).1 = true ∧
      (s.rename i source dest).2.cell =
        update (update s.cell (i, source) Cell.empty) (i, dest)
          (some value, (s.cell (i, source)).2) ∧
      (s.rename i source dest).2.nowMs = s.nowMs := by
  have hp : (s.dbs i).prime.lookup source = some value := h
  have hforget : (s.setDb i ((s.dbs i).forget source)).cell =
      update s.cell (i, source) Cell.empty :=
    cell_setDb (DbTable.cell_forget_self _ source) fun k hk => DbTable.cell_forget_ne _ hk
  rw [rename, hp]
  refine ⟨rfl, ?_, rfl⟩
  rw [← hforget]
  funext ⟨j, k⟩
  by_cases hj : j = i
  · subst hj
    rw [cell_setDb_self]
    by_cases hk : k = dest
    · subst hk
      rw [update_self, DbTable.cell, Finmap.lookup_insert]
      cases hd : (s.dbs j).expire.lookup source with
      | none =>
        rw [Finmap.lookup_erase, cell, DbTable.cell, hd]
      | some d =>
        rw [Finmap.lookup_insert, cell, DbTable.cell, hd]
    · rw [update_of_ne fun h => hk (Prod.mk.inj h).2, cell_setDb_self, DbTable.cell,
        Finmap.lookup_insert_of_ne _ hk]
      cases hd : (s.dbs j).expire.lookup source with
      | none => rw [Finmap.lookup_erase_ne hk, DbTable.cell]
      | some d => rw [Finmap.lookup_insert_of_ne _ hk, Finmap.lookup_erase_ne hk, DbTable.cell]
  · rw [cell_setDb_ne s _ hj, update_of_ne fun h => hj (Prod.mk.inj h).1, cell_setDb_ne s _ hj]

theorem rename_none {source : Bytes} (dest : Bytes) (h : (s.cell (i, source)).1 = none) :
    (s.rename i source dest).1 = false ∧
      (s.rename i source dest).2.cell = update s.cell (i, source) Cell.empty ∧
      (s.rename i source dest).2.nowMs = s.nowMs := by
  have hp : (s.dbs i).prime.lookup source = none := h
  rw [rename, hp]
  exact ⟨rfl, cell_setDb (DbTable.cell_forget_self _ source) fun k hk =>
    DbTable.cell_forget_ne _ hk, rfl⟩

theorem cell_flushDb (a : Addr) :
    (s.flushDb i).cell a = if a.1 = i then Cell.empty else s.cell a := by
  obtain ⟨j, k⟩ := a
  by_cases hj : j = i
  · subst hj
    rw [flushDb, cell_setDb_self, if_pos rfl]
    rfl
  · rw [flushDb, cell_setDb_ne s _ hj, if_neg hj]

/-- Lapsed keys may be gone; nothing else has changed. -/
structure Purges (s s' : DbSlice F) : Prop where
  nowMs : s'.nowMs = s.nowMs
  cell : ∀ a, s'.cell a = s.cell a ∨ ((s.cell a).lapsed s.nowMs = true ∧ s'.cell a = Cell.empty)

theorem Purges.refl : Purges s s := ⟨rfl, fun _ => .inl rfl⟩

theorem Purges.live {s s' : DbSlice F} (h : Purges s s') (a : Addr) :
    (s'.cell a).live s.nowMs = (s.cell a).live s.nowMs := by
  rcases h.cell a with heq | ⟨hl, he⟩
  · rw [heq]
  · rw [he, Cell.live_of_lapsed hl, Cell.live_empty]

theorem Purges.trans {s s' s'' : DbSlice F} (h : Purges s s') (h' : Purges s' s'') :
    Purges s s'' := by
  refine ⟨h'.nowMs.trans h.nowMs, fun a => ?_⟩
  have h2 := h'.cell a
  rw [h.nowMs] at h2
  rcases h.cell a with heq | ⟨hl, he⟩
  · rwa [heq] at h2
  · rcases h2 with heq' | ⟨_, he'⟩
    · exact .inr ⟨hl, heq'.trans he⟩
    · exact .inr ⟨hl, he'⟩

theorem purges_forget {keys : List Bytes} (h : ∀ k ∈ keys, (s.dbs i).lapsed s.nowMs k = true) :
    Purges s (s.setDb i (keys.foldl DbTable.forget (s.dbs i))) := by
  refine ⟨rfl, fun ⟨j, k⟩ => ?_⟩
  by_cases hj : j = i
  · subst hj
    rw [cell_setDb_self, DbTable.cell_foldl_forget]
    by_cases hk : k ∈ keys
    · rw [if_pos hk]
      exact .inr ⟨h k hk, rfl⟩
    · rw [if_neg hk]
      exact .inl rfl
  · exact .inl (cell_setDb_ne s _ hj)

theorem purges_keys (ω : Listing Bytes) (pattern : Bytes) : Purges s (s.keys ω i pattern).2 :=
  s.purges_forget i fun _ hk => (List.mem_filter.mp hk).2

theorem purges_expireSweep (ω : Listing Bytes) (count : Nat) :
    Purges s (s.expireSweep ω i count).2 :=
  s.purges_forget i fun _ hk => (List.mem_filter.mp hk).2

end DbSlice

end ShrikeDb
