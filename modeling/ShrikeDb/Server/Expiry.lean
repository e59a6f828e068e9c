import ShrikeDb.Facade.RespRead
import ShrikeDb.Server.Loops
import ShrikeDb.Server.Dispatch

/-! Expiry: a sweep in the background cannot be seen through the commands that check
deadlines, and where `DEL`, `UNLINK` and `RENAME` can tell a lapsed key from an absent
one. -/

namespace ShrikeDb

open CommandRegistry ReplyBuilder Function GenericFamily

variable {F : Type}

/-- Two states of the databases with the same clock and the same live keys. -/
structure LiveAlike (s t : DbSlice F) : Prop where
  nowMs : s.nowMs = t.nowMs
  live : ∀ a, (s.cell a).live s.nowMs = (t.cell a).live s.nowMs

namespace LiveAlike

variable {s t u : DbSlice F}

theorem alike (h : LiveAlike s t) (fp : Footprint) (conn : ConnContext) :
    Alike fp Phase.start ⟨s, conn⟩ ⟨t, conn⟩ :=
  ⟨h.nowMs, rfl, fun a _ _ => h.live a, (fun _ ha => nomatch ha), fun _ ha => nomatch ha⟩

theorem of_alike {conn conn' : ConnContext} {strict : Prop}
    (h : Alike (.everywhere strict) Phase.start ⟨s, conn⟩ ⟨t, conn'⟩) : LiveAlike s t :=
  ⟨h.nowMs, fun a => h.live a (Set.mem_univ a) (Set.notMem_empty a)⟩

theorem of_purges (h : DbSlice.Purges s t) :
    LiveAlike s t := ⟨h.nowMs.symm, fun a => (h.live a).symm⟩

theorem symm (h : LiveAlike s t) : LiveAlike t s :=
  ⟨h.nowMs.symm, fun a => by rw [← h.nowMs]; exact (h.live a).symm⟩

theorem trans (h : LiveAlike s t) (h' : LiveAlike t u) : LiveAlike s u :=
  ⟨h.nowMs.trans h'.nowMs, fun a => (h.live a).trans (by rw [h.nowMs]; exact h'.live a)⟩

/-- A later clock keeps the live keys the same on both sides. -/
theorem updateTime (h : LiveAlike s t) {now : UInt64} (hle : s.nowMs ≤ now) :
    LiveAlike (s.updateTime now) (t.updateTime now) := by
  refine ⟨rfl, fun a => ?_⟩
  change (s.cell a).live now = (t.cell a).live now
  rw [← Cell.live_live_le hle, h.live a, Cell.live_live_le hle]

end LiveAlike

/-! ## KEYS -/

theorem mem_keys_fst (ω : Listing Bytes) (s : DbSlice F) (i : DbIndex) (pattern k : Bytes) :
    k ∈ (s.keys ω i pattern).1 ↔
      ((s.cell (i, k)).live s.nowMs).1.isSome = true ∧ globMatch pattern k = true := by
  have hprime : k ∈ (s.dbs i).prime.keys ↔ ((s.dbs i).prime.lookup k).isSome = true := by
    rw [Finmap.mem_keys, Finmap.lookup_isSome]
  have hlapsed : (s.dbs i).lapsed s.nowMs k = (s.cell (i, k)).lapsed s.nowMs := rfl
  simp only [DbSlice.keys, List.mem_filter, ω.mem_list, hprime, hlapsed, Bool.and_eq_true,
    Bool.not_eq_true']
  rcases (s.cell (i, k)).live_cases s.nowMs with ⟨hl, he⟩ | ⟨hl, he⟩ <;> rw [hl, he]
  · simp [Cell.empty]
  · simp [DbSlice.cell, DbTable.cell]

theorem keys_perm {s t : DbSlice F} (h : LiveAlike s t) (ω ω' : Listing Bytes) (i : DbIndex)
    (pattern : Bytes) : (s.keys ω i pattern).1.Perm (t.keys ω' i pattern).1 := by
  have hnodup (ω : Listing Bytes) (s : DbSlice F) : (s.keys ω i pattern).1.Nodup :=
    (ω.nodup _).filter _
  refine (List.perm_ext_iff_of_nodup (hnodup ω s) (hnodup ω' t)).mpr fun k => ?_
  rw [mem_keys_fst, mem_keys_fst, h.live, h.nowMs]

/-! ## Runs with and without sweeps -/

/-- What happens to a shard: the clock is set, a connection's command is dispatched, or
the sweeper takes a look at up to `count` deadlines of a database. -/
inductive ShardEvent
  | tick (now : UInt64)
  | command (conn : ConnContext) (args : List RespExpr)
  | sweep (i : DbIndex) (count : Nat)

namespace ShardEvent

def isSweep : ShardEvent → Bool
  | .sweep _ _ => true
  | _ => false

def withoutSweeps (events : List ShardEvent) : List ShardEvent := events.filter fun e => !e.isSweep

/-- The values the clock takes. -/
def ticks (events : List ShardEvent) : List UInt64 :=
  events.filterMap fun
    | .tick now => some now
    | _ => none

end ShardEvent

/-- A command and its reply; `none` is a panic. -/
structure Answered where
  args : List RespExpr
  reply : Option Bytes

/-- The same command and the same reply, for `KEYS` up to the order of the list. -/
def Answered.Same (a b : Answered) : Prop :=
  a.args = b.args ∧ (a.reply = b.reply ∨ commandName a.args = .ok (ascii "KEYS") ∧
    ∃ l l' : List Bytes, l.Perm l' ∧ a.reply = some (sendStringArray l) ∧
      b.reply = some (sendStringArray l'))

/-- The commands that delete or rename without a look-up or look at a whole table;
`KEYS` looks at all keys but leaves out the lapsed ones. -/
def tellsLapsed : List Bytes :=
  [ascii "DEL", ascii "UNLINK", ascii "RENAME", ascii "DBSIZE", ascii "INFO", ascii "SCAN",
    ascii "RANDOMKEY"]

def ShardEvent.Checking : ShardEvent → Prop
  | .command _ args => ∀ name, commandName args = .ok name → name ∉ tellsLapsed
  | _ => True

section Runs

variable [F64 F] [HashOrder] [CaseTable]

def EngineShard.expireSweep (s : EngineShard F) (ω : Listing Bytes) (i : DbIndex) (count : Nat) :
    EngineShard F :=
  { s with dbSlice := (s.dbSlice.expireSweep ω i count).2 }

/-- The replies of a run. Tables are iterated in the order `ω n` at the `n`-th event. -/
def transcript (ω : Nat → Listing Bytes) : List ShardEvent → EngineShard F → List Answered
  | [], _ => []
  | .tick now :: events, s => transcript (fun n => ω (n + 1)) events (s.updateTime now)
  | .command conn args :: events, s =>
    let out := dispatch (ω 0) args conn s
    ⟨args, out.reply⟩ :: transcript (fun n => ω (n + 1)) events out.shard
  | .sweep i count :: events, s =>
    transcript (fun n => ω (n + 1)) events (s.expireSweep (ω 0) i count)

/-- The shard after one event. -/
def EngineShard.next (ω : Listing Bytes) (s : EngineShard F) : ShardEvent → EngineShard F
  | .tick now => s.updateTime now
  | .command conn args => (dispatch ω args conn s).shard
  | .sweep i count => s.expireSweep ω i count

/-- The shard after a run. -/
def EngineShard.through (ω : Nat → Listing Bytes) : List ShardEvent → EngineShard F → EngineShard F
  | [], s => s
  | e :: events, s => through (fun n => ω (n + 1)) events (s.next (ω 0) e)

omit [F64 F] [HashOrder] [CaseTable] in
theorem unchecked_eq : unchecked = tellsLapsed ++ [ascii "KEYS"] := rfl

variable {args : List RespExpr}

theorem meets_strict (i : DbIndex)
    (hargs : ∀ name, commandName args = .ok name → name ∉ tellsLapsed)
    (hkeys : commandName args ≠ .ok (ascii "KEYS")) :
    (Footprint.everywhere True).Meets F args i := by
  intro e he
  have hname := (resolve_run he).2
  refine ⟨(keySpec e.name e.firstKey).covered_everywhere True _, fun hu _ => ?_⟩
  have hmem : e.name ∈ unchecked := of_decide_eq_true hu
  rw [unchecked_eq, List.mem_append, List.mem_singleton] at hmem
  rcases hmem with hmem | hmem
  · exact hargs e.name hname hmem
  · exact hkeys (hmem ▸ hname)

/-- A `KEYS` line either is rejected or runs the handler of `KEYS`. -/
theorem dispatch_keys (hkeys : commandName args = .ok (ascii "KEYS")) (conn : ConnContext) :
    (∃ reply, ∀ ω (s : EngineShard F), (dispatch ω args conn s).reply = some reply ∧
      (dispatch ω args conn s).shard = s) ∨
    ∃ pattern, ∀ ω (s : EngineShard F),
      (dispatch ω args conn s).reply =
        some (sendStringArray (s.dbSlice.keys ω conn.dbIndex pattern).1) ∧
      (dispatch ω args conn s).shard.dbSlice = (s.dbSlice.keys ω conn.dbIndex pattern).2 := by
  cases hr : resolve (F := F) args with
  | reply data keepAlive =>
    refine .inl ⟨data, fun ω s => ?_⟩
    rw [dispatch, hr]
    exact ⟨rfl, rfl⟩
  | run e =>
    obtain ⟨hfind, hname⟩ := resolve_run hr
    have he : e.name = ascii "KEYS" := Except.ok.inj (hname.symm.trans hkeys)
    rw [he, find_keys] at hfind
    cases hfind
    let ctx : CommandContext := ⟨args, conn.dbIndex⟩
    refine .inr ⟨(ctx.argStr 1).getD (ascii "*"), fun ω s => ?_⟩
    rw [dispatch, hr]
    exact ⟨rfl, rfl⟩

/-- One command: shards with the same live keys answer the same and still have the
same live keys afterwards. -/
theorem dispatch_same {s t : EngineShard F} (h : LiveAlike s.dbSlice t.dbSlice) (conn : ConnContext)
    (hargs : ∀ name, commandName args = .ok name → name ∉ tellsLapsed) (ω ω' : Listing Bytes) :
    Answered.Same ⟨args, (dispatch ω args conn s).reply⟩ ⟨args, (dispatch ω' args conn t).reply⟩ ∧
      LiveAlike (dispatch ω args conn s).shard.dbSlice (dispatch ω' args conn t).shard.dbSlice := by
  by_cases hkeys : commandName args = .ok (ascii "KEYS")
  · rcases dispatch_keys (F := F) hkeys conn with ⟨reply, hrun⟩ | ⟨pattern, hrun⟩
    · obtain ⟨hs, hs'⟩ := hrun ω s
      obtain ⟨ht, ht'⟩ := hrun ω' t
      rw [hs, hs', ht, ht']
      exact ⟨⟨rfl, .inl rfl⟩, h⟩
    · obtain ⟨hs, hs'⟩ := hrun ω s
      obtain ⟨ht, ht'⟩ := hrun ω' t
      refine ⟨⟨rfl, .inr ⟨hkeys, _, _, keys_perm h ω ω' conn.dbIndex pattern, hs, ht⟩⟩, ?_⟩
      rw [hs', ht']
      have hpurge :=
        fun ω (s : DbSlice F) => LiveAlike.of_purges (s.purges_keys conn.dbIndex ω pattern)
      exact (hpurge ω s.dbSlice).symm.trans (h.trans (hpurge ω' t.dbSlice))
  · have hstrict : (Footprint.everywhere True).strict := trivial
    obtain ⟨hreply, halike⟩ := dispatch_alike hstrict (meets_strict conn.dbIndex hargs hkeys)
      (h.alike _ conn) ω ω'
    exact ⟨⟨rfl, .inl hreply⟩, .of_alike halike⟩

open ShardEvent in
/-- The run lemma: `s` goes through all events, `t` through those that are no sweeps. -/
theorem transcript_same {events : List ShardEvent} {s t : EngineShard F}
    (h : LiveAlike s.dbSlice t.dbSlice)
    (hclock : (s.dbSlice.nowMs :: ticks events).Pairwise (· ≤ ·))
    (hcheck : ∀ e ∈ events, e.Checking) (ω ω' : Nat → Listing Bytes) :
    List.Forall₂ Answered.Same (transcript ω events s)
      (transcript ω' (withoutSweeps events) t) := by
  induction events generalizing s t ω ω' with
  | nil => exact .nil
  | cons e events ih =>
    have hrest := fun e' he' => hcheck e' (List.mem_cons_of_mem e he')
    cases e with
    | tick now =>
      obtain ⟨hle, hclock'⟩ := List.pairwise_cons.mp hclock
      exact ih (s := s.updateTime now) (t := t.updateTime now)
        (h.updateTime (hle now List.mem_cons_self)) hclock' hrest _ _
    | command conn args =>
      obtain ⟨hsame, hafter⟩ := dispatch_same h conn (hcheck _ List.mem_cons_self) (ω 0) (ω' 0)
      have hnow := (dispatch_touches (ω 0) s (meets_everywhere args conn.dbIndex)).1
      exact .cons hsame (ih hafter (hnow ▸ hclock) hrest _ _)
    | sweep i count =>
      have hpurge := s.dbSlice.purges_expireSweep i (ω 0) count
      have hnow : (s.expireSweep (ω 0) i count).dbSlice.nowMs = s.dbSlice.nowMs := hpurge.nowMs
      exact ih ((LiveAlike.of_purges hpurge).symm.trans h) (hnow ▸ hclock) hrest _ _

/-- Sweeps inserted anywhere into a run change no reply, and a key that has lapsed is
treated as if it had been removed before. -/
theorem sweeps_unobservable (s : EngineShard F) (events : List ShardEvent)
    (hclock : (s.dbSlice.nowMs :: ShardEvent.ticks events).Pairwise (· ≤ ·))
    (hcheck : ∀ e ∈ events, e.Checking) (ω ω' : Nat → Listing Bytes) :
    List.Forall₂ Answered.Same (transcript ω events s)
        (transcript ω' (ShardEvent.withoutSweeps events) s) ∧
      ∀ t : EngineShard F, DbSlice.Purges s.dbSlice t.dbSlice →
        List.Forall₂ Answered.Same (transcript ω events s)
          (transcript ω' (ShardEvent.withoutSweeps events) t) :=
  ⟨transcript_same (.of_purges (.refl _)) hclock hcheck ω ω',
    fun _ ht => transcript_same (.of_purges ht) hclock hcheck ω ω'⟩

end Runs

section Fixed

attribute [local instance] F64.whole CaseTable.identity HashOrder.arbitrary

/-- A value with a deadline that a sweep finds lapsed before it is read again. -/
def sweptRun : List ShardEvent :=
  [.tick 5, .command ⟨0⟩ (command ["set", "k", "v", "px", "10"]), .tick 20, .sweep 0 20,
    .command ⟨0⟩ (command ["get", "k"])]

theorem sweeps_unobservable_swept :
    List.Forall₂ Answered.Same
      (transcript (fun _ => .arbitrary Bytes) sweptRun (EngineShard.new : EngineShard Int))
      (transcript (fun _ => .arbitrary Bytes) (ShardEvent.withoutSweeps sweptRun)
        (EngineShard.new : EngineShard Int)) := by
  refine (sweeps_unobservable (F := Int) EngineShard.new sweptRun (by decide) ?_ _ _).1
  simp only [sweptRun, List.forall_mem_cons, List.not_mem_nil, false_imp_iff, implies_true,
    and_true, ShardEvent.Checking, true_and]
  refine ⟨fun name hname => ?_, fun name hname => ?_⟩
  · have h : commandName (command ["set", "k", "v", "px", "10"]) = .ok (ascii "SET") := by decide
    cases hname.symm.trans h
    decide
  · have h : commandName (command ["get", "k"]) = .ok (ascii "GET") := by decide
    cases hname.symm.trans h
    decide

end Fixed

/-! ## DEL, UNLINK and RENAME -/

/-- All lapsed keys have been removed from both tables. -/
structure Purged (s t : DbSlice F) : Prop where
  nowMs : t.nowMs = s.nowMs
  cell : ∀ a, t.cell a = (s.cell a).live s.nowMs

theorem exists_purged (s : DbSlice F) : ∃ t, Purged s t := by
  let gone (i : DbIndex) : List Bytes :=
    ((s.dbs i).expire.keys.filter fun k => (s.dbs i).lapsed s.nowMs k).toList
  refine ⟨{ s with dbs := fun i => (gone i).foldl DbTable.forget (s.dbs i) }, rfl, fun ⟨i, k⟩ => ?_⟩
  have hmem : k ∈ gone i ↔ (s.cell (i, k)).lapsed s.nowMs = true := by
    rw [Finset.mem_toList, Finset.mem_filter, Finmap.mem_keys, ← Finmap.lookup_isSome]
    refine ⟨fun h => h.2, fun h => ⟨?_, h⟩⟩
    cases hd : (s.dbs i).expire.lookup k with
    | none =>
      have hl : (s.dbs i).lapsed s.nowMs k = true := h
      rw [DbTable.lapsed, hd] at hl
      cases hl
    | some d => rfl
  rw [DbSlice.cell, DbTable.cell_foldl_forget, Cell.live]
  simp only [hmem]
  rfl

/-- Reply and live keys afterwards do not depend on whether the lapsed keys had been
removed before. -/
def BlindToLapsed (p : Command F Bytes) (s : DbSlice F) : Prop :=
  ∀ t, Purged s t → ∀ ω conn,
    (Program.run (step ω) p ⟨s, conn⟩).1 = (Program.run (step ω) p ⟨t, conn⟩).1 ∧
      ∀ a, ((Program.run (step ω) p ⟨s, conn⟩).2.slice.cell a).live s.nowMs =
        ((Program.run (step ω) p ⟨t, conn⟩).2.slice.cell a).live s.nowMs

/-- The key is in the prime table with a deadline that has passed. -/
def LapsedKey (s : DbSlice F) (i : DbIndex) (key : Bytes) : Prop :=
  (s.cell (i, key)).1.isSome = true ∧ (s.cell (i, key)).lapsed s.nowMs = true

theorem Purged.isSome_iff {s t : DbSlice F} (h : Purged s t) (i : DbIndex) (key : Bytes) :
    ((s.cell (i, key)).1.isSome = true → (t.cell (i, key)).1.isSome = true) ↔
    ¬LapsedKey s i key := by
  rw [h.cell, LapsedKey]
  rcases (s.cell (i, key)).live_cases s.nowMs with ⟨hl, he⟩ | ⟨hl, he⟩ <;> rw [hl, he]
  · simp [Cell.empty]
  · simp

variable {m m' : Addr → Cell F} {ctx : CommandContext}

theorem live_update {now : UInt64} (h : ∀ a, (m a).live now = (m' a).live now) (b : Addr)
    (c : Cell F) (a : Addr) : (update m b c a).live now = (update m' b c a).live now := by
  by_cases e : a = b
  · subst e
    rw [update_self, update_self]
  · rw [update_of_ne e, update_of_ne e]
    exact h a

theorem delWalk_live {now : UInt64} (h : ∀ a, (m a).live now = (m' a).live now) (i : DbIndex)
    (keys : List Bytes) (a : Addr) :
    ((delWalk i keys m).2 a).live now = ((delWalk i keys m').2 a).live now := by
  induction keys generalizing m m' with
  | nil => exact h a
  | cons key keys ih => exact ih (live_update h (i, key) Cell.empty)

/-- With some cells emptied before, a `DEL` finds no more keys, and as many only if
none of its keys was in such a cell. -/
theorem count_delWalk (h : ∀ a, m' a = m a ∨ m' a = Cell.empty) (i : DbIndex) (keys : List Bytes) :
    (delWalk i keys m').1.count true ≤ (delWalk i keys m).1.count true ∧
      ((delWalk i keys m).1.count true = (delWalk i keys m').1.count true ↔
        ∀ k ∈ keys, (m (i, k)).1.isSome = true → (m' (i, k)).1.isSome = true) := by
  induction keys generalizing m m' with
  | nil => exact ⟨le_rfl, (fun _ k hk => nomatch hk), fun _ => rfl⟩
  | cons key keys ih =>
    have hupdate : ∀ a, update m' (i, key) Cell.empty a = update m (i, key) Cell.empty a ∨
        update m' (i, key) Cell.empty a = Cell.empty := by
      intro a
      by_cases e : a = (i, key)
      · rw [e, update_self]
        exact .inr rfl
      · rw [update_of_ne e, update_of_ne e]
        exact h a
    obtain ⟨hle, hiff⟩ := ih hupdate
    -- what is asked of the other keys is the same before and after the first one is gone
    have hrest : (∀ k ∈ keys, (update m (i, key) Cell.empty (i, k)).1.isSome = true →
        (update m' (i, key) Cell.empty (i, k)).1.isSome = true) ↔
        ∀ k ∈ keys, k ≠ key → (m (i, k)).1.isSome = true → (m' (i, k)).1.isSome = true := by
      refine forall₂_congr fun k _ => ?_
      by_cases e : k = key
      · subst e
        simp [Cell.empty]
      · have hne : (i, k) ≠ (i, key) := fun he => e (Prod.mk.inj he).2
        simp [hne, e]
    rw [hrest] at hiff
    have hcons (m : Addr → Cell F) : (delWalk i (key :: keys) m).1.count true =
        (delWalk i keys (update m (i, key) Cell.empty)).1.count true +
          (if (m (i, key)).1.isSome then 1 else 0) := by
      change ((m (i, key)).1.isSome :: (delWalk i keys _).1).count true = _
      rw [List.count_cons]
      simp
    rw [hcons, hcons, List.forall_mem_cons]
    have hback : (m' (i, key)).1.isSome = true → (m (i, key)).1.isSome = true := by
      intro hsome
      rcases h (i, key) with heq | he
      · rwa [heq] at hsome
      · rw [he] at hsome
        cases hsome
    by_cases hkey : (m (i, key)).1.isSome = true → (m' (i, key)).1.isSome = true
    · have hsame : (m (i, key)).1.isSome = (m' (i, key)).1.isSome :=
        Bool.eq_iff_iff.mpr ⟨hkey, hback⟩
      rw [hsame, Nat.add_right_cancel_iff, hiff]
      refine ⟨Nat.add_le_add_right hle _, fun hall => ⟨fun hsome => hsome, fun k hk => ?_⟩,
        fun hall k hk _ => hall.2 k hk⟩
      by_cases e : k = key
      · subst e
        exact hkey
      · exact hall k hk e
    · obtain ⟨hsome, hnone⟩ := Classical.not_imp.mp hkey
      rw [Bool.not_eq_true] at hnone
      rw [hsome, hnone]
      refine ⟨Nat.add_le_add hle (by decide), fun heq => ?_, fun hall => ?_⟩
      · simp only [if_true, Bool.false_eq_true, if_false] at heq
        omega
      · exact absurd (hall.1 rfl) Bool.false_ne_true

theorem del_blind_iff {keys : List Bytes} (h : ctx.argsBytes 1 = some keys)
    (hlen : keys.length < 2 ^ 63) (s : DbSlice F) :
    BlindToLapsed (cmdDel ctx) s ↔ ∀ k ∈ keys, ¬LapsedKey s ctx.dbIndex k := by
  have hrun (s t : DbSlice F) (ht : Purged s t) (ω : Listing Bytes) (conn : ConnContext) :
      ((Program.run (step ω) (cmdDel ctx) ⟨s, conn⟩).1 =
          (Program.run (step ω) (cmdDel ctx) ⟨t, conn⟩).1 ↔
        ∀ k ∈ keys, ¬LapsedKey s ctx.dbIndex k) ∧
      ∀ a, ((Program.run (step ω) (cmdDel ctx) ⟨s, conn⟩).2.slice.cell a).live s.nowMs =
        ((Program.run (step ω) (cmdDel ctx) ⟨t, conn⟩).2.slice.cell a).live s.nowMs := by
    obtain ⟨y, hy, hcell, -⟩ := cmdDel_leaves (ω := ω) (x := ⟨s, conn⟩) h
    obtain ⟨y', hy', hcell', -⟩ := cmdDel_leaves (ω := ω) (x := ⟨t, conn⟩) h
    have hpurge : ∀ a, t.cell a = s.cell a ∨ t.cell a = Cell.empty := by
      intro a
      rw [ht.cell]
      rcases (s.cell a).live_cases s.nowMs with ⟨_, he⟩ | ⟨_, he⟩
      · exact .inr he
      · exact .inl he
    have hlive : ∀ a, (s.cell a).live s.nowMs = (t.cell a).live s.nowMs :=
      fun a => by rw [ht.cell, Cell.live_live]
    rw [hy, hy', hcell, hcell']
    refine ⟨?_, delWalk_live hlive ctx.dbIndex keys⟩
    have hbound (m : Addr → Cell F) : (delWalk ctx.dbIndex keys m).1.count true < 2 ^ 63 :=
      lt_of_le_of_lt (List.count_le_length.trans_eq (Walk.length_walk _ _ _ keys m)) hlen
    have hcount : sendInteger (countTrue (delWalk ctx.dbIndex keys s.cell).1) =
        sendInteger (countTrue (delWalk ctx.dbIndex keys t.cell).1) ↔
        (delWalk ctx.dbIndex keys s.cell).1.count true =
          (delWalk ctx.dbIndex keys t.cell).1.count true := by
      refine ⟨fun heq => ?_, fun heq => by rw [countTrue, heq]; rfl⟩
      have hint := congrArg Int64.toInt (sendInteger_injective heq)
      rw [countTrue, countTrue, Int64.toInt_ofNat_of_lt (hbound _),
        Int64.toInt_ofNat_of_lt (hbound _)] at hint
      exact Int.ofNat.inj hint
    rw [Option.some.injEq, hcount, (count_delWalk hpurge ctx.dbIndex keys).2]
    exact forall₂_congr fun k _ => ht.isSome_iff ctx.dbIndex k
  constructor
  · intro hblind
    obtain ⟨t, ht⟩ := exists_purged s
    exact (hrun s t ht (.arbitrary Bytes) ⟨0⟩).1.mp (hblind t ht (.arbitrary Bytes) ⟨0⟩).1
  · intro hkeys t ht ω conn
    exact ⟨(hrun s t ht ω conn).1.mpr hkeys, (hrun s t ht ω conn).2⟩

/-- The run of a `RENAME`. -/
theorem run_cmdRename {source dest : Bytes} (h1 : ctx.argBytes 1 = some source)
    (h2 : ctx.argBytes 2 = some dest) (ω : Listing Bytes) (s : DbSlice F) (conn : ConnContext) :
    Program.run (step ω) (cmdRename ctx) ⟨s, conn⟩ =
      (some (if (s.rename ctx.dbIndex source dest).1 then sendOk
        else sendErr (ascii "no such key")), ⟨(s.rename ctx.dbIndex source dest).2, conn⟩) := by
  have harg (n : Nat) (b : Bytes) (h : ctx.argBytes n = some b) :
      Command.arg (F := F) ctx n = pure b := by
    rw [Command.arg, h]
    rfl
  rw [cmdRename, harg 1 source h1, harg 2 dest h2]
  change Program.run (step ω) (if (s.rename ctx.dbIndex source dest).1 = true then _ else _) _ = _
  cases (s.rename ctx.dbIndex source dest).1 <;> rfl

theorem rename_blind_iff {source dest : Bytes} (h1 : ctx.argBytes 1 = some source)
    (h2 : ctx.argBytes 2 = some dest) (s : DbSlice F) :
    BlindToLapsed (cmdRename ctx) s ↔ ¬LapsedKey s ctx.dbIndex source := by
  constructor
  · rintro hblind ⟨hsome, hlapsed⟩
    obtain ⟨t, ht⟩ := exists_purged s
    obtain ⟨v, hv⟩ := Option.isSome_iff_exists.mp hsome
    have hgone : (t.cell (ctx.dbIndex, source)).1 = none := by
      rw [ht.cell, Cell.live_of_lapsed hlapsed]
      rfl
    have hreply := (hblind t ht (.arbitrary Bytes) ⟨0⟩).1
    rw [run_cmdRename h1 h2, run_cmdRename h1 h2, (s.rename_some ctx.dbIndex dest hv).1,
      (t.rename_none ctx.dbIndex dest hgone).1] at hreply
    have hne : some sendOk ≠ some (sendErr (ascii "no such key")) := by decide
    exact hne hreply
  · intro hkey t ht ω conn
    have hlive : ∀ a, (s.cell a).live s.nowMs = (t.cell a).live s.nowMs :=
      fun a => by rw [ht.cell, Cell.live_live]
    rw [run_cmdRename h1 h2, run_cmdRename h1 h2]
    cases hv : (s.cell (ctx.dbIndex, source)).1 with
    | none =>
      have hv' : (t.cell (ctx.dbIndex, source)).1 = none := by
        rw [ht.cell]
        rcases (s.cell (ctx.dbIndex, source)).live_cases s.nowMs with ⟨_, he⟩ | ⟨_, he⟩ <;> rw [he]
        · rfl
        · exact hv
      obtain ⟨hr, hc, -⟩ := s.rename_none ctx.dbIndex dest hv
      obtain ⟨hr', hc', -⟩ := t.rename_none ctx.dbIndex dest hv'
      rw [hr, hr', hc, hc']
      exact ⟨rfl, live_update hlive _ _⟩
    | some v =>
      have hl : (s.cell (ctx.dbIndex, source)).lapsed s.nowMs = false := by
        rw [LapsedKey, hv] at hkey
        simpa using hkey
      have hsame : t.cell (ctx.dbIndex, source) = s.cell (ctx.dbIndex, source) := by
        rw [ht.cell, Cell.live_of_not_lapsed hl]
      obtain ⟨hr, hc, -⟩ := s.rename_some ctx.dbIndex dest hv
      obtain ⟨hr', hc', -⟩ := t.rename_some ctx.dbIndex dest (hsame ▸ hv)
      rw [hr, hr', hc, hc', hsame]
      exact ⟨rfl, live_update (live_update hlive _ _) _ _⟩

/-- The three commands treat a lapsed key as absent exactly when no key they delete or
rename is still in the prime table with a deadline that has passed. -/
theorem blind_to_lapsed_iff [F64 F] [HashOrder] (s : DbSlice F) (e : CommandEntry F)
    (ctx : CommandContext) :
    (find (ascii "DEL") = some e ∨ find (ascii "UNLINK") = some e → ∀ keys,
      ctx.argsBytes 1 = some keys → keys.length < 2 ^ 63 →
        (BlindToLapsed (e.handler ctx) s ↔ ∀ k ∈ keys, ¬LapsedKey s ctx.dbIndex k)) ∧
    (find (ascii "RENAME") = some e → ∀ source dest, ctx.argBytes 1 = some source →
      ctx.argBytes 2 = some dest →
        (BlindToLapsed (e.handler ctx) s ↔ ¬LapsedKey s ctx.dbIndex source)) := by
  refine ⟨fun hfind keys hkeys hlen => ?_, fun hfind source dest h1 h2 => ?_⟩
  · rw [find_del, find_unlink] at hfind
    rcases hfind with hfind | hfind
    · cases hfind
      exact del_blind_iff hkeys hlen s
    · cases hfind
      exact del_blind_iff hkeys hlen s
  · rw [find_rename] at hfind
    cases hfind
    exact rename_blind_iff h1 h2 s

section Fixed

attribute [local instance] F64.whole HashOrder.arbitrary

/-- At time 10, the string `w` under `l`. -/
def sweptSlice : DbSlice Int :=
  ((DbSlice.new.updateTime 10).addOrUpdate 0 (ascii "l") (.string (ascii "w"))).2

/-- There is also the string `v` under `k`, with the deadline 5. -/
def lapsedSlice : DbSlice Int :=
  (sweptSlice.addOrUpdate 0 (ascii "k") (.string (ascii "v"))).2.addExpire 0 (ascii "k") 5

theorem purged_lapsedSlice : Purged lapsedSlice sweptSlice := by
  have hput (s : DbSlice Int) (key v : Bytes) : (s.addOrUpdate 0 key (.string v)).2.cell =
      update s.cell (0, key) (some (.string v), (s.cell (0, key)).2) :=
    (DbOp.apply_target (o := .addOrUpdate 0 key (.string v)) rfl (.arbitrary Bytes) s).2.1
  have hswept : sweptSlice.cell = update (DbSlice.new.updateTime 10 : DbSlice Int).cell
      (0, ascii "l") (some (.string (ascii "w")), none) := hput _ _ _
  have hlapsed : lapsedSlice.cell = update sweptSlice.cell (0, ascii "k")
      (some (.string (ascii "v")), some 5) := by
    rw [lapsedSlice, (DbSlice.addExpire_spec _ 0 (ascii "k") 5).1, hput, update_idem,
      update_self]
    rfl
  refine ⟨rfl, fun a => ?_⟩
  change _ = Cell.live 10 (lapsedSlice.cell a)
  rw [hlapsed, hswept]
  by_cases hk : a = (0, ascii "k")
  · subst hk
    rw [update_self, update_of_ne (by decide)]
    rfl
  · rw [update_of_ne hk]
    by_cases hl : a = (0, ascii "l")
    · subst hl
      rw [update_self]
      rfl
    · rw [update_of_ne hl]
      rfl

/-- Next to the lapsed `k`, `RENAME` of `l` is blind to it; `DEL` of both is not. -/
theorem blind_to_lapsed_iff_lapsedSlice :
    BlindToLapsed (cmdRename ⟨command ["rename", "l", "m"], 0⟩) lapsedSlice ∧
      ¬BlindToLapsed (cmdDel ⟨command ["del", "l", "k"], 0⟩) lapsedSlice := by
  have hk : LapsedKey lapsedSlice 0 (ascii "k") := ⟨rfl, rfl⟩
  have hl : ¬LapsedKey lapsedSlice 0 (ascii "l") := by
    rintro ⟨-, ⟨⟩⟩
  have hrename := (blind_to_lapsed_iff lapsedSlice ⟨ascii "RENAME", cmdRename, 3, 1⟩
    ⟨command ["rename", "l", "m"], 0⟩).2 find_rename (ascii "l") (ascii "m") rfl rfl
  have hdel := (blind_to_lapsed_iff lapsedSlice ⟨ascii "DEL", cmdDel, -2, 1⟩
    ⟨command ["del", "l", "k"], 0⟩).1 (.inl find_del) [ascii "l", ascii "k"] rfl (by decide)
  exact ⟨hrename.mpr hl, fun h => hdel.mp h (ascii "k") (by decide) hk⟩

/-- A lapsed key that has not been swept is counted by `DEL`, and `RENAME` moves it over
a live key, which is lost. -/
theorem lapsed_key_counted_and_renamed :
    Purged lapsedSlice sweptSlice ∧
      (Program.run (step (.arbitrary Bytes)) (cmdDel ⟨command ["del", "k"], 0⟩)
        ⟨lapsedSlice, ⟨0⟩⟩).1 = some (sendInteger 1) ∧
      (Program.run (step (.arbitrary Bytes)) (cmdDel ⟨command ["del", "k"], 0⟩)
        ⟨sweptSlice, ⟨0⟩⟩).1 = some (sendInteger 0) ∧
      (Program.run (step (.arbitrary Bytes)) (cmdRename ⟨command ["rename", "k", "l"], 0⟩)
        ⟨lapsedSlice, ⟨0⟩⟩).1 = some sendOk ∧
      (Program.run (step (.arbitrary Bytes)) (cmdRename ⟨command ["rename", "k", "l"], 0⟩)
        ⟨sweptSlice, ⟨0⟩⟩).1 = some (sendErr (ascii "no such key")) ∧
      (((Program.run (step (.arbitrary Bytes)) (cmdRename
        ⟨command ["rename", "k", "l"], 0⟩) ⟨lapsedSlice, ⟨0⟩⟩).2.slice.cell (0, ascii "l")).live
          10).1.isSome = false ∧
      (((Program.run (step (.arbitrary Bytes)) (cmdRename
        ⟨command ["rename", "k", "l"], 0⟩) ⟨sweptSlice, ⟨0⟩⟩).2.slice.cell (0, ascii "l")).live
          10).1.isSome = true := by
  exact ⟨purged_lapsedSlice, by decide, by decide, by decide,
    by decide, by decide, by decide⟩

end Fixed

end ShrikeDb
