import ShrikeDb.Server.Demands
import ShrikeDb.Server.Routing

/-! The shards together: their contents as one keyspace, and the outcome of a plan
that is carried out on them at one value of the clock, whatever order its parts are
run and awaited in. -/

namespace ShrikeDb

open CommandRegistry Sharding Function

abbrev Cluster (F : Type) (n : Nat) := Fin n → EngineShard F

theorem neZeroTwo : NeZero 2 := inferInstance

namespace Cluster

variable {F : Type} {n : Nat}

/-- Every key lives on the shard it hashes to. -/
def Placed [NeZero n] (c : Cluster F n) : Prop :=
  ∀ s a, (c s).dbSlice.cell a ≠ Cell.empty → shard a.2 n = s

/-- The tables of a list of shards thrown together. -/
def merged (c : Cluster F n) (i : DbIndex) : List (Fin n) → DbTable F
  | [] => DbTable.new
  | s :: rest =>
    ⟨((c s).dbSlice.dbs i).prime ∪ (merged c i rest).prime,
      ((c s).dbSlice.dbs i).expire ∪ (merged c i rest).expire⟩

/-- The union of the shards, at the given time. -/
def union (c : Cluster F n) (now : UInt64) :
    DbSlice F := ⟨fun i => merged c i (List.finRange n), now⟩

theorem lookup_union {β : Bytes → Type} (f g : Finmap β) (k : Bytes) :
    (f ∪ g).lookup k = if (f.lookup k).isSome then f.lookup k else g.lookup k := by
  by_cases hk : k ∈ f
  · rw [Finmap.lookup_union_left hk, if_pos (Finmap.lookup_isSome.mpr hk)]
  · rw [Finmap.lookup_union_right hk, if_neg fun h => hk (Finmap.lookup_isSome.mp h)]

/-- If all other shards hold nothing for a key, its cell is that of its own shard. -/
theorem cell_merged {c : Cluster F n} {i : DbIndex} {k : Bytes} (owner : Fin n)
    (shards : List (Fin n)) (h : ∀ s ≠ owner, (c s).dbSlice.cell (i, k) = Cell.empty) :
    (merged c i shards).cell k = if owner ∈ shards then (c owner).dbSlice.cell (i, k)
      else Cell.empty := by
  induction shards with
  | nil => rfl
  | cons s rest ih =>
    have hcell : (merged c i (s :: rest)).cell k =
        (if ((c s).dbSlice.cell (i, k)).1.isSome then ((c s).dbSlice.cell (i, k)).1
            else ((merged c i rest).cell k).1,
          if ((c s).dbSlice.cell (i, k)).2.isSome then ((c s).dbSlice.cell (i, k)).2
            else ((merged c i rest).cell k).2) :=
      Prod.ext (lookup_union _ _ k) (lookup_union _ _ k)
    rw [hcell, ih]
    by_cases hs : s = owner
    · subst hs
      rw [if_pos List.mem_cons_self]
      generalize (c s).dbSlice.cell (i, k) = cell
      obtain ⟨v, d⟩ := cell
      by_cases hr : s ∈ rest
      · rw [if_pos hr]
        cases v <;> cases d <;> rfl
      · rw [if_neg hr]
        cases v <;> cases d <;> rfl
    · have hmem : owner ∈ s :: rest ↔ owner ∈ rest := by
        rw [List.mem_cons, or_iff_right fun e : owner = s => hs e.symm]
      rw [h s hs]
      simp only [hmem]
      rfl

theorem cell_union [NeZero n] {c : Cluster F n} (h : c.Placed) (now : UInt64) (a : Addr) :
    (c.union now).cell a = (c (shard a.2 n)).dbSlice.cell a := by
  refine (cell_merged (shard a.2 n) (List.finRange n) fun s hs => ?_).trans ?_
  · by_contra hne
    exact hs (h s a hne).symm
  · rw [if_pos (List.mem_finRange _)]

/-! ## Carrying out a plan -/

variable [F64 F] [HashOrder] [CaseTable]

/-- A command is run on its shard at time `now`; `ω` is the order its table is
iterated in. -/
def execOne (now : UInt64) (i : DbIndex) (c : Cluster F n) (sub : Sub n) (ω : Listing Bytes) :
    Dispatched F :=
  dispatch ω sub.args ⟨i⟩ ((c sub.target).updateTime now)

/-- The replies by shard, and the shards afterwards. -/
def execAll (now : UInt64) (i : DbIndex) :
    List (Sub n × Listing Bytes) → Cluster F n → (Fin n → Option Bytes) × Cluster F n
  | [], c => (fun _ => none, c)
  | (sub, ω) :: rest, c =>
    let out := execOne now i c sub ω
    let after := execAll now i rest (update c sub.target out.shard)
    (update after.1 sub.target out.reply, after.2)

/-- Parts for different shards do not disturb each other: each finds its shard as it
was at the start. -/
theorem execAll_spec (now : UInt64) (i : DbIndex) {parts : List (Sub n × Listing Bytes)}
    (hnodup : (parts.map fun p => p.1.target).Nodup) (c : Cluster F n) :
    (∀ p ∈ parts, (execAll now i parts c).1 p.1.target = (execOne now i c p.1 p.2).reply ∧
        (execAll now i parts c).2 p.1.target = (execOne now i c p.1 p.2).shard) ∧
      ∀ s, (∀ p ∈ parts, p.1.target ≠ s) → (execAll now i parts c).2 s = c s := by
  induction parts generalizing c with
  | nil => exact ⟨(fun p hp => nomatch hp), fun s _ => rfl⟩
  | cons part parts ih =>
    obtain ⟨sub, ω⟩ := part
    obtain ⟨hsub, hrest⟩ := List.nodup_cons.mp hnodup
    have hne : ∀ p ∈ parts, p.1.target ≠ sub.target :=
      fun p hp e => hsub (List.mem_map.mpr ⟨p, hp, e⟩)
    obtain ⟨hparts, hframe⟩ := ih hrest (update c sub.target (execOne now i c sub ω).shard)
    rw [execAll]
    refine ⟨fun p hp => ?_, fun s hs => ?_⟩
    · rcases List.mem_cons.mp hp with rfl | hp
      · dsimp only
        rw [update_self, hframe sub.target hne, update_self]
        exact ⟨rfl, rfl⟩
      · have hone : execOne now i (update c sub.target (execOne now i c sub ω).shard) p.1 p.2 =
            execOne now i c p.1 p.2 := by
          rw [execOne, update_of_ne (hne p hp)]
          rfl
        dsimp only
        rw [update_of_ne (hne p hp), ← hone]
        exact hparts p hp
    · have hs' : s ≠ sub.target := fun e => hs (sub, ω) List.mem_cons_self e.symm
      dsimp only
      rw [hframe s fun p hp => hs p (List.mem_cons_of_mem _ hp), update_of_ne hs']

/-- What can come of a plan: the reply and the shards afterwards. -/
inductive Outcome (now : UInt64) (i : DbIndex) (c : Cluster F n) : Plan n → Bytes → Cluster F n →
    Prop
  | reply (data : Bytes) (keepAlive : Bool) : Outcome now i c (.reply data keepAlive) data c
  | run {target : Fin n} {args : List RespExpr} {ω : Listing Bytes} {data : Bytes}
      (h : (execOne now i c ⟨target, args, []⟩ ω).reply = some data) :
      Outcome now i c (.run target args) data
        (update c target (execOne now i c ⟨target, args, []⟩ ω).shard)
  /-- The replies are awaited in the order `awaited`, after the parts have been run in
  the order of `ran`. -/
  | fan {subs awaited : List (Sub n)} {ran : List (Sub n × Listing Bytes)} {merge : Merge n}
      (hawaited : awaited.Perm subs) (hran : (ran.map Prod.fst).Perm subs) :
      Outcome now i c (.fan subs merge)
        (merge.apply (awaited.map fun sub => (sub, (execAll now i ran c).1 sub.target)))
        (execAll now i ran c).2

end Cluster

/-- The registry accepts the command and runs its handler. -/
def Accepts (F : Type) [F64 F] [HashOrder] [CaseTable] (args : List RespExpr) : Prop :=
  ∃ e : CommandEntry F, resolve args = .run e

/-- All commands a plan sends to shards are accepted there. -/
def Plan.Accepted (F : Type) [F64 F] [HashOrder] [CaseTable] {n : Nat} : Plan n → Prop
  | .run _ args => Accepts F args
  | .fan subs _ => ∀ sub ∈ subs, Accepts F sub.args
  | _ => True

end ShrikeDb
