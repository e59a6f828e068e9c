import ShrikeDb.Server.Arity
import ShrikeDb.Server.FanOut

/-! What an acknowledged `MSET` is worth. The dispatcher replies OK whatever becomes of
the parts it sends to the shards: a part that never reaches its shard, or that the
registry of the shard refuses because its number of words does not fit the `i16` it is
compared as, leaves its keys as they were. -/

namespace ShrikeDb

open CommandRegistry Sharding ReplyBuilder Walk ShardThread List

variable {F : Type} {n : Nat} [NeZero n]

/-! ## Values listed for a key -/

/-- The value listed last for a key. -/
def lastListed (pairs : List (Bytes × Bytes)) (k : Bytes) : Option Bytes :=
  (pairs.reverse.find? fun p => p.1 = k).map Prod.snd

theorem lastListed_cons (p : Bytes × Bytes) (pairs : List (Bytes × Bytes)) (k : Bytes) :
    lastListed (p :: pairs) k =
      (lastListed pairs k).or (if p.1 = k then some p.2 else none) := by
  rw [lastListed, reverse_cons, find?_append, lastListed]
  cases pairs.reverse.find? fun p => p.1 = k with
  | some q => rfl
  | none =>
    by_cases hk : p.1 = k <;> simp [hk]

variable (i : DbIndex)

theorem msetWalk_cell (pairs : List (Bytes × Bytes)) (m : Addr → Cell F) (k : Bytes) :
    (msetWalk i pairs m).2 (i, k) =
      ((lastListed pairs k).map fun v => (some (.fromBytes v), none)).getD (m (i, k)) := by
  induction pairs generalizing m with
  | nil => rfl
  | cons p pairs ih =>
    rw [msetWalk, walk]
    refine (ih _).trans ?_
    rw [lastListed_cons]
    cases lastListed pairs k with
    | some v => rfl
    | none =>
      by_cases hk : p.1 = k
      · subst hk
        simp
      · have hne : ((i, k) : Addr) ≠ (i, p.1) := fun e => hk (Prod.mk.inj e).2.symm
        simp [hk, hne]

/-- The keys of one shard have their last values in the share of that shard. -/
theorem lastListed_share (pairs : List (Bytes × Bytes)) (k : Bytes) :
    lastListed (share (fun p : Bytes × Bytes => ((i, p.1) : Addr)) (owner n) (shard k n) pairs) k =
      lastListed pairs k := by
  induction pairs with
  | nil => rfl
  | cons p pairs ih =>
    rw [share, filter_cons]
    split
    · rw [lastListed_cons, lastListed_cons, ← ih]
      rfl
    · rename_i hown
      have hk : p.1 ≠ k := fun e => hown (decide_eq_true (by rw [owner, e]))
      rw [lastListed_cons, if_neg hk, Option.or_none]
      exact ih

theorem stringAt_fromBytes (now : UInt64) (v : Bytes) :
    stringAt now ((some (.fromBytes v), none) : Cell F) = some v := by
  simp [stringAt, Cell.live, Cell.lapsed]

/-- Every listed key is on the shard of one part. -/
theorem exists_part (head : RespExpr) {words : List Bytes} {k v : Bytes}
    (h : lastListed (Command.pairUp words) k = some v) :
    ∃ sub ∈ splitMset n (head :: words.map RespExpr.string), sub.target = shard k n := by
  obtain ⟨p, hfind, -⟩ := Option.map_eq_some_iff.mp h
  have hmem : p ∈ Command.pairUp words := mem_reverse.mp (mem_of_find?_eq_some hfind)
  have hfound := find?_some hfind
  have hkey : p.1 = k := of_decide_eq_true hfound
  rw [splitMset_eq]
  have hgroup : shard k n ∈ (Grouping.group (fun p : RespExpr × RespExpr => shard p.1.bytes n)
      ((Command.pairUp words).map (Prod.map RespExpr.string RespExpr.string))).map Prod.fst :=
    Grouping.mem_map_fst_group.mpr ⟨_, mem_map_of_mem hmem, congrArg (fun k => shard k n) hkey⟩
  obtain ⟨g, hg, htarget⟩ := mem_map.mp hgroup
  exact ⟨_, mem_map_of_mem hg, htarget⟩

theorem nodup_splitMset (args : List RespExpr) : ((splitMset n args).map Sub.target).Nodup := by
  rw [splitMset, map_map]
  exact Grouping.nodup_group _ _

/-! ## Parts that may fail -/

section Parts

variable [F64 F] [HashOrder] [CaseTable]

/-- What becomes of one part of a split command. -/
inductive Fate
  /-- The shard dispatches the part at time `now`. -/
  | handled (ω : Listing Bytes) (now : UInt64)
  /-- The task channel is closed. -/
  | channelClosed
  /-- The task is dropped with the queue it waits in, and its reply channel with it. -/
  | replyDropped

namespace Fate

def reply (sub : Sub n) (sh : EngineShard F) : Fate → Option Bytes
  | handled ω now => (dispatch ω sub.args ⟨i⟩ (sh.updateTime now)).reply
  | channelClosed => none
  | replyDropped => none

/-- The shard afterwards. -/
def after (sub : Sub n) (sh : EngineShard F) : Fate → EngineShard F
  | handled ω now => (dispatch ω sub.args ⟨i⟩ (sh.updateTime now)).shard
  | channelClosed => sh
  | replyDropped => sh

end Fate

/-- The shards after all parts have met their fates. -/
def deliver (parts : List (Sub n × Fate)) (c : Cluster F n) : Cluster F n :=
  parts.foldl (fun c p => Function.update c p.1.target (p.2.after i p.1 (c p.1.target))) c

/-- What can come of a plan that replies or splits when its parts meet the given fates; the
parts have different shards and are awaited in any order. -/
inductive Plan.Ends (i : DbIndex) (c : Cluster F n) :
    Plan n → List (Sub n × Fate) → Bytes → Cluster F n → Prop
  | reply (data : Bytes) (keepAlive : Bool) : Ends i c (.reply data keepAlive) [] data c
  | fan {subs : List (Sub n)} {merge : Merge n} {parts awaited : List (Sub n × Fate)}
      (hparts : (parts.map Prod.fst).Perm subs) (hawaited : awaited.Perm parts) :
      Ends i c (.fan subs merge) parts
        (merge.apply (awaited.map fun p => (p.1, p.2.reply i p.1 (c p.1.target))))
          (deliver i parts c)

/-! ## The parts of an MSET -/

/-- The owning shard holds the value for the key at time `now`. -/
def Holds (now : UInt64) (i : DbIndex) (c : Cluster F n) (k v : Bytes) : Prop :=
  stringAt now ((c (shard k n)).dbSlice.cell (i, k)) = some v

/-- The part reaches its shard with a number of words that the registry accepts. -/
def executed (p : Sub n × Fate) : Bool :=
  match p.2 with
  | .handled _ _ => arityOk (-3) p.1.args.length
  | _ => false

theorem resolve_mset (rest : List RespExpr) : resolve (F := F) (.string (ascii "MSET") :: rest) =
    if arityOk (-3) (rest.length + 1) then .run ⟨ascii "MSET", StringFamily.cmdMset, -3, 1⟩
    else .reply (wrongNumber (ascii "MSET")) true := by
  rw [resolve_of_find rfl find_mset]
  rfl

variable {head : RespExpr} {words : List Bytes}

/-- An executed part writes the last values of its keys, any other part writes nothing. -/
theorem part_cell {p : Sub n × Fate} (hp : p.1 ∈ splitMset n (head :: words.map RespExpr.string))
    (i : DbIndex) (sh : EngineShard F) {k : Bytes} (hk : shard k n = p.1.target) :
    (p.2.after i p.1 sh).dbSlice.cell (i, k) =
      if executed p then
        ((lastListed (Command.pairUp words) k).map fun v => (some (.fromBytes v), none)).getD
          (sh.dbSlice.cell (i, k))
      else sh.dbSlice.cell (i, k) := by
  obtain ⟨sub, fate⟩ := p
  cases fate with
  | channelClosed => rfl
  | replyDropped => rfl
  | handled ω now =>
    rw [splitMset_eq] at hp
    obtain ⟨⟨s, as⟩, hmem, rfl⟩ := mem_map.mp hp
    have has : as = (share (fun p : Bytes × Bytes => ((i, p.1) : Addr)) (owner n) s
        (Command.pairUp words)).map (Prod.map RespExpr.string RespExpr.string) := by
      rw [(Grouping.mem_group.mp hmem).1, filter_map]
      rfl
    subst has
    dsimp only [executed, Fate.after] at hk ⊢
    subst hk
    generalize hown : share (fun p : Bytes × Bytes => ((i, p.1) : Addr)) (owner n) (shard k n)
      (Command.pairUp words) = own
    by_cases hacc : arityOk (-3) (RespExpr.string (ascii "MSET") ::
        (own.map (Prod.map RespExpr.string RespExpr.string)).flatMap fun q => [q.1, q.2]).length =
          true
    · have hdoes := msetPart_does (i := i) (F := F) ⟨_, (resolve_mset _).trans (if_pos hacc)⟩ ω
        (sh.updateTime now)
      refine Eq.trans ?_ (if_pos hacc).symm
      rw [hdoes.2, msetWalk_cell, ← hown, lastListed_share]
      rfl
    · refine Eq.trans ?_ (if_neg hacc).symm
      rw [dispatch, (resolve_mset _).trans (if_neg hacc)]
      rfl

/-- A key after the parts are done: written if its part was executed, as before if not. -/
theorem deliver_cell {parts : List (Sub n × Fate)}
    (hparts : (parts.map Prod.fst).Perm (splitMset n (head :: words.map RespExpr.string)))
    (i : DbIndex) (c : Cluster F n) {p : Sub n × Fate} (hp : p ∈ parts) {k v : Bytes}
    (hk : shard k n = p.1.target) (hlast : lastListed (Command.pairUp words) k = some v) :
    (deliver i parts c (shard k n)).dbSlice.cell (i, k) =
      if executed p then (some (.fromBytes v), none) else (c (shard k n)).dbSlice.cell (i, k) := by
  have hnodup : (parts.map fun p => p.1.target).Nodup := by
    have hperm := hparts.map Sub.target
    rw [map_map] at hperm
    exact hperm.nodup_iff.mpr (nodup_splitMset _)
  have hafter := (foldl_update_spec (fun p : Sub n × Fate => p.1.target)
    (fun p sh => p.2.after i p.1 sh) hnodup c).1 p hp
  have hcell := part_cell (hparts.mem_iff.mp (mem_map_of_mem hp)) i (c (shard k n)) hk
  rw [hlast] at hcell
  rw [hk] at hcell ⊢
  rw [deliver, hafter]
  exact hcell

theorem dispatchMset_ok {plan : Plan n} {i : DbIndex} {c c' : Cluster F n}
    {parts : List (Sub n × Fate)}
    (hplan : plan = dispatchMset (ascii "MSET") (head :: words.map RespExpr.string) ∨
      plan = MainService.dispatchMset (ascii "MSET") (head :: words.map RespExpr.string))
    (h : plan.Ends i c parts sendOk c') :
    (parts.map Prod.fst).Perm (splitMset n (head :: words.map RespExpr.string)) ∧
      c' = deliver i parts c := by
  have hname : ascii "MSET" ≠ ascii "MSETNX" := by decide
  have hcases : plan = .reply (wrongNumber (ascii "MSET")) true ∨
      plan = .fan (splitMset n (head :: words.map RespExpr.string)) .ok := by
    rcases hplan with rfl | rfl
    · rw [dispatchMset, if_neg hname]
      split
      · exact Or.inl rfl
      · exact Or.inr rfl
    · rw [MainService.dispatchMset, if_neg hname]
      split
      · exact Or.inl rfl
      · exact Or.inr rfl
  rcases hcases with rfl | rfl
  · generalize hok : sendOk = reply at h
    cases h
    have herror : isError sendOk = isError (wrongNumber (ascii "MSET")) := congrArg isError hok
    cases herror
  · generalize hok : sendOk = reply at h
    cases h with
    | fan hparts hawaited => exact ⟨hparts, rfl⟩

/-- An acknowledged `MSET` has been applied exactly when every part that was not executed
lists only keys that held their last listed value already. -/
theorem acknowledged_mset_applied_iff (head : RespExpr) (words : List Bytes) (plan : Plan n)
    (hplan : plan = dispatchMset (ascii "MSET") (head :: words.map RespExpr.string) ∨
      plan = MainService.dispatchMset (ascii "MSET") (head :: words.map RespExpr.string))
    (i : DbIndex) (c c' : Cluster F n) (parts : List (Sub n × Fate))
    (h : plan.Ends i c parts sendOk c') (now : UInt64) :
    (∀ k v, lastListed (Command.pairUp words) k = some v → Holds now i c' k v) ↔
      ∀ p ∈ parts, executed p = false → ∀ k v, lastListed (Command.pairUp words) k = some v →
        shard k n = p.1.target → Holds now i c k v := by
  obtain ⟨hparts, rfl⟩ := dispatchMset_ok hplan h
  constructor
  · intro hall p hp hnot k v hlast hk
    have hheld := hall k v hlast
    rw [Holds, deliver_cell hparts i c hp hk hlast, hnot] at hheld
    exact hheld
  · intro hcond k v hlast
    obtain ⟨sub, hsub, htarget⟩ := exists_part (n := n) head hlast
    obtain ⟨p, hp, rfl⟩ := mem_map.mp (hparts.mem_iff.mpr hsub)
    rw [Holds, deliver_cell hparts i c hp htarget.symm hlast]
    cases hexec : executed p with
    | true => exact stringAt_fromBytes now v
    | false => exact hcond p hp hexec k v hlast htarget.symm

end Parts

section Fixed

attribute [local instance] F64.whole CaseTable.identity HashOrder.arbitrary

theorem dispatchMset_pairs (head : RespExpr) (pairs : List (Bytes × Bytes)) :
    dispatchMset (n := 2) (ascii "MSET")
      (head :: (pairs.flatMap fun q => [q.1, q.2]).map RespExpr.string) =
        .fan (splitMset 2 (head :: (pairs.flatMap fun q => [q.1, q.2]).map RespExpr.string))
          .ok := by
  have hname : ascii "MSET" ≠ ascii "MSETNX" := by decide
  have heven : ((head :: (pairs.flatMap fun q => [q.1, q.2]).map RespExpr.string).length - 1) % 2 =
      0 := by
    rw [length_cons, length_map, length_flatten_pairs]
    omega
  rw [dispatchMset, if_neg hname, if_neg (not_not.mpr heven)]

/-- Two keys of different shards, listed 16384 and 16385 times. -/
def manyPairs : List (Bytes × Bytes) :=
  replicate 16384 (ascii "k", ascii "v") ++ replicate 16385 (ascii "d", ascii "v")

theorem length_manyPairs : (manyPairs.flatMap fun q => [q.1, q.2]).length = 65538 := by
  rw [length_flatten_pairs, manyPairs, length_append, length_replicate, length_replicate]

theorem manyPairs_refused {p : Sub 2 × Fate} (hp : p.1 ∈ splitMset 2
    (.string (ascii "MSET") :: (manyPairs.flatMap fun q => [q.1, q.2]).map RespExpr.string)) :
    executed p = false := by
  obtain ⟨sub, fate⟩ := p
  rw [splitMset_eq, pairUp_flatten] at hp
  obtain ⟨⟨s, as⟩, hmem, rfl⟩ := mem_map.mp hp
  obtain ⟨has, hne⟩ := Grouping.mem_group.mp hmem
  have haway : shard (ascii "k") 2 ≠ shard (ascii "d") 2 := by decide
  -- each part lists one of the keys, and as an `i16` its number of words is negative
  have hlen : (RespExpr.string (ascii "MSET") :: as.flatMap fun q => [q.1, q.2]).length = 32769 ∨
      (RespExpr.string (ascii "MSET") :: as.flatMap fun q => [q.1, q.2]).length = 32771 := by
    rw [length_cons, length_flatten_pairs]
    rw [manyPairs, map_append, map_replicate, map_replicate, filter_append,
      filter_replicate, filter_replicate] at has
    change as = (if decide (shard (ascii "k") 2 = s) = true then _ else []) ++
      (if decide (shard (ascii "d") 2 = s) = true then _ else []) at has
    by_cases hk : shard (ascii "k") 2 = s
    · have hd : shard (ascii "d") 2 ≠ s := fun h => haway (hk.trans h.symm)
      rw [if_pos (decide_eq_true hk), if_neg (fun h => hd (of_decide_eq_true h)), append_nil] at has
      rw [has, length_replicate]
      exact .inl rfl
    · rw [if_neg (fun h => hk (of_decide_eq_true h)), nil_append] at has
      split at has
      · rw [has, length_replicate]
        exact .inr rfl
      · exact absurd has hne
  cases fate with
  | channelClosed => rfl
  | replyDropped => rfl
  | handled ω now =>
    rcases hlen with hlen | hlen
    · exact (congrArg (arityOk (-3)) hlen).trans (by decide)
    · exact (congrArg (arityOk (-3)) hlen).trans (by decide)

/-- The 65539 words pass the check of the dispatcher, which takes them for three. Every part
reaches its shard and the reply is OK, but nothing has been written: the registry of each shard
takes its part for a negative number of words. -/
theorem refused_mset_acknowledged : ∃ (words : List Bytes) (parts : List (Sub 2 × Fate))
    (c' : Cluster Int 2), words.length = 65538 ∧
    (dispatchCommand Int 0
      (.string (ascii "MSET") :: words.map RespExpr.string)).Ends 0 (fun _ => EngineShard.new) parts
        sendOk c' ∧
      (∀ p ∈ parts, ∃ ω now, p.2 = .handled ω now) ∧
      lastListed (Command.pairUp words) (ascii "k") = some (ascii "v") ∧
      ¬ Holds 0 0 c' (ascii "k") (ascii "v") := by
  let words := manyPairs.flatMap fun q => [q.1, q.2]
  let subs := splitMset 2 (.string (ascii "MSET") :: words.map RespExpr.string)
  let parts : List (Sub 2 × Fate) := subs.map fun sub => (sub, .handled (.arbitrary Bytes) 0)
  have hfst : parts.map Prod.fst = subs := by
    rw [map_map]
    exact map_id _
  have hlast : lastListed (Command.pairUp words) (ascii "k") = some (ascii "v") := by
    rw [pairUp_flatten, lastListed, manyPairs, reverse_append, find?_append,
      reverse_replicate, reverse_replicate, find?_replicate, find?_replicate,
      if_neg (by decide), if_neg (by decide), if_neg (by decide), if_pos (by decide)]
    rfl
  have harity : arityOk (-3) (RespExpr.string (ascii "MSET") :: words.map RespExpr.string).length =
      true := by
    rw [length_cons, length_map, length_manyPairs]
    decide
  have hplan : dispatchCommand Int (0 : Fin 2)
      (.string (ascii "MSET") :: words.map RespExpr.string) = .fan subs .ok := by
    have hclass : classifyCommand (ascii "MSET") 1 = .mSet := by decide
    rw [dispatchCommand_of_find 0 find_mset (commandName_of_find (F := Int) find_mset _)
      (by decide), if_pos harity, route, hclass]
    exact dispatchMset_pairs _ manyPairs
  refine ⟨words, parts, deliver 0 parts fun _ => EngineShard.new, length_manyPairs, ?_, ?_, hlast,
    ?_⟩
  · rw [hplan]
    exact .fan (by rw [hfst]) (.refl _)
  · intro p hp
    obtain ⟨sub, -, rfl⟩ := mem_map.mp hp
    exact ⟨_, _, rfl⟩
  · obtain ⟨sub, hsub, htarget⟩ := exists_part (n := 2) (.string (ascii "MSET")) hlast
    rw [Holds, deliver_cell (by rw [hfst]) 0 _ (mem_map_of_mem hsub) htarget.symm hlast,
      manyPairs_refused hsub]
    exact Option.some_ne_none _ ∘ Eq.symm

/-- A shard that holds `w` for `d`. -/
noncomputable def holdsD : EngineShard Int :=
  ⟨(DbSlice.new.addOrUpdate 0 (ascii "d") (.fromBytes (ascii "w"))).2, 0⟩

/-- The part of `k` is executed, that of `d` does not reach its shard. -/
noncomputable def halfDelivered : List (Sub 2 × Fate) :=
  [(⟨shard (ascii "k") 2, command ["MSET", "k", "v"], []⟩, .handled (.arbitrary Bytes) 5),
    (⟨shard (ascii "d") 2, command ["MSET", "d", "w"], []⟩, .channelClosed)]

/-- `d` has held its value before. -/
theorem acknowledged_mset_applied_half : ∃ c' : Cluster Int 2,
    (dispatchMset (ascii "MSET") (command ["MSET", "k", "v", "d", "w"])).Ends 0
      (fun _ => holdsD) halfDelivered sendOk c' ∧
    Holds 5 0 c' (ascii "k") (ascii "v") ∧ Holds 5 0 c' (ascii "d") (ascii "w") := by
  have hplan : dispatchMset (ascii "MSET") (command ["MSET", "k", "v", "d", "w"]) =
      .fan (splitMset 2 (command ["MSET", "k", "v", "d", "w"])) .ok :=
    dispatchMset_pairs _ [(ascii "k", ascii "v"), (ascii "d", ascii "w")]
  have hends : (dispatchMset (ascii "MSET") (command ["MSET", "k", "v", "d", "w"])).Ends 0
      (fun _ => holdsD) halfDelivered sendOk (deliver 0 halfDelivered fun _ => holdsD) := by
    rw [hplan]
    exact .fan (.refl _) (.refl _)
  have hall := (acknowledged_mset_applied_iff _ [ascii "k", ascii "v", ascii "d", ascii "w"] _
    (.inl rfl) 0 _ _ _ hends 5).mpr ?_
  · exact ⟨_, hends, hall _ _ (by decide), hall _ _ (by decide)⟩
  · intro p hp hnot k v hlast hk
    rcases mem_pair.mp hp with rfl | rfl
    · cases hnot
    · have haway : shard (ascii "k") 2 ≠ shard (ascii "d") 2 := by decide
      have hkey : k ≠ ascii "k" := fun h => haway (h ▸ hk)
      have hpairs : lastListed (Command.pairUp [ascii "k", ascii "v", ascii "d", ascii "w"]) k =
          if ascii "d" = k then some (ascii "w") else none := by
        simp only [Command.pairUp, lastListed_cons, if_neg hkey.symm, Option.or_none]
        rfl
      rw [hpairs] at hlast
      split at hlast
      · next hd =>
        cases hlast
        rw [← hd]
        exact stringAt_fromBytes 5 (ascii "w")
      · cases hlast

end Fixed

end ShrikeDb
