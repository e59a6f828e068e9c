import ShrikeDb.Server.Requests
import ShrikeDb.Server.Cluster
import ShrikeDb.Server.Expiry

/-! A command that is split over the shards has the reply and the effect it would have
on one shard that holds everything. -/

namespace ShrikeDb

open CommandRegistry Sharding ReplyBuilder Walk GenericFamily List

variable {F : Type} {n : Nat} [NeZero n]

def owner (n : Nat) [NeZero n] (a : Addr) : Fin n := shard a.2 n

/-- The bytes of a value fit a vector, which holds at most `isize::MAX` of them. -/
def Cell.Fits (cell : Cell F) : Prop := ∀ v, cell.1 = some v → v.asBytes.length < 2 ^ 63

namespace Cluster

/-- The cells of every shard. -/
def cells (c : Cluster F n) (s : Fin n) : Addr → Cell F := (c s).dbSlice.cell

theorem cell_union_eq {c : Cluster F n} (h : c.Placed) (now : UInt64) :
    (c.union now).cell = Walk.union (owner n) c.cells := funext (cell_union h now)

end Cluster

open Cluster

/-! ## Commands that walk over their keys -/

section Keyed

variable {ι β : Type} {key : ι → Addr} {answer : ι → Cell F → β} {effect : ι → Cell F → Cell F}
  {items : List ι} {c c' : Cluster F n}

/-- If every shard has walked over its own items, the union has been walked over by
all of them, and every key is still on its shard. -/
theorem keyed_union (hplaced : c.Placed)
    (h : ∀ s, c'.cells s = (walk key answer effect (share key (owner n) s items) (c.cells s)).2)
    (now : UInt64) :
    c'.Placed ∧ (c'.union now).cell = (walk key answer effect items (c.union now).cell).2 := by
  have hplaced' : c'.Placed := by
    intro s a hne
    by_contra hs
    have hframe : ∀ it ∈ share key (owner n) s items, key it ≠ a := by
      intro it hit hkey
      have hown := of_decide_eq_true (mem_filter.mp hit).2
      rw [hkey] at hown
      exact hs hown
    have hcell : (c' s).dbSlice.cell a = (c s).dbSlice.cell a :=
      (congrFun (h s) a).trans (walk_frame key answer effect hframe _)
    exact hs (hplaced s a (hcell ▸ hne))
  refine ⟨hplaced', ?_⟩
  rw [cell_union_eq hplaced', cell_union_eq hplaced, walk_union]
  exact congrArg (Walk.union (owner n)) (funext h)

variable [F64 F] [HashOrder] [CaseTable] {subs : List (Sub n)} {now : UInt64} {i : DbIndex}
  {ran : List (Sub n × Listing Bytes)}

/-- The parts of a split command walk over the items of their shards and reply `g` of
the answers. -/
structure Splits (key : ι → Addr) (answer : ι → Cell F → β) (effect : ι → Cell F → Cell F)
    (items : List ι) (now : UInt64) (i : DbIndex) (subs : List (Sub n))
    (g : Sub n → List β → Bytes) :
    Prop where
  nodup : (subs.map Sub.target).Nodup
  cover : ∀ it ∈ items, owner n (key it) ∈ subs.map Sub.target
  does : ∀ sub ∈ subs, ∀ ω (sh : EngineShard F), sh.dbSlice.nowMs = now →
    (dispatch ω sub.args ⟨i⟩ sh).reply =
        some (g sub (walk key answer effect (share key (owner n) sub.target items)
          sh.dbSlice.cell).1) ∧
      (dispatch ω sub.args ⟨i⟩ sh).shard.dbSlice.cell =
        (walk key answer effect (share key (owner n) sub.target items) sh.dbSlice.cell).2

namespace Splits

variable {g : Sub n → List β → Bytes}

theorem nodup_ran (h : Splits key answer effect items now i subs g)
    (hran : (ran.map Prod.fst).Perm subs) : (ran.map fun p => p.1.target).Nodup := by
  have hperm := hran.map Sub.target
  rw [map_map] at hperm
  exact hperm.nodup_iff.mpr h.nodup

theorem cells_after (h : Splits key answer effect items now i subs g)
    (hran : (ran.map Prod.fst).Perm subs) (c : Cluster F n) (s : Fin n) :
    (execAll now i ran c).2.cells s =
      (walk key answer effect (share key (owner n) s items) (c.cells s)).2 := by
  obtain ⟨hparts, hframe⟩ := execAll_spec now i (h.nodup_ran hran) c
  by_cases hs : ∃ p ∈ ran, p.1.target = s
  · obtain ⟨p, hp, rfl⟩ := hs
    have hsub : p.1 ∈ subs := hran.mem_iff.mp (mem_map_of_mem hp)
    rw [cells, (hparts p hp).2]
    exact (h.does p.1 hsub p.2 ((c p.1.target).updateTime now) rfl).2
  · have hnone : share key (owner n) s items = [] := by
      rw [share, filter_eq_nil_iff]
      intro it hit hown
      obtain ⟨sub, hsub, htarget⟩ := mem_map.mp (h.cover it hit)
      obtain ⟨p, hp, rfl⟩ := mem_map.mp (hran.mem_iff.mpr hsub)
      exact hs ⟨p, hp, htarget.trans (of_decide_eq_true hown)⟩
    rw [hnone, cells, hframe s fun p hp e => hs ⟨p, hp, e⟩]
    rfl

/-- The reply of a part, in terms of the answers of the whole walk. -/
theorem reply_of (h : Splits key answer effect items now i subs g)
    (hran : (ran.map Prod.fst).Perm subs) {c : Cluster F n} (hplaced : c.Placed) {sub : Sub n}
    (hsub : sub ∈ subs) :
    (execAll now i ran c).1 sub.target =
      some (g sub (((items.zip (walk key answer effect items (c.union now).cell).1).filter
        fun p => owner n (key p.1) = sub.target).map Prod.snd)) := by
  obtain ⟨hparts, -⟩ := execAll_spec now i (h.nodup_ran hran) c
  obtain ⟨p, hp, rfl⟩ := mem_map.mp (hran.mem_iff.mpr hsub)
  rw [(hparts p hp).1, cell_union_eq hplaced, ← walk_answers]
  exact (h.does p.1 hsub p.2 ((c p.1.target).updateTime now) rfl).1

end Splits

end Keyed

/-! ## Sums -/

theorem foldl_addReply (replies : List (Option Bytes)) (total : Int64) :
    replies.foldl addReply total = total + sumReplies replies := by
  induction replies generalizing total with
  | nil => exact (Int64.add_zero total).symm
  | cons reply replies ih =>
    rw [sumReplies, foldl_cons, foldl_cons, ih, ih (addReply 0 reply)]
    cases reply with
    | none => rw [addReply, addReply, Int64.zero_add]
    | some data => rw [addReply, addReply, Int64.zero_add, Int64.add_assoc]

/-- Counts sent as integers add up, modulo `2 ^ 64` as the code does. -/
theorem sumReplies_counts {τ : Type} (f : τ → Nat) (l : List τ) :
    sumReplies (l.map fun t => some (sendInteger (Int64.ofNat (f t)))) =
    Int64.ofNat (l.map f).sum := by
  induction l with
  | nil => rfl
  | cons t l ih =>
    rw [map_cons, sumReplies, foldl_cons, foldl_addReply, ih, map_cons, sum_cons,
      Int64.ofNat_add, addReply, parseRespInteger_sendInteger, Int64.zero_add]
    rfl

section Sum

variable {ι : Type} {key : ι → Addr} {answer : ι → Cell F → Bool} {effect : ι → Cell F → Cell F}
  {items : List ι} {c : Cluster F n} [F64 F] [HashOrder] [CaseTable] {subs awaited : List (Sub n)}
  {now : UInt64} {i : DbIndex} {ran : List (Sub n × Listing Bytes)}

theorem sum_eq (h : Splits key answer effect items now i subs
      fun _ answers => sendInteger (countTrue answers)) (hawaited : awaited.Perm subs)
    (hran : (ran.map Prod.fst).Perm subs) (hplaced : c.Placed) :
    Merge.sum.apply (awaited.map fun sub => (sub, (execAll now i ran c).1 sub.target)) =
      sendInteger (countTrue (walk key answer effect items (c.union now).cell).1) := by
  let answered := items.zip (walk key answer effect items (c.union now).cell).1
  let count (s : Fin n) : Nat :=
    (answered.filter fun p => owner n (key p.1) = s).countP fun p => p.2 == true
  have hreplies : awaited.map (fun sub => (execAll now i ran c).1 sub.target) =
      awaited.map fun sub => some (sendInteger (Int64.ofNat (count sub.target))) := by
    refine map_congr_left fun sub hsub => ?_
    rw [h.reply_of hran hplaced (hawaited.mem_iff.mp hsub), countTrue, List.count,
      countP_map]
    rfl
  have hnodup : (awaited.map Sub.target).Nodup := (hawaited.map Sub.target).nodup_iff.mpr h.nodup
  have hcover : ∀ p ∈ answered, owner n (key p.1) ∈ awaited.map Sub.target := by
    intro p hp
    have hit := (of_mem_zip hp).1
    exact (hawaited.map Sub.target).mem_iff.mpr (h.cover p.1 hit)
  have hsum : (awaited.map fun sub => count sub.target).sum = answered.countP fun p =>
      p.2 == true := by
    rw [← Grouping.sum_countP hnodup hcover, map_map]
    rfl
  have hall : answered.countP (fun p => p.2 == true) =
      (walk key answer effect items (c.union now).cell).1.count true := by
    have hsnd : answered.map Prod.snd = (walk key answer effect items (c.union now).cell).1 :=
      map_snd_zip (Walk.length_walk key answer effect items _).le
    rw [← hsnd, List.count, List.countP_map]
    rfl
  rw [Merge.apply, map_map]
  change sendInteger (sumReplies (awaited.map fun sub => (execAll now i ran c).1 sub.target)) = _
  rw [hreplies, sumReplies_counts, hsum, hall]
  rfl

end Sum

/-! ## Bulk-string arguments -/

theorem argsBytes_bulk (head : RespExpr) (words : List Bytes) (i : DbIndex) :
    (⟨head :: words.map RespExpr.string, i⟩ : CommandContext).argsBytes 1 = some words :=
  argsBytes_eq_some.mpr rfl

theorem exists_words {args : List RespExpr} (h : ∀ a ∈ args, a.asBytes.isSome = true) :
    ∃ words : List Bytes, args = words.map RespExpr.string := by
  induction args with
  | nil => exact ⟨[], rfl⟩
  | cons a args ih =>
    obtain ⟨words, rfl⟩ := ih fun b hb => h b (mem_cons_of_mem a hb)
    have ha := h a mem_cons_self
    cases a with
    | string w => exact ⟨w :: words, rfl⟩
    | _ => cases ha

/-! ## The parts of a command line -/

/-- The name of a command does not depend on its arguments. -/
theorem commandName_cons (head : RespExpr) (xs ys : List RespExpr) :
    commandName (head :: xs) = commandName (head :: ys) := rfl

theorem splitKeys_eq (head : RespExpr) (words : List Bytes) :
    splitKeys n (head :: words.map RespExpr.string) =
      (Grouping.group (fun e : RespExpr => shard e.bytes n) (words.map RespExpr.string)).map
        fun p => { target := p.1, args := head :: p.2 } := rfl

theorem splitMget_eq (head : RespExpr) (words : List Bytes) :
    splitMget n (head :: words.map RespExpr.string) =
      (Grouping.group (fun e : RespExpr × Nat => shard e.1.bytes n)
        (words.zipIdx.map (Prod.map RespExpr.string id))).map fun p =>
          { target := p.1
            args := .string (ascii "MGET") :: p.2.map Prod.fst
            positions := p.2.map Prod.snd } := by
  rw [← zipIdx_map]
  rfl

theorem pairUp_map {α β : Type} (f : α → β) (l : List α) :
    Command.pairUp (l.map f) = (Command.pairUp l).map (Prod.map f f) := by
  fun_induction Command.pairUp l with
  | case1 a b rest ih => rw [map_cons, map_cons, Command.pairUp, ih, map_cons]; rfl
  | case2 l h =>
    cases l with
    | nil => rfl
    | cons a l =>
      cases l with
      | nil => rfl
      | cons b l => exact absurd rfl (h a b l)

theorem pairUp_flatten {α : Type} (pairs : List (α × α)) :
    Command.pairUp (pairs.flatMap fun p => [p.1, p.2]) = pairs := by
  induction pairs with
  | nil => rfl
  | cons p pairs ih =>
    rw [flatMap_cons]
    exact congrArg (p :: ·) ih

theorem length_flatten_pairs {α : Type} (pairs : List (α × α)) :
    (pairs.flatMap fun p => [p.1, p.2]).length = pairs.length * 2 := by
  simp [length_flatMap]

theorem splitMset_eq (head : RespExpr) (words : List Bytes) :
    splitMset n (head :: words.map RespExpr.string) =
      (Grouping.group (fun p : RespExpr × RespExpr => shard p.1.bytes n)
        ((Command.pairUp words).map (Prod.map RespExpr.string RespExpr.string))).map fun p =>
          { target := p.1, args := .string (ascii "MSET") :: p.2.flatMap fun q => [q.1, q.2] } := by
  rw [← pairUp_map]
  rfl

/-- The answers of one shard with the positions they belong to. -/
theorem zip_positions (i : DbIndex) {words : List Bytes} {all : List (Option Bytes)}
    (hlen : all.length = words.length) {head : RespExpr} {sub : Sub n}
    (hsub : sub ∈ splitMget n (head :: words.map RespExpr.string)) :
    sub.positions.zip (((words.zipIdx.zip all).filter
        fun q => owner n (i, q.1.1) = sub.target).map Prod.snd) =
      ((words.zipIdx.zip all).filter fun q => owner n (i, q.1.1) = sub.target).map
        fun q => (q.1.2, q.2) := by
  rw [splitMget_eq] at hsub
  obtain ⟨⟨s, as⟩, hp, rfl⟩ := mem_map.mp hsub
  have hfst : words.zipIdx.filter (fun p => shard p.1 n = s) =
      ((words.zipIdx.zip all).filter fun q => owner n (i, q.1.1) = s).map Prod.fst := by
    have hzip : (words.zipIdx.zip all).map Prod.fst = words.zipIdx :=
      map_fst_zip (by rw [length_zipIdx, hlen])
    conv_lhs => rw [← hzip, filter_map]
    rfl
  have has : as.map Prod.snd = (words.zipIdx.filter fun p => shard p.1 n = s).map Prod.snd := by
    rw [(Grouping.mem_group.mp hp).1, filter_map, map_map]
    rfl
  dsimp only
  rw [has, hfst, map_map, zip_map']
  rfl

/-- What a shard answers for a key is at the position of the key. -/
theorem getElem?_of_mem_zip {words : List Bytes} {all : List (Option Bytes)}
    {q : (Bytes × Nat) × Option Bytes} (hq : q ∈ words.zipIdx.zip all) :
    all[q.1.2]? = some q.2 := by
  obtain ⟨j, hj⟩ := mem_iff_getElem?.mp hq
  obtain ⟨hitem, hall⟩ := getElem?_zip_eq_some.mp hj
  rw [getElem?_zipIdx, Nat.zero_add] at hitem
  obtain ⟨w, -, hw⟩ := Option.map_eq_some_iff.mp hitem
  rw [← hw]
  exact hall

section Parts

variable [F64 F] [HashOrder] [CaseTable] {args : List RespExpr} {name : Bytes}
  {entry : CommandEntry F}

theorem resolve_of_accepts (hacc : Accepts F args) (hname : commandName args = .ok name)
    (hfind : find name = some entry) : resolve args = .run entry :=
  Calls.resolve ⟨hname, hacc⟩ hfind

variable {ι κ β : Type} {key : ι → Addr} {answer : ι → Cell F → β} {effect : ι → Cell F → Cell F}
  {items : List ι} {now : UInt64} {i : DbIndex}

/-- A command that is split by grouping its items by shard. -/
theorem splits_group {f : ι → κ} {tag : κ → Fin n} (htag : ∀ it, tag (f it) = owner n (key it))
    {part : Fin n × List κ → Sub n} (htarget : ∀ p, (part p).target = p.1)
    {g : Sub n → List β → Bytes} (hdoes : ∀ s, part (s, (share key (owner n) s items).map f) ∈
        (Grouping.group tag (items.map f)).map part →
      ∀ ω (sh : EngineShard F), sh.dbSlice.nowMs = now →
        let sub := part (s, (share key (owner n) s items).map f)
        let out := walk key answer effect (share key (owner n) s items) sh.dbSlice.cell
        (dispatch ω sub.args ⟨i⟩ sh).reply = some (g sub out.1) ∧
          (dispatch ω sub.args ⟨i⟩ sh).shard.dbSlice.cell = out.2) :
    Splits key answer effect items now i ((Grouping.group tag (items.map f)).map part) g := by
  have htargets : ((Grouping.group tag (items.map f)).map part).map Sub.target =
      (Grouping.group tag (items.map f)).map Prod.fst := by
    rw [map_map]
    exact map_congr_left fun p _ => htarget p
  refine ⟨htargets ▸ Grouping.nodup_group _ _, fun it hit => ?_, fun sub hsub ω sh hnow => ?_⟩
  · rw [htargets, Grouping.mem_map_fst_group]
    exact ⟨f it, mem_map_of_mem hit, htag it⟩
  · obtain ⟨⟨s, as⟩, hp, rfl⟩ := mem_map.mp hsub
    have has : as = (share key (owner n) s items).map f := by
      rw [(Grouping.mem_group.mp hp).1, filter_map, share]
      refine congrArg (map f) (filter_congr fun it _ => ?_)
      rw [Function.comp_apply, htag]
    subst has
    rw [htarget]
    exact hdoes s hsub ω sh hnow

/-! ### DEL, UNLINK and EXISTS -/

/-- The handler walks over the keys it is given and counts. -/
def Counts (now : UInt64) (i : DbIndex) (handler : CommandContext → Command F Bytes)
    (answer : Bytes → Cell F → Bool) (effect : Bytes → Cell F → Cell F) : Prop :=
  ∀ ω ctx keys (x : Exec F), ctx.argsBytes 1 = some keys → ctx.dbIndex = i → x.slice.nowMs = now →
    Leaves ω (handler ctx) x
      (sendInteger (countTrue (walk (fun k => (i, k)) answer effect keys x.slice.cell).1))
      (walk (fun k => (i, k)) answer effect keys x.slice.cell).2

omit [F64 F] [HashOrder] [CaseTable] in
theorem cmdDel_counts (now : UInt64) (i : DbIndex) :
    Counts (F := F) now i cmdDel (fun _ c => c.1.isSome) fun _ _ => Cell.empty := by
  rintro ω ctx keys x hkeys rfl _
  exact cmdDel_leaves hkeys

omit [F64 F] [HashOrder] [CaseTable] in
theorem cmdExists_counts (now : UInt64) (i : DbIndex) :
    Counts (F := F) now i cmdExists (fun _ c => (c.live now).1.isSome)
      fun _ c => c.live now := by
  rintro ω ctx keys x hkeys rfl rfl
  exact cmdExists_leaves hkeys

variable {head : RespExpr} {words : List Bytes}

theorem splitKeys_splits {answer : Bytes → Cell F → Bool} {effect : Bytes → Cell F → Cell F}
    (hname : commandName (head :: words.map RespExpr.string) = .ok name)
    (hfind : find name = some entry)
    (hacc : ∀ sub ∈ splitKeys n (head :: words.map RespExpr.string), Accepts F sub.args)
    (hcounts : Counts now i entry.handler answer effect) :
    Splits (fun k => (i, k)) answer effect words now i
      (splitKeys n (head :: words.map RespExpr.string))
      fun _ answers => sendInteger (countTrue answers) := by
  rw [splitKeys_eq] at hacc ⊢
  refine splits_group ?_ ?_ fun s hmem ω sh hnow => ?_
  · exact fun _ => rfl
  · exact fun _ => rfl
  · have hres := resolve_of_accepts (hacc _ hmem) ((commandName_cons head _ _).trans hname) hfind
    exact dispatch_leaves hres (hcounts ω _ _ _ (argsBytes_bulk head _ i) rfl hnow)

/-! ### MGET -/

omit [F64 F] [HashOrder] [CaseTable] in
theorem Cell.Fits.live {cell : Cell F} (h : cell.Fits) (now : UInt64) : (cell.live now).Fits := by
  rcases cell.live_cases now with ⟨_, he⟩ | ⟨_, he⟩ <;> rw [he]
  · exact fun v hv => nomatch hv
  · exact h

omit [F64 F] [HashOrder] [CaseTable] in
theorem Cell.Fits.stringAt {cell : Cell F} (h : cell.Fits) {now : UInt64} {data : Bytes}
    (hs : stringAt now cell = some data) : data.length < 2 ^ 63 := by
  obtain ⟨v, hv, hdata⟩ := Option.bind_eq_some_iff.mp hs
  split at hdata
  · exact Option.some.inj hdata ▸ h.live now v hv
  · cases hdata

def mgetReply (answers : List (Option Bytes)) : Bytes :=
  sendArrayLen answers.length ++ answers.flatMap sendOptional

theorem splitMget_splits
    (hacc : ∀ sub ∈ splitMget n (head :: words.map RespExpr.string), Accepts F sub.args) :
    Splits (F := F)
    (fun p : Bytes × Nat => (i, p.1)) (fun _ c => stringAt now c) (fun _ c => c.live now)
      words.zipIdx now i (splitMget n (head :: words.map RespExpr.string))
      fun _ answers => mgetReply answers := by
  rw [splitMget_eq] at hacc ⊢
  refine splits_group ?_ ?_ fun s hmem ω sh hnow => ?_
  · exact fun _ => rfl
  · exact fun _ => rfl
  · have hres := resolve_of_accepts (hacc _ hmem) rfl find_mget
    let own := share (fun p : Bytes × Nat => (i, p.1)) (owner n) s words.zipIdx
    have hargs : (own.map (Prod.map RespExpr.string id)).map Prod.fst =
        (own.map Prod.fst).map RespExpr.string := by
      rw [map_map, map_map]
      rfl
    have hleaves := cmdMget_leaves (ω := ω) (x := ⟨sh.dbSlice, ⟨i⟩⟩)
      (argsBytes_bulk (.string (ascii "MGET")) (own.map Prod.fst) i)
    rw [← hargs, mgetWalk, hnow, walk_comp, length_map] at hleaves
    dsimp only [mgetReply]
    rw [length_walk]
    exact dispatch_leaves hres hleaves

theorem mget_eq {c : Cluster F n} (hplaced : c.Placed) (hfits : ∀ a, ((c.union now).cell a).Fits)
    (hacc : ∀ sub ∈ splitMget n (head :: words.map RespExpr.string), Accepts F sub.args)
    {awaited : List (Sub n)} {ran : List (Sub n × Listing Bytes)}
    (hawaited : awaited.Perm (splitMget n (head :: words.map RespExpr.string)))
    (hran : (ran.map Prod.fst).Perm (splitMget n (head :: words.map RespExpr.string))) :
    (Merge.mget words.length).apply (awaited.map fun sub =>
      (sub, (execAll now i ran c).1 sub.target)) =
      mgetReply (mgetWalk i now words (c.union now).cell).1 := by
  have hsplits : Splits _ _ _ _ now i _ _ := splitMget_splits hacc
  let all := (mgetWalk i now words (c.union now).cell).1
  have hall : (walk (fun p : Bytes × Nat => (i, p.1)) (fun _ c => stringAt now c)
      (fun _ c => c.live now) words.zipIdx (c.union now).cell).1 = all := by
    rw [← walk_comp (fun k => (i, k)) (fun _ c => stringAt now c) (fun _ c => c.live now) Prod.fst,
      zipIdx_map_fst]
    rfl
  have hlen : all.length = words.length := length_walk _ _ _ words _
  have hsizes : ∀ v, some v ∈ all → v.length < 2 ^ 63 := by
    intro v hv
    obtain ⟨k, -, cell, hcell, hanswer⟩ :=
      exists_of_mem_walk _ _ _ (I := Cell.Fits) (fun _ _ h => h.live now) hfits hv
    exact hcell.stringAt hanswer.symm
  let answered (s : Fin n) := (words.zipIdx.zip all).filter fun q => owner n (i, q.1.1) = s
  let writes (sub : Sub n) := (answered sub.target).map fun q => (q.1.2, q.2)
  have hplace : ∀ sub ∈ awaited, ∀ results, placeValues results
      (sub.positions, (execAll now i ran c).1 sub.target) =
        (writes sub).foldl (fun r w => r.set w.1 w.2) results := by
    intro sub hsub results
    have hmem := hawaited.mem_iff.mp hsub
    have hreply := hsplits.reply_of hran hplaced hmem
    rw [hall] at hreply
    have hread : parseRespArray (mgetReply ((answered sub.target).map Prod.snd)) =
        (answered sub.target).map Prod.snd := by
      refine parseRespArray_sendArray _ fun v hv => hsizes v ?_
      obtain ⟨q, hq, hv⟩ := mem_map.mp hv
      exact hv ▸ (of_mem_zip (mem_filter.mp hq).1).2
    rw [hreply, placeValues, hread, zip_positions i hlen hmem]
  have hwrites : ∀ w ∈ awaited.flatMap writes, all[w.1]? = some w.2 := by
    intro w hw
    obtain ⟨sub, -, hw⟩ := mem_flatMap.mp hw
    obtain ⟨q, hq, rfl⟩ := mem_map.mp hw
    exact getElem?_of_mem_zip (mem_filter.mp hq).1
  have hcover : ∀ j < all.length, j ∈ (awaited.flatMap writes).map Prod.fst := by
    intro j hj
    have hjw : j < words.length := hlen ▸ hj
    have hitem : (words[j], j) ∈ words.zipIdx :=
      mk_mem_zipIdx_iff_getElem?.mpr (getElem?_eq_getElem hjw)
    obtain ⟨sub, hsub, htarget⟩ := mem_map.mp (hsplits.cover _ hitem)
    have hq : ((words[j], j), all[j]) ∈ answered sub.target := by
      refine mem_filter.mpr ⟨mem_iff_getElem?.mpr ⟨j, ?_⟩, decide_eq_true htarget.symm⟩
      refine getElem?_zip_eq_some.mpr ⟨?_, getElem?_eq_getElem hj⟩
      rw [getElem?_zipIdx, getElem?_eq_getElem hjw, Nat.zero_add]
      rfl
    exact mem_map.mpr ⟨(j, all[j]), mem_flatMap.mpr
      ⟨sub, hawaited.mem_iff.mpr hsub, mem_map.mpr ⟨_, hq, rfl⟩⟩, rfl⟩
  have hresults : mgetResults words.length
      (awaited.map fun sub => (sub.positions, (execAll now i ran c).1 sub.target)) = all := by
    rw [mgetResults, foldl_map, foldl_ext _ _ _ fun r sub hsub => hplace sub hsub r,
      ← foldl_flatMap]
    exact Grouping.foldl_set_eq hwrites (by rw [length_replicate, hlen]) hcover
  rw [Merge.apply, map_map]
  change sendArrayLen words.length ++ (mgetResults words.length
    (awaited.map fun sub => (sub.positions, (execAll now i ran c).1 sub.target))).flatMap
      sendOptional = _
  rw [hresults, mgetReply, hlen]

/-! ### MSET -/

/-- The part of an `MSET` that goes to one shard, if the shard accepts it. -/
theorem msetPart_does {own : List (Bytes × Bytes)} (hacc : Accepts F (.string (ascii "MSET") ::
      (own.map (Prod.map RespExpr.string RespExpr.string)).flatMap fun q => [q.1, q.2]))
    (ω : Listing Bytes) (sh : EngineShard F) : let out := dispatch ω (.string (ascii "MSET") ::
      (own.map (Prod.map RespExpr.string RespExpr.string)).flatMap fun q => [q.1, q.2]) ⟨i⟩ sh
    out.reply = some sendOk ∧ out.shard.dbSlice.cell = (msetWalk i own sh.dbSlice.cell).2 := by
  have hres := resolve_of_accepts hacc rfl find_mset
  have hargs : (own.map (Prod.map RespExpr.string RespExpr.string)).flatMap (fun q => [q.1, q.2]) =
      (own.flatMap fun q => [q.1, q.2]).map RespExpr.string := by
    rw [flatMap_map, map_flatMap]
    rfl
  have heven : ((RespExpr.string (ascii "MSET") ::
      (own.flatMap fun q => [q.1, q.2]).map RespExpr.string).length - 1) % 2 = 0 := by
    rw [length_cons, length_map, length_flatten_pairs]
    omega
  have hleaves := cmdMset_leaves (ω := ω) (x := ⟨sh.dbSlice, ⟨i⟩⟩)
    (argsBytes_bulk (.string (ascii "MSET")) (own.flatMap fun q => [q.1, q.2]) i) heven
  rw [← hargs, pairUp_flatten] at hleaves
  exact dispatch_leaves hres hleaves

theorem splitMset_splits
    (hacc : ∀ sub ∈ splitMset n (head :: words.map RespExpr.string), Accepts F sub.args) :
    Splits (F := F) (fun p : Bytes × Bytes => (i, p.1)) (fun _ _ => ())
      (fun p _ => (some (.fromBytes p.2), none)) (Command.pairUp words) now i
      (splitMset n (head :: words.map RespExpr.string)) fun _ _ => sendOk := by
  rw [splitMset_eq] at hacc ⊢
  refine splits_group ?_ ?_ fun s hmem ω sh hnow => ?_
  · exact fun _ => rfl
  · exact fun _ => rfl
  · exact msetPart_does (hacc _ hmem) ω sh

end Parts

/-! ## One shard with everything -/

section Agrees

variable [F64 F] [HashOrder] [CaseTable]

/-- A shard that holds what the shards hold together. -/
def Cluster.asOne (c : Cluster F n) (now : UInt64) : EngineShard F := ⟨c.union now, 0⟩

/-- The command left every key on its shard, and has the reply and the effect it has on
one shard with everything. -/
structure Agrees (now : UInt64) (i : DbIndex) (args : List RespExpr) (ω : Listing Bytes)
    (c : Cluster F n) (reply : Bytes) (c' : Cluster F n) : Prop where
  placed : c'.Placed
  reply : Answered.Same ⟨args, some reply⟩ ⟨args, (dispatch ω args ⟨i⟩ (c.asOne now)).reply⟩
  union : c'.union now = (dispatch ω args ⟨i⟩ (c.asOne now)).shard.dbSlice

variable {args : List RespExpr} {now : UInt64} {i : DbIndex} {ω : Listing Bytes}
  {c c' : Cluster F n}
  {reply : Bytes}

theorem Agrees.of_cells (hplaced : c'.Placed)
    (hreply : Answered.Same ⟨args, some reply⟩ ⟨args, (dispatch ω args ⟨i⟩ (c.asOne now)).reply⟩)
    (hcell : (c'.union now).cell = (dispatch ω args ⟨i⟩ (c.asOne now)).shard.dbSlice.cell) :
    Agrees now i args ω c reply c' := by
  have hnow : (dispatch ω args ⟨i⟩ (c.asOne now)).shard.dbSlice.nowMs = now :=
    (dispatch_touches ω (c.asOne now) (meets_everywhere args i)).1
  exact ⟨hplaced, hreply, DbSlice.ext_cell hnow.symm hcell⟩

/-- A command that is answered at once. -/
theorem Agrees.of_reply {keepAlive : Bool} (hplaced : c.Placed)
    (hres : resolve (F := F) args = .reply reply keepAlive) : Agrees now i args ω c reply c := by
  refine .of_cells hplaced ?_ ?_ <;> rw [dispatch, hres]
  · exact ⟨rfl, .inl rfl⟩
  · rfl

variable {ι β : Type} {key : ι → Addr} {answer : ι → Cell F → β} {effect : ι → Cell F → Cell F}
  {items : List ι} {subs : List (Sub n)} {g : Sub n → List β → Bytes}
  {ran : List (Sub n × Listing Bytes)} {entry : CommandEntry F}

/-- A split command, if the handler walks over all items on one shard. -/
theorem Agrees.of_splits (h : Splits key answer effect items now i subs g)
    (hran : (ran.map Prod.fst).Perm subs) (hplaced : c.Placed) (hres : resolve args = .run entry)
    (hleaves : Leaves ω (entry.handler ⟨args, i⟩) ⟨c.union now, ⟨i⟩⟩ reply
      (walk key answer effect items (c.union now).cell).2) :
    Agrees now i args ω c reply (execAll now i ran c).2 := by
  obtain ⟨hplaced', hcell⟩ := keyed_union hplaced (h.cells_after hran c) now
  have hone : (dispatch ω args ⟨i⟩ (c.asOne now)).reply = some reply ∧
      (dispatch ω args ⟨i⟩ (c.asOne now)).shard.dbSlice.cell =
        (walk key answer effect items (c.union now).cell).2 := dispatch_leaves hres hleaves
  exact .of_cells hplaced' ⟨rfl, .inl hone.1.symm⟩ (hcell.trans hone.2.symm)

end Agrees

end ShrikeDb
