import ShrikeDb.Lib.SearchList
import ShrikeDb.Server.Values

/-! The two views of a sorted set. Entries are searched by score and member, and a `NaN`
counts as equal to every other score, so a set that holds one is not sorted and entries
are lost to the search. As long as no score is `NaN`, the ordered view holds exactly the
pairs of the members. -/

namespace ShrikeDb

open SortedSetEntry

/-! ## Comparing scores -/

/-- `NaN` is the value that does not compare with itself. -/
def F64.IsNan {F : Type} [F64 F] (x : F) : Prop := F64.partialCmp x x = none

/-- How `f64` compares: `NaN` with nothing, the other values as a linear preorder. -/
class F64.Compares (F : Type) [F64 F] : Prop where
  refl : ∀ a : F, partialCmp a a = none ∨ partialCmp a a = some .eq
  none_iff : ∀ a b : F, partialCmp a b = none ↔ IsNan a ∨ IsNan b
  swap : ∀ a b : F, partialCmp b a = (partialCmp a b).map Ordering.swap
  trans : ∀ a b c : F, partialCmp a b = some .lt → partialCmp b c = some .lt →
    partialCmp a c = some .lt
  congr : ∀ (a b c : F) (o : Ordering), partialCmp a b = some .eq → partialCmp b c = some o →
    partialCmp a c = some o

section Compares

variable {F : Type} [F64 F] [F64.Compares F]

open F64.Compares SearchList

theorem F64.partialCmp_self {a : F} (ha : ¬F64.IsNan a) : F64.partialCmp a a = some .eq :=
  (refl a).resolve_left ha

theorem F64.partialCmp_isSome {a b : F} (ha : ¬F64.IsNan a) (hb : ¬F64.IsNan b) :
    ∃ o, F64.partialCmp a b = some o := by
  refine Option.ne_none_iff_exists'.mp fun hnone => ?_
  exact ((none_iff a b).mp hnone).elim ha hb

namespace SortedSetEntry

omit [F64.Compares F] in
theorem cmp_eq {a b : SortedSetEntry F} {o : Ordering}
    (h : F64.partialCmp a.score b.score = some o) :
    a.cmp b = o.then (compare a.member b.member) := by
  rw [cmp, h]
  rfl

omit [F64.Compares F] in
/-- Equal entries have the same member. -/
theorem member_eq_of_cmp {a b : SortedSetEntry F} (h : a.cmp b = .eq) : a.member = b.member :=
  Std.LawfulEqCmp.eq_of_compare (Ordering.then_eq_eq.mp h).2

theorem linearOn_cmp : LinearOn (cmp (F := F)) fun e => ¬F64.IsNan e.score where
  refl := by
    intro a ha
    rw [cmp_eq (F64.partialCmp_self ha)]
    exact Std.ReflCmp.compare_self
  swap := by
    intro a b ha hb
    obtain ⟨o, ho⟩ := F64.partialCmp_isSome ha hb
    have ho' : F64.partialCmp b.score a.score = some o.swap := by
      rw [swap, ho]
      rfl
    rw [cmp_eq ho, cmp_eq ho', Ordering.swap_then]
    exact congrArg _ Std.OrientedCmp.eq_swap
  trans := by
    intro a b c ha hb hc hab hbc
    obtain ⟨o, ho⟩ := F64.partialCmp_isSome ha hb
    obtain ⟨p, hp⟩ := F64.partialCmp_isSome hb hc
    rw [cmp_eq ho, Ordering.then_eq_lt] at hab
    rw [cmp_eq hp, Ordering.then_eq_lt] at hbc
    rcases hab with rfl | ⟨rfl, hab⟩ <;> rcases hbc with rfl | ⟨rfl, hbc⟩
    · rw [cmp_eq (trans _ _ _ ho hp)]
      rfl
    · have hba : F64.partialCmp b.score a.score = some .gt := by rw [swap, ho]; rfl
      have hcb : F64.partialCmp c.score b.score = some .eq := by rw [swap, hp]; rfl
      have hac : F64.partialCmp a.score c.score = some .lt := by
        rw [swap, congr _ _ _ _ hcb hba]
        rfl
      rw [cmp_eq hac]
      rfl
    · rw [cmp_eq (congr _ _ _ _ ho hp)]
      rfl
    · rw [cmp_eq (congr _ _ _ _ ho hp)]
      change compare a.member c.member = .lt
      exact Std.TransCmp.lt_trans hab hbc

end SortedSetEntry

end Compares

namespace ZsetFamily

/-! ## The views -/

section Views

variable {F : Type} [F64 F]

theorem scoresInsert_eq (e : SortedSetEntry F) (l : Scores F) :
    scoresInsert e l = SearchList.insert SortedSetEntry.cmp e l := by
  induction l with
  | nil => rfl
  | cons k ks ih => cases hc : e.cmp k <;> simp [scoresInsert, SearchList.insert, hc, ih]

theorem scoresRemove_eq (e : SortedSetEntry F) (l : Scores F) :
    scoresRemove e l = SearchList.remove SortedSetEntry.cmp e l := by
  induction l with
  | nil => rfl
  | cons k ks ih => cases hc : e.cmp k <;> simp [scoresRemove, SearchList.remove, hc, ih]

/-- The ordered view is sorted, without `NaN`, and holds the pairs of the members. -/
structure Agree (members : Members F) (scores : Scores F) : Prop where
  sorted : SearchList.Sorted SortedSetEntry.cmp scores
  numbers : ∀ e ∈ scores, ¬F64.IsNan e.score
  pairs : ∀ m s, members.lookup m = some s ↔ ⟨s, m⟩ ∈ scores

theorem agree_empty : Agree (F := F) ∅ [] where
  sorted := List.Pairwise.nil
  numbers := fun e he => nomatch he
  pairs := fun m s => by simp

namespace Agree

variable [F64.Compares F] {members : Members F} {scores : Scores F}

/-- Every entry is found through itself and taken out, and no other one. -/
theorem remove_self (h : Agree members scores) {e : SortedSetEntry F} (he : e ∈ scores) :
    ∃ a b, scores = a ++ e :: b ∧ scoresRemove e scores = a ++ b := by
  rw [scoresRemove_eq]
  exact SearchList.remove_of_mem linearOn_cmp h.sorted h.numbers he

omit [F64.Compares F] in
theorem score_unique (h : Agree members scores) {e e' : SortedSetEntry F} (he : e ∈ scores)
    (he' : e' ∈ scores) (hm : e.member = e'.member) : e = e' := by
  obtain ⟨s, m⟩ := e
  obtain ⟨s', m'⟩ := e'
  dsimp only at hm
  subst hm
  have hs := (h.pairs m s).mpr he
  rw [(h.pairs m s').mpr he'] at hs
  cases hs
  rfl

theorem drop (h : Agree members scores) {m : Bytes} {s : F} (hm : members.lookup m = some s) :
    Agree (members.erase m) (scoresRemove ⟨s, m⟩ scores) := by
  have he := (h.pairs m s).mp hm
  obtain ⟨a, b, hl, hr⟩ := h.remove_self he
  have hnodup := SearchList.Sorted.nodup linearOn_cmp h.sorted h.numbers
  rw [hl, List.nodup_middle, List.nodup_cons] at hnodup
  have hmem : ∀ e, e ∈ scores ↔ e = ⟨s, m⟩ ∨ e ∈ a ++ b := by
    intro e
    rw [hl]
    simp only [List.mem_append, List.mem_cons]
    exact or_left_comm
  have hsub : (a ++ b).Sublist scores := by
    rw [hl]
    exact (List.sublist_cons_self _ _).append_left a
  rw [hr]
  refine ⟨h.sorted.sublist hsub, fun e he => h.numbers e (hsub.subset he), fun m' s' => ?_⟩
  by_cases hmm : m' = m
  · subst hmm
    rw [Finmap.lookup_erase]
    refine ⟨(fun hn => nomatch hn), fun hin => ?_⟩
    have heq := h.score_unique ((hmem _).mpr (Or.inr hin)) he rfl
    rw [heq] at hin
    exact absurd hin hnodup.1
  · rw [Finmap.lookup_erase_ne hmm, h.pairs, hmem, or_iff_right]
    exact fun heq => hmm (congrArg member heq)

theorem add (h : Agree members scores) {m : Bytes} (hm : members.lookup m = none) {s : F}
    (hs : ¬F64.IsNan s) : Agree (members.insert m s) (scoresInsert ⟨s, m⟩ scores) := by
  have hnew : ∀ e ∈ scores, cmp ⟨s, m⟩ e ≠ .eq := by
    rintro ⟨s', m'⟩ he hcmp
    obtain rfl : m = m' := member_eq_of_cmp hcmp
    rw [(h.pairs m s').mpr he] at hm
    cases hm
  have hperm := SearchList.insert_perm hnew
  rw [scoresInsert_eq]
  refine ⟨h.sorted.insert linearOn_cmp h.numbers hs hnew, fun e he => ?_,
    fun m' s' => ?_⟩
  · rcases List.mem_cons.mp (hperm.mem_iff.mp he) with rfl | he
    · exact hs
    · exact h.numbers e he
  · rw [hperm.mem_iff, List.mem_cons]
    by_cases hmm : m' = m
    · subst hmm
      rw [Finmap.lookup_insert, ← h.pairs, hm]
      simp [eq_comm]
    · rw [Finmap.lookup_insert_of_ne _ hmm, h.pairs, or_iff_right]
      exact fun heq => hmm (congrArg member heq)

theorem zsetAdd (h : Agree members scores) (m : Bytes) {s : F} (hs : ¬F64.IsNan s) :
    Agree (zsetAdd members scores m s).2.1 (zsetAdd members scores m s).2.2 := by
  rw [ZsetFamily.zsetAdd]
  cases hm : members.lookup m with
  | none => exact h.add hm hs
  | some old =>
    have hinsert : members.insert m s = (members.erase m).insert m s := by
      refine Finmap.ext_lookup fun k => ?_
      by_cases hk : k = m
      · subst hk
        rw [Finmap.lookup_insert, Finmap.lookup_insert]
      · rw [Finmap.lookup_insert_of_ne _ hk, Finmap.lookup_insert_of_ne _ hk,
          Finmap.lookup_erase_ne hk]
    dsimp only
    rw [hinsert]
    exact (h.drop hm).add (Finmap.lookup_erase _ _) hs

theorem zsetRemove (h : Agree members scores) (m : Bytes) :
    Agree (zsetRemove members scores m).2.1 (zsetRemove members scores m).2.2 := by
  rw [ZsetFamily.zsetRemove]
  cases hm : members.lookup m with
  | none => exact h
  | some s => exact h.drop hm

theorem addAll {pairs : List (F × Bytes)} (hpairs : ∀ p ∈ pairs, ¬F64.IsNan p.1)
    (h : Agree members scores) :
    Agree (addAll pairs members scores).2.1 (addAll pairs members scores).2.2 := by
  rw [ZsetFamily.addAll]
  generalize (0 : Int64) = added
  induction pairs generalizing added members scores with
  | nil => exact h
  | cons p pairs ih =>
    have hadd := h.zsetAdd p.2 (hpairs p List.mem_cons_self)
    exact ih (fun q hq => hpairs q (List.mem_cons_of_mem p hq)) hadd _

theorem removeAll (mems : List Bytes) (h : Agree members scores) :
    Agree (removeAll mems members scores).2.1 (removeAll mems members scores).2.2 := by
  rw [ZsetFamily.removeAll]
  generalize (0 : Int64) = removed
  induction mems generalizing removed members scores with
  | nil => exact h
  | cons m mems ih => exact ih (h.zsetRemove m) _

theorem popEntries (rev : Bool) (n : Nat) (h : Agree members scores) :
    Agree (popEntries rev n members scores).2.1 (popEntries rev n members scores).2.2 := by
  induction n generalizing members scores with
  | zero => exact h
  | succ n ih =>
    rw [ZsetFamily.popEntries]
    cases he : if rev then scores.getLast? else scores.head? with
    | none => exact h
    | some e =>
      have hmem : e ∈ scores := by
        cases rev
        · exact List.mem_of_head? he
        · exact List.mem_of_getLast? he
      exact ih (h.drop ((h.pairs e.member e.score).mpr hmem))

end Agree

end Views

end ZsetFamily

/-! ## Runs of the commands that change sorted sets -/

namespace ZsetFamily

open Program Command CommandRegistry F64

variable {F : Type} [F64 F]

/-- The views of a sorted set agree. -/
def ViewsAgree (v : PrimeValue F) : Prop :=
  ∀ members scores, v = .zset members scores → Agree members scores

theorem agree_of_zsetOf {v : PrimeValue F} {c : Members F × Scores F} (h : ViewsAgree v)
    (hc : zsetOf v = some c) : Agree c.1 c.2 :=
  h c.1 c.2 (eq_of_zsetOf hc)

theorem viewsAgree_put {value : PrimeValue F} {members : Members F} {scores : Scores F}
    {reply reply' : Bytes} {e : Bool} (h : Agree members scores)
    (heq : Edit.put (.zset members scores) e reply' = .put value false reply) :
    ViewsAgree value := by
  cases heq
  intro members' scores' hz
  cases hz
  exact h

theorem Agree.viewsAgree {members : Members F} {scores : Scores F} (h : Agree members scores) :
    ViewsAgree (.zset members scores) := by
  intro members' scores' hz
  cases hz
  exact h

theorem takesPlain_viewsAgree : TakesPlain (ViewsAgree (F := F)) where
  string v hv := by
    rintro members scores rfl
    cases hv
  list _ _ := by rintro members scores ⟨⟩
  set _ _ := by rintro members scores ⟨⟩
  hash _ _ := by rintro members scores ⟨⟩

variable [F64.Compares F] {ω : Listing Bytes} {x : Exec F} {ctx : CommandContext}

theorem cmdZadd_preserves
    (hnum : ∀ pairs : List (F × Bytes), scorePairs (ctx.args.drop 2) = some pairs →
      ∀ p ∈ pairs, ¬IsNan p.1) : Preserves ViewsAgree ω (cmdZadd ctx) x := by
  refine .ofOption_bind fun key _ => ?_
  dsimp only
  split
  · exact .pure _
  · refine .ofOption_bind fun pairs hpairs => ?_
    split
    · exact .pure _
    · refine .edit (fun v c _ hv hc value reply hput => ?_) fun y => .create ?_
      · exact viewsAgree_put ((agree_of_zsetOf hv hc).addAll (hnum pairs hpairs)) hput
      · exact (agree_empty.addAll (hnum pairs hpairs)).viewsAgree

theorem cmdZrem_preserves : Preserves ViewsAgree ω (cmdZrem ctx) x := by
  refine .ofOption_bind fun key _ => .ofOption_bind fun mems _ => ?_
  refine .edit (fun v c _ hv hc value reply hput => ?_) fun y => .pure _
  exact viewsAgree_put ((agree_of_zsetOf hv hc).removeAll mems) hput

theorem cmdZincrby_preserves
    (hnum : ∀ key delta member, ctx.argBytes 1 = some key →
      (ctx.argStr 2).bind F64.parse = some delta →
      ctx.argBytes 3 = some member → ¬IsNan delta ∧ ∀ (members : Members F) (scores : Scores F),
        (x.slice.cell (ctx.dbIndex, key)).1 = some (.zset members scores) →
        ¬IsNan (F64.add ((members.lookup member).getD F64.zero) delta)) :
    Preserves ViewsAgree ω (cmdZincrby (F := F) ctx) x := by
  refine .ofOption_bind fun key hkey => ?_
  dsimp only
  split
  · exact .pure _
  · rename_i delta hdelta
    refine .ofOption_bind fun member hmember => ?_
    obtain ⟨hnan, hsum⟩ := hnum key delta member hkey hdelta hmember
    refine .edit (fun v c hcell hv hc value reply hput => ?_) fun y => .create ?_
    · have hagree := (agree_of_zsetOf hv hc).zsetAdd member (hsum c.1 c.2 (eq_of_zsetOf hc ▸ hcell))
      exact viewsAgree_put hagree hput
    · exact (agree_empty.zsetAdd member hnan).viewsAgree

theorem zpopImpl_preserves (rev : Bool) : Preserves ViewsAgree ω (zpopImpl ctx rev) x := by
  refine .ofOption_bind fun key _ => ?_
  refine .tryEdit (fun v c _ hv hc => ⟨fun value reply hput => ?_, fun value herror => ?_⟩)
    fun y => .pure _
  · exact viewsAgree_put ((agree_of_zsetOf hv hc).popEntries rev _) (ok_of_ite hput).2
  · cases (error_of_ite herror).2
    exact (agree_of_zsetOf hv hc).viewsAgree

/-- No score that the command would store is `NaN`: not one it is given, and not the sum of
the score there is and the increment. -/
structure Numeric (s : DbSlice F) (ctx : CommandContext) : Prop where
  zadd : commandName ctx.args = .ok (ascii "ZADD") → ∀ pairs : List (F × Bytes),
    scorePairs (ctx.args.drop 2) = some pairs → ∀ p ∈ pairs, ¬IsNan p.1
  zincrby : commandName ctx.args = .ok (ascii "ZINCRBY") → ∀ key delta member,
    ctx.argBytes 1 = some key → (ctx.argStr 2).bind F64.parse = some delta →
    ctx.argBytes 3 = some member → ¬IsNan delta ∧ ∀ (members : Members F) (scores : Scores F),
      (s.cell (ctx.dbIndex, key)).1 = some (.zset members scores) →
      ¬IsNan (F64.add ((members.lookup member).getD F64.zero) delta)

section Runs

variable [HashOrder] [CaseTable]

/-- A command that stores no `NaN`, or an event that is no command. -/
def Sound (s : EngineShard F) : ShardEvent → Prop
  | .command conn args => Numeric s.dbSlice ⟨args, conn.dbIndex⟩
  | _ => True

/-- Every event of a run is sound in the state it finds. -/
def SoundRun (ω : Nat → Listing Bytes) : List ShardEvent → EngineShard F → Prop
  | [], _ => True
  | e :: events, s => Sound s e ∧ SoundRun (fun n => ω (n + 1)) events (s.next (ω 0) e)

theorem next_views {s : EngineShard F} {e : ShardEvent} (h : s.dbSlice.Values ViewsAgree)
    (he : Sound s e) (ω : Listing Bytes) : (s.next ω e).dbSlice.Values ViewsAgree := by
  refine h.next takesPlain_viewsAgree ω e fun conn args hevent entry hmem harity hname => ?_
  subst hevent
  have hnum : Numeric s.dbSlice ⟨args, conn.dbIndex⟩ := he
  exact zsetTable_preserves hmem harity (fun hn _ => cmdZadd_preserves (hnum.zadd (hn ▸ hname)))
    (fun hn => cmdZincrby_preserves (hnum.zincrby (hn ▸ hname))) cmdZrem_preserves
      zpopImpl_preserves

theorem through_views {ω : Nat → Listing Bytes} {events : List ShardEvent} {s : EngineShard F}
    (h : s.dbSlice.Values ViewsAgree) (hsound : SoundRun ω events s) :
    (s.through ω events).dbSlice.Values ViewsAgree := by
  induction events generalizing s ω with
  | nil => exact h
  | cons e events ih => exact ih (next_views h hsound.1 (ω 0)) hsound.2

/-- In every state that a sound run leads to, the members and the ordered view of every sorted
set hold the same pairs, each member once, and every entry of the ordered view is found and
removed through itself. -/
theorem sorted_set_views_agree (ω : Nat → Listing Bytes) (events : List ShardEvent)
    (hsound : SoundRun ω events (EngineShard.new : EngineShard F)) (a : Addr) (members : Members F)
    (scores : Scores F)
    (hset : ((EngineShard.new.through ω events).dbSlice.cell a).1 = some (.zset members scores)) :
    (∀ m s, members.lookup m = some s ↔ ⟨s, m⟩ ∈ scores) ∧
      (scores.map member).Nodup ∧
      ∀ e ∈ scores, ∃ l r, scores = l ++ e :: r ∧ scoresRemove e scores = l ++ r := by
  have hnew : (EngineShard.new : EngineShard F).dbSlice.Values ViewsAgree :=
    fun a v hv => nomatch hv
  have hagree := through_views hnew hsound a _ hset members scores rfl
  have hnodup := SearchList.Sorted.nodup linearOn_cmp hagree.sorted hagree.numbers
  refine ⟨hagree.pairs, ?_, fun e he => hagree.remove_self he⟩
  exact List.Nodup.map_on (fun e he e' he' hm => hagree.score_unique he he' hm) hnodup

end Runs

/-! ## With and without NaN -/

section Fixed

attribute [local instance] CaseTable.identity HashOrder.arbitrary

/-- Whole numbers and `NaN`. -/
@[reducible] def nanOrWhole : F64 (Option Int) where
  ofI64 n := some n.toInt
  toI64 x := Int64.ofInt (x.getD 0)
  partialCmp a b := a.bind fun a => b.map fun b => compare a b
  parse s := if s = ascii "nan" then some none else (parseI64 s).map fun n => some n.toInt
  display x := (x.map Decimal.ofInt).getD (ascii "NaN")
  displayFixed x := (x.map Decimal.ofInt).getD (ascii "NaN")
  add a b := a.bind fun a => b.map fun b => a + b
  isFinite x := x.isSome
  infinity := some (2 ^ 63)
  negInfinity := some (-2 ^ 63)
  zero := some 0

attribute [local instance] nanOrWhole

theorem nanOrWhole_compares : F64.Compares (Option Int) where
  refl a := by
    cases a with
    | none => exact .inl rfl
    | some a => exact .inr (congrArg some Std.ReflCmp.compare_self)
  none_iff a b := by cases a <;> cases b <;> simp [F64.partialCmp, IsNan]
  swap a b := by
    cases a <;> cases b
    case some.some a b => exact congrArg some Std.OrientedCmp.eq_swap
    all_goals rfl
  trans a b c hab hbc := by
    cases a <;> cases b <;> cases c
    case some.some.some a b c =>
      exact congrArg some (Std.TransCmp.lt_trans (Option.some.inj hab) (Option.some.inj hbc))
    all_goals first | cases hab | cases hbc
  congr a b c o hab hbc := by
    cases a <;> cases b <;> cases c
    case some.some.some a b c =>
      obtain rfl : a = b := Std.LawfulEqCmp.eq_of_compare (Option.some.inj hab)
      exact hbc
    all_goals first | cases hab | cases hbc

/-- After `ZADD z 1 b 2 a nan aa` and `ZREM z a` the ordered view still holds `a`. -/
theorem nan_hides_entry :
    F64.Compares (Option Int) ∧ ∃ (members : Members (Option Int)) (scores : Scores (Option Int)),
      ((EngineShard.new.through (fun _ => .arbitrary Bytes)
        [.command ⟨0⟩ (command ["zadd", "z", "1", "b", "2", "a", "nan", "aa"]),
          .command ⟨0⟩ (command ["zrem", "z", "a"])]).dbSlice.cell (0, ascii "z")).1 =
        some (.zset members scores) ∧
      members.lookup (ascii "a") = none ∧ ⟨some 2, ascii "a"⟩ ∈ scores := by
  refine ⟨nanOrWhole_compares, _, _, rfl, ?_, ?_⟩
  · decide
  · exact List.mem_iff_getElem?.mpr ⟨2, rfl⟩

/-- The same members with numbers as scores. -/
theorem sorted_set_views_agree_numbers :
    ∃ (members : Members (Option Int)) (scores : Scores (Option Int)),
      ((EngineShard.new.through (fun _ => .arbitrary Bytes)
        [.command ⟨0⟩ (command ["zadd", "z", "1", "b", "2", "a", "3", "aa"]),
          .command ⟨0⟩ (command ["zrem", "z", "a"])]).dbSlice.cell (0, ascii "z")).1 =
        some (.zset members scores) ∧
      members.lookup (ascii "aa") = some (some 3) ∧ ⟨some 3, ascii "aa"⟩ ∈ scores ∧
      (scores.map member).Nodup := by
  have hcompares := nanOrWhole_compares
  obtain ⟨members, scores, hset, hlookup⟩ : ∃ (members : Members (Option Int))
      (scores : Scores (Option Int)), ((EngineShard.new.through (fun _ => .arbitrary Bytes)
        [.command ⟨0⟩ (command ["zadd", "z", "1", "b", "2", "a", "3", "aa"]),
          .command ⟨0⟩ (command ["zrem", "z", "a"])]).dbSlice.cell (0, ascii "z")).1 =
        some (.zset members scores) ∧ members.lookup (ascii "aa") = some (some 3) :=
    ⟨_, _, rfl, by decide⟩
  have hagree := sorted_set_views_agree _ _ ?_ _ members scores hset
  · exact ⟨members, scores, hset, hlookup, (hagree.1 _ _).mp hlookup, hagree.2.1⟩
  refine ⟨⟨?_, ?_⟩, ⟨?_, ?_⟩, trivial⟩
  · intro _ pairs hpairs
    obtain rfl : [(some 1, ascii "b"), (some 2, ascii "a"), (some 3, ascii "aa")] = pairs :=
      Option.some.inj hpairs
    intro p hp
    simp only [List.mem_cons, List.not_mem_nil, or_false] at hp
    rcases hp with rfl | rfl | rfl <;> exact fun hn => nomatch hn
  · intro hname
    exact absurd (Except.ok.inj hname) (by decide)
  · intro hname
    exact absurd (Except.ok.inj hname) (by decide)
  · intro hname
    exact absurd (Except.ok.inj hname) (by decide)

end Fixed

end ZsetFamily

end ShrikeDb
