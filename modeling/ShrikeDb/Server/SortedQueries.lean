import ShrikeDb.Server.Ranges
import ShrikeDb.Server.SortedSets

/-! Questions to a sorted set: the members in an interval of scores, the members at a range of
positions, the position of a member, and the two ends. The bounds of an interval are read without
the mark that excludes them; the positions of all commands are those of one list. -/

namespace ShrikeDb.ZsetFamily

open Program Command ReplyBuilder CommandRegistry SortedSetEntry List

variable {F : Type} [F64 F]

/-! ## Score intervals -/

/-- One end of an interval of scores. -/
structure Bound (F : Type) where
  value : F
  excluded : Bool

namespace Bound

/-- The bounds as a client writes them: an infinity, a number, or a number behind a parenthesis. -/
inductive Written : Bytes → Bound F → Prop
  | negInfinity : Written (ascii "-inf") ⟨F64.negInfinity, false⟩
  | infinity {text : Bytes} (h : text = ascii "+inf" ∨ text = ascii "inf") :
      Written text ⟨F64.infinity, false⟩
  | number {text : Bytes} {x : F} (hparse : F64.parse text = some x)
      (hword : text ∉ [ascii "-inf", ascii "+inf", ascii "inf"]) (hopen : text.head? ≠ some 40) :
      Written text ⟨x, false⟩
  | excluded {text : Bytes} {x : F} (hparse : F64.parse text = some x) :
      Written (40 :: text) ⟨x, true⟩

def above (b : Bound F) (x : F) : Bool :=
  (F64.partialCmp x b.value).any fun o => if b.excluded then o.isGT else o.isGE

def below (b : Bound F) (x : F) : Bool :=
  (F64.partialCmp x b.value).any fun o => if b.excluded then o.isLT else o.isLE

/-- The same end as part of the interval. -/
def closed (b : Bound F) : Bound F := ⟨b.value, false⟩

variable {b : Bound F}

theorem above_closed {x : F} (h : b.above x = true) : b.closed.above x = true := by
  obtain ⟨value, excluded⟩ := b
  revert h
  dsimp only [above, closed]
  cases F64.partialCmp x value with
  | none => exact id
  | some o => cases excluded <;> cases o <;> simp

theorem below_closed {x : F} (h : b.below x = true) : b.closed.below x = true := by
  obtain ⟨value, excluded⟩ := b
  revert h
  dsimp only [below, closed]
  cases F64.partialCmp x value with
  | none => exact id
  | some o => cases excluded <;> cases o <;> simp

/-- The value of a bound is read, whether it is excluded is not. -/
theorem parseScoreBound_written {text : Bytes} (h : Written text b) (default : F) :
    parseScoreBound text default = b.value := by
  cases h with
  | negInfinity =>
    unfold parseScoreBound
    rw [if_pos rfl]
  | infinity h =>
    have hneg : text ≠ ascii "-inf" := by
      rintro rfl
      revert h
      decide
    unfold parseScoreBound
    rw [if_neg hneg, if_pos h]
  | number hparse hword hopen =>
    simp only [mem_cons, not_mem_nil, or_false, not_or] at hword
    unfold parseScoreBound
    rw [if_neg hword.1, if_neg (not_or_intro hword.2.1 hword.2.2)]
    split
    · exact absurd rfl hopen
    · rw [hparse, Option.getD_some]
  | @excluded text x hparse =>
    have hword : ∀ w : Bytes, w.head? ≠ some 40 → 40 :: text ≠ w := by
      rintro w hw rfl
      exact hw rfl
    unfold parseScoreBound
    rw [if_neg (hword _ (by decide)),
      if_neg (not_or_intro (hword _ (by decide)) (hword _ (by decide)))]
    change (F64.parse text).getD default = x
    rw [hparse, Option.getD_some]

end Bound

/-- The score lies between the two ends. -/
def inInterval (lo hi : Bound F) (x : F) : Bool := lo.above x && hi.below x

variable {lo hi : Bound F}

theorem inInterval_closed {x : F} (h : inInterval lo hi x = true) :
    inInterval lo.closed hi.closed x = true := by
  rw [inInterval, Bool.and_eq_true] at h ⊢
  exact ⟨Bound.above_closed h.1, Bound.below_closed h.2⟩

theorem scoreInterval_eq {ctx : CommandContext} {min max : Bytes} (hmin : ctx.argStr 2 = some min)
    (hmax : ctx.argStr 3 = some max) (hlo : Bound.Written min lo) (hhi : Bound.Written max hi)
    (scores : Scores F) :
    scoreInterval ctx scores = scores.filter fun e => inInterval lo.closed hi.closed e.score := by
  rw [scoreInterval, hmin, hmax, Option.getD_some, Option.getD_some,
    Bound.parseScoreBound_written hlo, Bound.parseScoreBound_written hhi]
  rfl

/-- The members with a score in the interval, in the order of scores and members. -/
structure ExactlyIn (members : Members F) (lo hi : Bound F) (entries : Scores F) : Prop where
  sorted : SearchList.Sorted SortedSetEntry.cmp entries
  mem_iff : ∀ e, e ∈ entries ↔ members.lookup e.member = some e.score ∧
    inInterval lo hi e.score = true

theorem Agree.exactlyIn {members : Members F} {scores : Scores F} (h : Agree members scores)
    (lo hi : Bound F) :
    ExactlyIn members lo hi (scores.filter fun e => inInterval lo hi e.score) where
  sorted := h.sorted.sublist filter_sublist
  mem_iff := by
    intro e
    rw [mem_filter, h.pairs]

theorem ExactlyIn.length_eq [F64.Compares F] {members : Members F} {scores entries : Scores F}
    (h : Agree members scores) (hin : ExactlyIn members lo hi entries) :
    entries.length = (scores.filter fun e => inInterval lo hi e.score).length := by
  have hnodup : ∀ {l : Scores F}, ExactlyIn members lo hi l → l.Nodup := by
    intro l hl
    refine SearchList.Sorted.nodup linearOn_cmp hl.sorted fun e he => ?_
    exact h.numbers e ((h.pairs _ _).mp ((hl.mem_iff e).mp he).1)
  refine ((perm_ext_iff_of_nodup (hnodup hin) (hnodup (h.exactlyIn lo hi))).mpr
    fun e => ?_).length_eq
  rw [hin.mem_iff, (h.exactlyIn lo hi).mem_iff]

section Requests

variable [HashOrder] [CaseTable]

/-- A request for the members in an interval of scores or for their number, and the reply to it if
these are the members. -/
inductive IntervalRequest (F : Type) [F64 F] (args : List RespExpr) : (Scores F → Bytes) → Prop
  | zrangebyscore (h : Calls F args (ascii "ZRANGEBYSCORE")) : IntervalRequest F args membersReply
  | zcount (h : Calls F args (ascii "ZCOUNT")) :
      IntervalRequest F args fun entries => sendInteger (Int64.ofNat entries.length)

theorem IntervalRequest.length_inj {args : List RespExpr} {answer : Scores F → Bytes}
    (h : IntervalRequest F args answer) {a b : Scores F} (ha : a.length < 2 ^ 63)
    (hb : b.length < 2 ^ 63) (heq : answer a = answer b) : a.length = b.length := by
  cases h with
  | zrangebyscore =>
    rw [membersReply, membersReply, sendStringArray, sendStringArray, length_map, length_map] at heq
    exact (sendArrayLen_append_inj ha hb heq).1
  | zcount =>
    have hint := congrArg Int64.toInt (sendInteger_injective heq)
    rw [Int64.toInt_ofNat_of_lt ha, Int64.toInt_ofNat_of_lt hb] at hint
    exact Int.ofNat.inj hint

theorem IntervalRequest.reply {args : List RespExpr} {answer : Scores F → Bytes}
    (h : IntervalRequest F args answer) {ω : Listing Bytes} {conn : ConnContext} {s : EngineShard F}
    {key : Bytes} {members : Members F} {scores : Scores F}
    (hv : s.held conn key = some (.zset members scores))
    (hkey : args[1]?.bind RespExpr.asBytes = some key) :
    (dispatch ω args conn s).reply = some (answer (scoreInterval ⟨args, conn.dbIndex⟩ scores)) := by
  have hkey' : (⟨args, conn.dbIndex⟩ : CommandContext).argBytes 1 = some key := hkey
  cases h with
  | zrangebyscore hcalls =>
    have hfind := find_of_getElem (F := F) (n := 6) zsetTable (by simp [tables]) rfl rfl
    exact (view_held zsetOf (hcalls.resolve hfind) hv rfl fun h => .arg_bind hkey' h).1
  | zcount hcalls =>
    have hfind := find_of_getElem (F := F) (n := 8) zsetTable (by simp [tables]) rfl rfl
    exact (view_held zsetOf (hcalls.resolve hfind) hv rfl fun h => .arg_bind hkey' h).1

/-- `ZRANGEBYSCORE` and `ZCOUNT` tell of exactly the members in the interval, unless the score of a
member is an excluded end of it and within the other end. -/
theorem score_interval_right_iff [F64.Compares F] (ω : Listing Bytes) (conn : ConnContext)
    (s : EngineShard F) (key : Bytes) (members : Members F) (scores : Scores F)
    (hv : s.held conn key = some (.zset members scores)) (hagree : Agree members scores)
    (hlen : scores.length < 2 ^ 63) (args : List RespExpr) (answer : Scores F → Bytes)
    (h : IntervalRequest F args answer) (hkey : args[1]?.bind RespExpr.asBytes = some key)
    (min max : Bytes) (hmin : args[2]?.bind RespExpr.asStr = some min)
    (hmax : args[3]?.bind RespExpr.asStr = some max) (lo hi : Bound F) (hlo : Bound.Written min lo)
    (hhi : Bound.Written max hi) :
    (∃ entries, ExactlyIn members lo hi entries ∧
      (dispatch ω args conn s).reply = some (answer entries)) ↔
      ∀ m x, members.lookup m = some x → inInterval lo.closed hi.closed x = true →
        inInterval lo hi x = true := by
  have hmin' : (⟨args, conn.dbIndex⟩ : CommandContext).argStr 2 = some min := hmin
  have hmax' : (⟨args, conn.dbIndex⟩ : CommandContext).argStr 3 = some max := hmax
  rw [h.reply hv hkey, scoreInterval_eq hmin' hmax' hlo hhi]
  constructor
  · rintro ⟨entries, hin, hreply⟩ m x hm hclosed
    have hsub : (scores.filter fun e => inInterval lo hi e.score).Sublist
        (scores.filter fun e => inInterval lo.closed hi.closed e.score) :=
      monotone_filter_right scores fun e => inInterval_closed
    have hfits : ∀ p : SortedSetEntry F → Bool, (scores.filter p).length < 2 ^ 63 :=
      fun p => (length_filter_le p scores).trans_lt hlen
    have hsame := hin.length_eq hagree
    have hall := h.length_inj (hsame ▸ hfits _) (hfits _) (Option.some.inj hreply).symm
    have hmem : (⟨x, m⟩ : SortedSetEntry F) ∈ scores.filter fun e =>
        inInterval lo.closed hi.closed e.score :=
      mem_filter.mpr ⟨(hagree.pairs m x).mp hm, hclosed⟩
    rw [← hsub.eq_of_length (hsame.symm.trans hall)] at hmem
    exact (mem_filter.mp hmem).2
  · intro hends
    refine ⟨_, hagree.exactlyIn lo hi, ?_⟩
    refine congrArg (fun l => some (answer l)) (filter_congr fun e he => ?_)
    exact Bool.eq_iff_iff.mpr ⟨hends _ _ ((hagree.pairs _ _).mpr he), inInterval_closed⟩

end Requests

/-! ## An excluded end -/

section Fixed

attribute [local instance] nanOrWhole CaseTable.identity HashOrder.arbitrary

/-- The shard after `ZADD z 1 a 2 b`. -/
noncomputable def twoScores : EngineShard (Option Int) :=
  (dispatch (.arbitrary Bytes) (command ["ZADD", "z", "1", "a", "2", "b"])
    ⟨0⟩ EngineShard.new).shard

theorem twoScores_held : ∃ (members : Members (Option Int)) (scores : Scores (Option Int)),
    twoScores.held ⟨0⟩ (ascii "z") = some (.zset members scores) ∧ Agree members scores ∧
      scores = [⟨some 1, ascii "a"⟩, ⟨some 2, ascii "b"⟩] := by
  have hcompares := nanOrWhole_compares
  have hnum : ∀ p ∈ ([(some 1, ascii "a"), (some 2, ascii "b")] : List (Option Int × Bytes)),
      ¬F64.IsNan p.1 := by
    intro p hp
    simp only [mem_cons, not_mem_nil, or_false] at hp
    rcases hp with rfl | rfl <;> exact Option.some_ne_none _
  exact ⟨_, _, rfl, agree_empty.addAll hnum, rfl⟩

theorem written_two : Bound.Written (ascii "2") (⟨some 2, false⟩ : Bound (Option Int)) :=
  .number rfl (by decide) (by decide)

/-- The interval from 1, excluded, to 2 does not hold the score 1. -/
theorem excluded_end_is_in :
    F64.Compares (Option Int) ∧
    (∃ (members : Members (Option Int)) (scores : Scores (Option Int)),
      twoScores.held ⟨0⟩ (ascii "z") = some (.zset members scores) ∧ Agree members scores ∧
        members.lookup (ascii "a") = some (some 1)) ∧
    Bound.Written (ascii "(1") (⟨some 1, true⟩ : Bound (Option Int)) ∧
    Bound.Written (ascii "2") (⟨some 2, false⟩ : Bound (Option Int)) ∧
    inInterval ⟨some 1, true⟩ ⟨some 2, false⟩ (some 1 : Option Int) = false ∧
    (dispatch (.arbitrary Bytes) (command ["ZRANGEBYSCORE", "z", "(1", "2"]) ⟨0⟩ twoScores).reply =
      some (sendStringArray [ascii "a", ascii "b"]) ∧
    (dispatch (.arbitrary Bytes) (command ["ZCOUNT", "z", "(1", "2"]) ⟨0⟩ twoScores).reply =
      some (sendInteger 2) := by
  have hparse : F64.parse (ascii "1") = some (some (1 : Int)) := rfl
  obtain ⟨members, scores, hheld, hagree, hscores⟩ := twoScores_held
  refine ⟨nanOrWhole_compares, ⟨members, scores, hheld, hagree, ?_⟩, .excluded hparse, written_two,
    rfl, ?_, ?_⟩
  · rw [hagree.pairs, hscores]
    exact mem_cons_self
  · decide +kernel
  · decide +kernel

theorem score_interval_right_inner :
    ∃ (members : Members (Option Int)) (entries : Scores (Option Int)),
      ExactlyIn members ⟨some 0, true⟩ ⟨some 2, false⟩ entries ∧
      (dispatch (.arbitrary Bytes) (command ["ZRANGEBYSCORE", "z", "(0", "2"])
        ⟨0⟩ twoScores).reply = some (membersReply entries) := by
  have hcompares := nanOrWhole_compares
  obtain ⟨members, scores, hheld, hagree, hscores⟩ := twoScores_held
  have hfind := find_of_getElem (F := Option Int) (n := 6) zsetTable (by simp [tables]) rfl rfl
  have hcalls : Calls (Option Int) (command ["ZRANGEBYSCORE", "z", "(0", "2"])
      (ascii "ZRANGEBYSCORE") :=
    .of_find (commandName_of_find hfind _) hfind rfl
  have hparse : F64.parse (ascii "0") = some (some (0 : Int)) := rfl
  have hiff :=
    score_interval_right_iff (.arbitrary Bytes) ⟨0⟩ twoScores (ascii "z") members scores hheld
    hagree (by rw [hscores]; decide) _ _ (.zrangebyscore hcalls) rfl _ _ rfl rfl _ _
    (.excluded hparse) written_two
  refine ⟨members, hiff.mpr fun m x hm _ => ?_⟩
  rw [hagree.pairs, hscores] at hm
  simp only [mem_cons, mk.injEq, not_mem_nil, or_false] at hm
  rcases hm with ⟨rfl, -⟩ | ⟨rfl, -⟩ <;> rfl

end Fixed

/-! ## Positions -/

section Order

variable {members : Members F} {scores : Scores F}

theorem Agree.nodup [F64.Compares F] (h : Agree members scores) : scores.Nodup :=
  SearchList.Sorted.nodup linearOn_cmp h.sorted h.numbers

/-- The entry of a member is found from both sides. -/
theorem Agree.findIdx [F64.Compares F] (h : Agree members scores) {m : Bytes} {x : F}
    (hm : members.lookup m = some x) :
    ∃ before after, scores = before ++ ⟨x, m⟩ :: after ∧
      (scores.findIdx fun e => entryEq e ⟨x, m⟩) = before.length ∧
      (scores.reverse.findIdx fun e => entryEq e ⟨x, m⟩) = after.length := by
  have hmem := (h.pairs m x).mp hm
  obtain ⟨before, after, hsplit⟩ := append_of_mem hmem
  have hself : entryEq (⟨x, m⟩ : SortedSetEntry F) ⟨x, m⟩ = true := by
    rw [entryEq, F64.partialCmp_self (h.numbers _ hmem)]
    simp
  have hone : ∀ e ∈ before ++ after, ¬ entryEq e ⟨x, m⟩ = true := by
    intro e he heq
    have hnodup := h.nodup
    rw [hsplit, nodup_middle, nodup_cons] at hnodup
    have hin : e ∈ scores := by
      rw [hsplit]
      exact perm_middle.mem_iff.mpr (mem_cons_of_mem _ he)
    rw [entryEq, Bool.and_eq_true, decide_eq_true_iff, decide_eq_true_iff] at heq
    rw [h.score_unique hin hmem heq.2] at he
    exact hnodup.1 he
  refine ⟨before, after, hsplit, ?_, ?_⟩
  · rw [hsplit]
    exact Positions.findIdx_append_cons (fun e he => hone e (mem_append_left _ he)) hself
  · rw [hsplit, reverse_append, reverse_cons, append_assoc, singleton_append,
      Positions.findIdx_append_cons (fun e he => hone e (mem_append_right _ (mem_reverse.mp he)))
      hself, length_reverse]

theorem Agree.card_keys [F64.Compares F] (h : Agree members scores) :
    members.keys.card = scores.length := by
  have hnodup : (scores.map member).Nodup :=
    List.Nodup.map_on (fun e he e' he' hm => h.score_unique he he' hm) h.nodup
  have hkeys : members.keys = (scores.map member).toFinset := by
    ext m
    rw [Finmap.mem_keys, ← Finmap.lookup_isSome, Option.isSome_iff_exists, mem_toFinset, mem_map]
    constructor
    · rintro ⟨x, hx⟩
      exact ⟨⟨x, m⟩, (h.pairs m x).mp hx, rfl⟩
    · rintro ⟨⟨x, m⟩, he, rfl⟩
      exact ⟨x, (h.pairs m x).mpr he⟩
  rw [hkeys, toFinset_card_of_nodup hnodup, length_map]

/-- The reply of `ZRANK` and `ZREVRANK`. -/
def rankReply (members : Members F) (entries : Scores F) (m : Bytes) : Bytes :=
  match members.lookup m with
  | some x => sendInteger (Int64.ofNat (entries.findIdx fun e => entryEq e ⟨x, m⟩))
  | none => sendNull

theorem sendInteger_ne_sendNull (n : Int64) : sendInteger n ≠ sendNull :=
  fun h => absurd (cons.inj h).1 (by decide)

variable {m : Bytes}

theorem rankReply_eq_iff [F64.Compares F] (h : Agree members scores) (hlen : scores.length < 2 ^ 63)
    {i : Int64} (hi : 0 ≤ i.toInt) :
    rankReply members scores m = sendInteger i ↔
      scores[i.toInt.toNat]?.map member = some m := by
  rw [rankReply]
  cases hm : members.lookup m with
  | none =>
    refine iff_of_false (sendInteger_ne_sendNull i).symm fun hat => ?_
    obtain ⟨e, he, rfl⟩ := Option.map_eq_some_iff.mp hat
    rw [(h.pairs e.member e.score).mpr (mem_of_getElem? he)] at hm
    cases hm
  | some x =>
    obtain ⟨before, after, hsplit, hrank, -⟩ := h.findIdx hm
    have hbefore : before.length < 2 ^ 63 := by
      rw [hsplit, length_append] at hlen
      omega
    have hint := Int64.toInt_ofNat_of_lt hbefore
    have hat : scores[before.length]? = some ⟨x, m⟩ := by
      rw [hsplit, getElem?_append_right le_rfl, Nat.sub_self]
      rfl
    dsimp only
    rw [hrank]
    constructor
    · intro heq
      rw [← sendInteger_injective heq, hint, Int.toNat_natCast, hat]
      rfl
    · intro hthere
      obtain ⟨e, he, rfl⟩ := Option.map_eq_some_iff.mp hthere
      have hsame := h.score_unique (mem_of_getElem? he) ((h.pairs _ _).mp hm) rfl
      have hindex : i.toInt.toNat = before.length :=
        (List.getElem?_inj (List.getElem?_eq_some_iff.mp he).1 h.nodup).mp (by rw [he, hsame, hat])
      have hi' : i = Int64.ofNat before.length := Int64.toInt_inj.mp (by omega)
      rw [hi']

omit [F64 F] in
theorem membersReply_single_iff {o : Option (SortedSetEntry F)} :
    membersReply o.toList = sendStringArray [m] ↔ o.map member = some m := by
  cases o with
  | none =>
    refine iff_of_false (fun heq => ?_) (Option.some_ne_none m).symm
    exact Nat.zero_ne_one (sendArrayLen_append_inj (n := 0) (m := 1) (by decide) (by decide) heq).1
  | some e =>
    refine ⟨fun heq => congrArg some ?_, fun heq => ?_⟩
    · have hbulk := (sendArrayLen_append_inj (n := 1) (m := 1) (by decide) (by decide) heq).2
      rw [Option.toList_some, map_singleton, flatMap_singleton, flatMap_singleton] at hbulk
      exact sendBulkString_injective hbulk
    · rw [← Option.some.inj heq]
      rfl

theorem rankReply_null_iff {entries : Scores F} :
    rankReply members entries m = sendNull ↔ m ∉ members := by
  rw [rankReply, ← Finmap.lookup_eq_none]
  cases members.lookup m with
  | none => exact iff_of_true rfl rfl
  | some x => exact iff_of_false (sendInteger_ne_sendNull _) (Option.some_ne_none x)

/-- The ranks from both sides. -/
theorem rankReply_both [F64.Compares F] (h : Agree members scores) (hlen : scores.length < 2 ^ 63)
    (hm : m ∈ members) :
    ∃ i j : Int64, rankReply members scores m = sendInteger i ∧
      rankReply members scores.reverse m = sendInteger j ∧
      i.toInt + j.toInt = members.keys.card - 1 := by
  obtain ⟨x, hx⟩ := Option.isSome_iff_exists.mp (Finmap.lookup_isSome.mpr hm)
  obtain ⟨before, after, hsplit, hfirst, hlast⟩ := h.findIdx hx
  have hcard := h.card_keys
  rw [hsplit, length_append, length_cons] at hcard
  rw [hsplit, length_append, length_cons] at hlen
  refine ⟨Int64.ofNat before.length, Int64.ofNat after.length, ?_, ?_, ?_⟩
  · rw [rankReply, hx]
    exact congrArg (fun n => sendInteger (Int64.ofNat n)) hfirst
  · rw [rankReply, hx]
    exact congrArg (fun n => sendInteger (Int64.ofNat n)) hlast
  · rw [Int64.toInt_ofNat_of_lt (by omega), Int64.toInt_ofNat_of_lt (by omega), hcard]
    omega

/-! ## The two ends -/

/-- The entries from the first on, or from the last on. -/
def inOrder (rev : Bool) (scores : Scores F) : Scores F := if rev then scores.reverse else scores

omit [F64 F] in
theorem mem_inOrder {rev : Bool} {e : SortedSetEntry F} : e ∈ inOrder rev scores ↔ e ∈ scores := by
  cases rev
  · exact .rfl
  · exact mem_reverse

/-- The entry that is popped is the one that is removed. -/
theorem Agree.inOrder_remove [F64.Compares F] (h : Agree members scores) {rev : Bool}
    {e : SortedSetEntry F} {rest : Scores F} (he : inOrder rev scores = e :: rest) :
    inOrder rev (scoresRemove e scores) = rest := by
  have hmem : e ∈ scores := mem_inOrder.mp (he ▸ mem_cons_self)
  obtain ⟨before, after, hsplit, hremove⟩ := h.remove_self hmem
  have hnodup := h.nodup
  rw [hsplit, nodup_middle, nodup_cons, mem_append, not_or] at hnodup
  rw [hremove]
  rw [hsplit] at he
  cases rev with
  | false => exact Positions.append_eq_of_cons hnodup.1.1 he
  | true =>
    change (before ++ e :: after).reverse = e :: rest at he
    change (before ++ after).reverse = rest
    rw [reverse_append, reverse_cons, append_assoc, singleton_append] at he
    rw [reverse_append]
    exact Positions.append_eq_of_cons (fun h => hnodup.1.2 (mem_reverse.mp h)) he

omit [F64 F] in
theorem length_inOrder (rev : Bool) (scores : Scores F) :
    (inOrder rev scores).length = scores.length := by
  cases rev
  · rfl
  · exact length_reverse

omit [F64 F] in
theorem inOrder_inOrder (rev : Bool) (scores : Scores F) :
    inOrder rev (inOrder rev scores) = scores := by
  cases rev
  · rfl
  · exact reverse_reverse scores

/-- Popping takes from the front of the order, and leaves the rest of it. -/
theorem Agree.popEntries_eq [F64.Compares F] (h : Agree members scores) (rev : Bool) (n : Nat) :
    (ZsetFamily.popEntries rev n members scores).1 = (inOrder rev scores).take n ∧
      inOrder rev (ZsetFamily.popEntries rev n members scores).2.2 =
      (inOrder rev scores).drop n := by
  induction n generalizing members scores with
  | zero => exact ⟨rfl, rfl⟩
  | succ n ih =>
    have hnext : (if rev then scores.getLast? else scores.head?) = (inOrder rev scores).head? := by
      cases rev
      · rfl
      · exact head?_reverse.symm
    rw [ZsetFamily.popEntries, hnext]
    cases he : inOrder rev scores with
    | nil => exact ⟨rfl, he⟩
    | cons e rest =>
      have hmem : e ∈ scores := mem_inOrder.mp (he ▸ mem_cons_self)
      obtain ⟨hpopped, hleft⟩ := ih (h.drop ((h.pairs e.member e.score).mpr hmem))
      rw [h.inOrder_remove he] at hpopped hleft
      exact ⟨congrArg (e :: ·) hpopped, hleft⟩

theorem Agree.popEntries_left [F64.Compares F] (h : Agree members scores) (rev : Bool) (n : Nat) :
    (ZsetFamily.popEntries rev n members scores).2.2 =
    inOrder rev ((inOrder rev scores).drop n) := by
  rw [← (h.popEntries_eq rev n).2, inOrder_inOrder]

end Order

/-! ## Requests -/

section Requests

variable [HashOrder] [CaseTable]

/-- A request for the members between two positions. -/
structure ZrangeCall (F : Type) [F64 F] (args : List RespExpr) (key : Bytes) (start stop : Int64) :
    Prop where
  calls : Calls F args (ascii "ZRANGE")
  key : args[1]?.bind RespExpr.asBytes = some key
  start : (args[2]?.bind RespExpr.asStr).bind parseI64 = some start
  stop : (args[3]?.bind RespExpr.asStr).bind parseI64 = some stop
  last : args.length = 4

/-- A request for the position of a member, counted from the first or from the last. -/
structure ZrankCall (F : Type) [F64 F] (args : List RespExpr) (name key member : Bytes) : Prop where
  calls : Calls F args name
  key : args[1]?.bind RespExpr.asBytes = some key
  member : args[2]?.bind RespExpr.asBytes = some member

/-- A request to take members from one end; without a count it takes one. -/
structure ZpopCall (F : Type) [F64 F] (args : List RespExpr) (name key : Bytes) (count : Nat) :
    Prop where
  calls : Calls F args name
  key : args[1]?.bind RespExpr.asBytes = some key
  count : (args.length = 2 ∧ count = 1) ∨
    (2 < args.length ∧ ∃ n : UInt64, (args[2]?.bind RespExpr.asStr).bind parseU64 = some n ∧
      n.toNat = count)

/-- What is left of a sorted set: nothing, or exactly these entries. -/
def Remains (rest : Scores F) (left : Option (PrimeValue F)) : Prop :=
  (rest = [] ∧ left = none) ∨
    (rest ≠ [] ∧ ∃ members, left = some (.zset members rest) ∧ Agree members rest)

variable {ω : Listing Bytes} {conn : ConnContext} {s : EngineShard F} {args : List RespExpr}
  {key m : Bytes}
  {members : Members F} {scores : Scores F}

theorem ZrangeCall.reply {start stop : Int64} (h : ZrangeCall F args key start stop)
    (hv : s.held conn key = some (.zset members scores)) :
    (dispatch ω args conn s).reply = some (membersReply (sliceRange scores start stop)) := by
  have hkey : (⟨args, conn.dbIndex⟩ : CommandContext).argBytes 1 = some key := h.key
  have hstart : ((⟨args, conn.dbIndex⟩ : CommandContext).argStr 2).bind parseI64 = some start :=
    h.start
  have hstop : ((⟨args, conn.dbIndex⟩ : CommandContext).argStr 3).bind parseI64 = some stop :=
    h.stop
  have hfind := find_of_getElem (F := F) (n := 5) zsetTable (by simp [tables]) rfl rfl
  have hreply :=
    (view_held (ω := ω) zsetOf (h.calls.resolve hfind) hv rfl fun h => .arg_bind hkey h).1
  rw [hreply, hstart, hstop]
  dsimp only
  rw [h.last]
  rfl

theorem ZrankCall.reply {name : Bytes} (h : ZrankCall F args name key m) {entry : CommandEntry F}
    (hfind : find name = some entry) (rev : Bool) (hentry : entry.handler = (zrankImpl · rev))
    (hv : s.held conn key = some (.zset members scores)) :
    (dispatch ω args conn s).reply = some (rankReply members (inOrder rev scores) m) := by
  have hkey : (⟨args, conn.dbIndex⟩ : CommandContext).argBytes 1 = some key := h.key
  have hmember : (⟨args, conn.dbIndex⟩ : CommandContext).argBytes 2 = some m := h.member
  obtain ⟨_, handler, _, _⟩ := entry
  obtain rfl : handler = (zrankImpl · rev) := hentry
  exact (view_held zsetOf (h.calls.resolve hfind) hv rfl fun h =>
    .arg_bind hkey (.arg_bind hmember h)).1

theorem ZpopCall.popCount {name : Bytes} {count : Nat} (h : ZpopCall F args name key count)
    (conn : ConnContext) : ZsetFamily.popCount ⟨args, conn.dbIndex⟩ = count := by
  rw [ZsetFamily.popCount]
  rcases h.count with ⟨hargs, hone⟩ | ⟨hargs, n, hn, hcount⟩
  · rw [if_neg (Nat.not_lt.mpr hargs.le), hone]
  · have hn' : ((⟨args, conn.dbIndex⟩ : CommandContext).argStr 2).bind parseU64 = some n := hn
    rw [if_pos hargs, hn', Option.getD_some, hcount]

theorem ZpopCall.pops [F64.Compares F] {name : Bytes} {count : Nat}
    (h : ZpopCall F args name key count) {entry : CommandEntry F} (hfind : find name = some entry)
    (rev : Bool) (hentry : entry.handler = (zpopImpl · rev))
    (hv : s.held conn key = some (.zset members scores)) (hagree : Agree members scores)
    (hlen : scores.length ≤ maxPopped) :
    (dispatch ω args conn s).reply = some (withScores ((inOrder rev scores).take count)) ∧
      Remains (inOrder rev ((inOrder rev scores).drop count))
        ((dispatch ω args conn s).shard.held conn key) := by
  have hkey : (⟨args, conn.dbIndex⟩ : CommandContext).argBytes 1 = some key := h.key
  obtain ⟨_, handler, _, _⟩ := entry
  obtain rfl : handler = (zpopImpl · rev) := hentry
  -- no more rounds than there are entries, so the bound on the rounds does not matter
  let rounds := min count (maxPopped + 1)
  have horder : (inOrder rev scores).length ≤ maxPopped := (length_inOrder rev scores).trans_le hlen
  have htake : (inOrder rev scores).take rounds = (inOrder rev scores).take count := by
    rw [take_eq_take_iff]
    omega
  have hdrop : (inOrder rev scores).drop rounds = (inOrder rev scores).drop count := by
    rw [drop_eq_drop_iff]
    omega
  have hpopped := (hagree.popEntries_eq rev rounds).1.trans htake
  have hleft := hagree.popEntries_left rev rounds
  rw [hdrop] at hleft
  have hagree' := hagree.popEntries rev rounds
  have hempty : (ZsetFamily.popEntries rev rounds members scores).2.1.keys = ∅ ↔
      inOrder rev ((inOrder rev scores).drop count) = [] := by
    rw [← Finset.card_eq_zero, hagree'.card_keys, hleft, length_eq_zero_iff]
  have hfits : ¬maxPopped < (ZsetFamily.popEntries rev rounds members scores).1.length := by
    rw [hpopped, length_take]
    omega
  obtain ⟨hreply, hheld⟩ := tryEdit_held (ω := ω) zsetOf (h.calls.resolve hfind) hv rfl
    (if_neg (h.popCount conn ▸ hfits)) fun h => .arg_bind hkey h
  dsimp only [Edit.reply, Edit.left] at hreply hheld
  rw [h.popCount] at hreply hheld
  rw [hreply, hheld, hpopped, hleft]
  refine ⟨rfl, ?_⟩
  by_cases hnone : inOrder rev ((inOrder rev scores).drop count) = []
  · rw [if_pos (decide_eq_true (hempty.mpr hnone))]
    exact .inl ⟨hnone, rfl⟩
  · rw [if_neg fun h => hnone (hempty.mp (of_decide_eq_true h))]
    exact .inr ⟨hnone, _, rfl, hleft ▸ hagree'⟩

/-- In every state that a run without `NaN` leads to, all commands tell of one order.
`ZRANGE 0 -1` replies the members in the order of scores and members, a member's rank is the
position at which `ZRANGE` finds it, the ranks from both sides add up to the last position, and
the members are popped from the two ends. No table of members has more than `maxPopped` entries,
at 32 bytes each. -/
theorem sorted_set_positions_agree [F64.Compares F] (orders : Nat → Listing Bytes)
    (events : List ShardEvent) (hsound : SoundRun orders events (EngineShard.new : EngineShard F))
    (s : EngineShard F) (hs : s = EngineShard.new.through orders events) (ω : Listing Bytes)
    (conn : ConnContext) (key : Bytes) (members : Members F) (scores : Scores F)
    (hv : s.held conn key = some (.zset members scores)) (hfits : members.keys.card ≤ maxPopped) :
    SearchList.Sorted SortedSetEntry.cmp scores ∧
    (∀ args, ZrangeCall F args key 0 (-1) →
      (dispatch ω args conn s).reply = some (membersReply scores)) ∧
    (∀ m i args args', ZrankCall F args (ascii "ZRANK") key m → ZrangeCall F args' key i i →
      0 ≤ i.toInt → ((dispatch ω args conn s).reply = some (sendInteger i) ↔
        (dispatch ω args' conn s).reply = some (sendStringArray [m]))) ∧
    (∀ m args args', ZrankCall F args (ascii "ZRANK") key m →
      ZrankCall F args' (ascii "ZREVRANK") key m →
      (m ∈ members → ∃ i j : Int64, (dispatch ω args conn s).reply = some (sendInteger i) ∧
        (dispatch ω args' conn s).reply = some (sendInteger j) ∧
        i.toInt + j.toInt = members.keys.card - 1) ∧
      ((dispatch ω args conn s).reply = some sendNull ↔ m ∉ members) ∧
      ((dispatch ω args' conn s).reply = some sendNull ↔ m ∉ members)) ∧
    (∀ count args, ZpopCall F args (ascii "ZPOPMIN") key count →
      (dispatch ω args conn s).reply = some (withScores (scores.take count)) ∧
      Remains (scores.drop count) ((dispatch ω args conn s).shard.held conn key)) ∧
    (∀ count args, ZpopCall F args (ascii "ZPOPMAX") key count →
      (dispatch ω args conn s).reply = some (withScores (scores.reverse.take count)) ∧
      Remains (scores.take (scores.length - count))
        ((dispatch ω args conn s).shard.held conn key)) := by
  have h : Agree members scores := by
    have hnew : (EngineShard.new : EngineShard F).dbSlice.Values ViewsAgree := by
      rintro a v ⟨⟩
    subst hs
    exact through_views hnew hsound _ _ (Cell.value_of_live hv) members scores rfl
  have hle : scores.length ≤ maxPopped := h.card_keys ▸ hfits
  have hlen : scores.length < 2 ^ 63 := hle.trans_lt (by decide)
  have hfirst := find_of_getElem (F := F) (n := 3) zsetTable (by simp [tables]) rfl rfl
  have hlast := find_of_getElem (F := F) (n := 4) zsetTable (by simp [tables]) rfl rfl
  have hmin := find_of_getElem (F := F) (n := 10) zsetTable (by simp [tables]) rfl rfl
  have hmax := find_of_getElem (F := F) (n := 11) zsetTable (by simp [tables]) rfl rfl
  refine ⟨h.sorted, fun args hall => ?_, fun m i args args' hrank hrange hi => ?_,
    fun m args args' hrank hrev => ?_, fun count args hpop => ?_, fun count args hpop => ?_⟩
  · rw [hall.reply hv, sliceRange_all hlen]
  · rw [hrank.reply hfirst false rfl hv, hrange.reply hv, sliceRange_single hlen hi,
      Option.some.injEq, Option.some.injEq, membersReply_single_iff]
    exact rankReply_eq_iff h hlen hi
  · rw [hrank.reply hfirst false rfl hv, hrev.reply hlast true rfl hv]
    simp only [Option.some.injEq]
    exact ⟨rankReply_both h hlen, rankReply_null_iff, rankReply_null_iff⟩
  · exact hpop.pops hmin false rfl hv h hle
  · obtain ⟨hreply, hleft⟩ := hpop.pops (ω := ω) hmax true rfl hv h hle
    refine ⟨hreply, ?_⟩
    have hrest : inOrder true ((inOrder true scores).drop count) =
        scores.take (scores.length - count) := by
      change (scores.reverse.drop count).reverse = _
      rw [drop_reverse, reverse_reverse]
    exact hrest ▸ hleft

end Requests

section Fixed

attribute [local instance] nanOrWhole CaseTable.identity HashOrder.arbitrary

/-- `ZADD z 2 c 1 a 2 b`, where two members share a score. -/
def tiedScores : List ShardEvent :=
  [.command ⟨0⟩ (command ["ZADD", "z", "2", "c", "1", "a", "2", "b"])]

theorem tiedScores_sound :
    SoundRun (fun _ => .arbitrary Bytes) tiedScores
    (EngineShard.new : EngineShard (Option Int)) := by
  refine ⟨⟨?_, ?_⟩, trivial⟩
  · intro _ pairs hpairs
    obtain rfl : [(some 2, ascii "c"), (some 1, ascii "a"), (some 2, ascii "b")] = pairs :=
      Option.some.inj hpairs
    intro p hp
    simp only [mem_cons, not_mem_nil, or_false] at hp
    rcases hp with rfl | rfl | rfl <;> exact Option.some_ne_none _
  · intro hname
    exact absurd (Except.ok.inj hname) (by decide)

theorem sorted_set_positions_agree_tied :
    ∃ s : EngineShard (Option Int),
    s = EngineShard.new.through (fun _ => .arbitrary Bytes) tiedScores ∧
    (dispatch (.arbitrary Bytes) (command ["ZPOPMAX", "z", "2"]) ⟨0⟩ s).reply =
      some (withScores [(⟨some 2, ascii "c"⟩ : SortedSetEntry (Option Int)), ⟨some 2, ascii "b"⟩]) ∧
    Remains [(⟨some 1, ascii "a"⟩ : SortedSetEntry (Option Int))]
      ((dispatch (.arbitrary Bytes) (command ["ZPOPMAX", "z", "2"]) ⟨0⟩ s).shard.held ⟨0⟩
        (ascii "z")) := by
  have hcompares := nanOrWhole_compares
  obtain ⟨members, scores, hheld, hcard, hscores⟩ : ∃ (members : Members (Option Int))
      (scores : Scores (Option Int)),
      ((EngineShard.new : EngineShard (Option Int)).through (fun _ =>
        .arbitrary Bytes) tiedScores).held
        ⟨0⟩ (ascii "z") = some (.zset members scores) ∧ members.keys.card ≤ maxPopped ∧
      scores = [⟨some 1, ascii "a"⟩, ⟨some 2, ascii "b"⟩, ⟨some 2, ascii "c"⟩] :=
    ⟨_, _, rfl, by decide, rfl⟩
  subst hscores
  have hfind := find_zpopmax (F := Option Int)
  have hcalls : Calls (Option Int) (command ["ZPOPMAX", "z", "2"]) (ascii "ZPOPMAX") :=
    .of_find (commandName_of_find hfind _) hfind rfl
  obtain ⟨-, -, -, -, -, hmax⟩ := sorted_set_positions_agree _ tiedScores tiedScores_sound _ rfl
    (.arbitrary Bytes) ⟨0⟩ (ascii "z") members _ hheld hcard
  exact ⟨_, rfl, hmax 2 _ ⟨hcalls, rfl, .inr ⟨by decide, 2, by decide, rfl⟩⟩⟩

/-- The shard after `ZADD z nan m 1 z 7 a` and `ZREM z m`. -/
noncomputable def disordered : EngineShard (Option Int) :=
  EngineShard.new.through (fun _ => .arbitrary Bytes)
    [.command ⟨0⟩ (command ["ZADD", "z", "nan", "m", "1", "z", "7", "a"]),
      .command ⟨0⟩ (command ["ZREM", "z", "m"])]

def disorderedMembers : Members (Option Int) :=
  (((∅ : Members (Option Int)).insert (ascii "m") none).insert (ascii "z") (some 1)).insert
    (ascii "a") (some 7) |>.erase (ascii "m")

theorem disorderedMembers_lookup (m : Bytes) : disorderedMembers.lookup m =
    if m = ascii "a" then some (some 7) else if m = ascii "z" then some (some 1) else none := by
  rw [disorderedMembers]
  by_cases hm : m = ascii "m"
  · subst hm
    exact Finmap.lookup_erase _ _
  · rw [Finmap.lookup_erase_ne hm]
    split
    · next ha => rw [ha, Finmap.lookup_insert]
    · next ha =>
      rw [Finmap.lookup_insert_of_ne _ ha]
      split
      · next hz => rw [hz, Finmap.lookup_insert]
      · next hz => rw [Finmap.lookup_insert_of_ne _ hz, Finmap.lookup_insert_of_ne _ hm,
          Finmap.lookup_empty]

theorem disordered_held : disordered.held ⟨0⟩ (ascii "z") =
    some (.zset disorderedMembers [⟨some 7, ascii "a"⟩, ⟨some 1, ascii "z"⟩]) := rfl

/-- No score is `NaN` and both maps hold the same pairs, but the ordered one holds them in the
wrong order: `ZRANGE` replies `a` with 7 before `z` with 1, and `ZPOPMAX` does not find the entry
that it pops. -/
theorem nan_leaves_disorder : F64.Compares (Option Int) ∧
    ∃ members members' : Members (Option Int),
      disordered.held ⟨0⟩ (ascii "z") =
        some (.zset members [⟨some 7, ascii "a"⟩, ⟨some 1, ascii "z"⟩]) ∧
      (∀ m x, members.lookup m = some x ↔
        (⟨x, m⟩ : SortedSetEntry (Option Int)) ∈ [⟨some 7, ascii "a"⟩, ⟨some 1, ascii "z"⟩]) ∧
      (dispatch (.arbitrary Bytes) (command ["ZRANGE", "z", "0", "-1"]) ⟨0⟩ disordered).reply =
        some (sendStringArray [ascii "a", ascii "z"]) ∧
      (dispatch (.arbitrary Bytes) (command ["ZPOPMAX", "z", "1"]) ⟨0⟩ disordered).shard.held ⟨0⟩
          (ascii "z") = some (.zset members' [⟨some 7, ascii "a"⟩, ⟨some 1, ascii "z"⟩]) ∧
      members'.lookup (ascii "z") = none := by
  have hres : resolve (F := Option Int) (command ["ZPOPMAX", "z", "1"]) = _ :=
    resolve_string find_zpopmax rfl
  have hkey : (⟨command ["ZPOPMAX", "z", "1"], 0⟩ : CommandContext).argBytes 1 = some (ascii "z") :=
    rfl
  have hpopped := (tryEdit_held (ω := .arbitrary Bytes) zsetOf hres disordered_held rfl
    (if_neg (by decide +kernel)) fun h => .arg_bind hkey h).2
  have hrounds : min (popCount ⟨command ["ZPOPMAX", "z", "1"], 0⟩) (maxPopped + 1) = 1 := by
    decide +kernel
  have hone : popEntries true 1 disorderedMembers [⟨some 7, ascii "a"⟩, ⟨some 1, ascii "z"⟩] =
      ([⟨some 1, ascii "z"⟩], disorderedMembers.erase (ascii "z"),
        [⟨some 7, ascii "a"⟩, ⟨some 1, ascii "z"⟩]) := rfl
  have hsome : decide ((disorderedMembers.erase (ascii "z")).keys = ∅) = false := by decide +kernel
  rw [hrounds, hone, hsome] at hpopped
  refine ⟨nanOrWhole_compares, _, _, disordered_held, fun m x => ?_, ?_, hpopped,
    Finmap.lookup_erase _ _⟩
  · rw [disorderedMembers_lookup]
    have hne : ascii "z" ≠ ascii "a" := by decide
    simp only [mem_cons, mk.injEq, not_mem_nil, or_false]
    grind
  · decide +kernel

end Fixed

end ShrikeDb.ZsetFamily
