import ShrikeDb.Facade.RespRead
import ShrikeDb.Lib.Positions
import ShrikeDb.Lib.Words
import ShrikeDb.Server.Dispatch
import ShrikeDb.Server.Requests

/-! Ranges of positions. `LRANGE`, `LTRIM` and `ZRANGE` clamp two signed positions in the same
way before they cut; an end before the first element is clamped to the first element. -/

namespace ShrikeDb

open Program Command ReplyBuilder CommandRegistry ListFamily ZsetFamily Positions

variable {F : Type}

/-- The position a client names, counted from the end if negative. -/
def endpoint (len : Nat) (i : Int64) : Int := if i.toInt < 0 then len + i.toInt else i.toInt

/-- One end of a range, from below clamped to the first element and from above to `top`. -/
theorem toNat_clamped {len : Nat} (hlen : len < 2 ^ 63) (i : Int64) {top : Int64}
    (htop : 0 ≤ top.toInt) :
    ((if i < 0 then max (Int64.ofNat len + i) 0 else min i top).toUInt64.toNat : Int) =
      if i.toInt < 0 then max (endpoint len i) 0 else min (endpoint len i) top.toInt := by
  have hn : (Int64.ofNat len).toInt = len := Int64.toInt_ofNat_of_lt hlen
  have hzero : (0 : Int64).toInt = 0 := rfl
  rw [endpoint]
  by_cases h : i.toInt < 0
  · have hneg : i < 0 := Int64.lt_iff_toInt_lt.mpr h
    have hle := i.le_toInt
    have hmax := Words.toInt_max (Int64.ofNat len + i) 0
    rw [Words.toInt_add (by omega) (by omega), hn, hzero] at hmax
    rw [if_pos hneg, if_pos h, if_pos h, Words.toNat_toUInt64_of_nonneg (by omega), hmax]
  · have hneg : ¬ i < 0 := fun hlt => h (Int64.lt_iff_toInt_lt.mp hlt)
    have hmin := Words.toInt_min i top
    rw [if_neg hneg, if_neg h, if_neg h, Words.toNat_toUInt64_of_nonneg (by omega), hmin]

theorem indexRange_spec {len : Nat} (hpos : 0 < len) (hlen : len < 2 ^ 63) (start stop : Int64) :
    ((indexRange len start stop).1 : Int) = min (max (endpoint len start) 0) len ∧
      ((indexRange len start stop).2 : Int) = max (min (endpoint len stop) (len - 1)) 0 := by
  have hn : (Int64.ofNat len).toInt = len := Int64.toInt_ofNat_of_lt hlen
  have hone : (1 : Int64).toInt = 1 := rfl
  have hpred : (Int64.ofNat len - 1).toInt = len - 1 := by
    rw [Words.toInt_sub (by omega) (by omega), hn, hone]
  have hend : ∀ i : Int64, i.toInt < 0 → endpoint len i < len := by
    intro i hi
    rw [endpoint, if_pos hi]
    omega
  have hnonneg : ∀ i : Int64, ¬ i.toInt < 0 → 0 ≤ endpoint len i := by
    intro i hi
    rw [endpoint, if_neg hi]
    omega
  rw [indexRange, toNat_clamped hlen start (by omega), toNat_clamped hlen stop (by omega), hn,
    hpred]
  constructor
  · split
    · next h => exact (min_eq_left (by have := hend start h; omega)).symm
    · next h => rw [max_eq_left (hnonneg start h)]
  · split
    · next h => rw [min_eq_left (by have := hend stop h; omega)]
    · next h => exact (max_eq_left (by have := hnonneg stop h; omega)).symm

/-- The cut: an end before the first element leaves the first element if the range starts there. -/
theorem sliceRange_eq {α : Type} {items : List α} (hpos : 0 < items.length)
    (hlen : items.length < 2 ^ 63) (start stop : Int64) :
    sliceRange items start stop =
      if endpoint items.length stop < 0 ∧ endpoint items.length start ≤ 0 then items.take 1
      else between items (endpoint items.length start) (endpoint items.length stop) := by
  obtain ⟨hs, he⟩ := indexRange_spec hpos hlen start stop
  rw [sliceRange, between_eq_take_drop, List.drop_take]
  generalize endpoint items.length start = lo at hs
  generalize endpoint items.length stop = hi at he
  generalize indexRange items.length start stop = r at hs he
  obtain ⟨s, e⟩ := r
  dsimp only at hs he ⊢
  by_cases hfirst : hi < 0 ∧ lo ≤ 0
  · rw [if_pos hfirst, if_neg (by omega)]
    have hzero : s = 0 := by omega
    have hone : e - s + 1 = 1 := by omega
    rw [hone, hzero, List.drop_zero]
  · rw [if_neg hfirst]
    split
    · -- the range is empty, or starts behind the last element
      next hempty =>
      by_cases hbehind : items.length ≤ lo.toNat
      · rw [List.drop_eq_nil_of_le hbehind, List.take_nil]
      · have hzero : (hi + 1).toNat - lo.toNat = 0 := by omega
        rw [hzero, List.take_zero]
    · next hrange =>
      have hstart : s = lo.toNat := by omega
      rw [hstart, List.take_eq_take_iff, List.length_drop]
      omega

theorem sliceRange_all {α : Type} {items : List α} (hlen : items.length < 2 ^ 63) :
    sliceRange items 0 (-1) = items := by
  cases items with
  | nil => rfl
  | cons x items =>
    have hzero : endpoint (x :: items).length 0 = 0 := rfl
    have hlast : endpoint (x :: items).length (-1) = items.length := by
      change (((items.length + 1 : Nat) : Int) + -1 : Int) = items.length
      omega
    have hpos : 0 < (x :: items).length := Nat.succ_pos _
    rw [sliceRange_eq hpos hlen, hzero, hlast, if_neg (by omega), between_eq_take_drop]
    exact List.take_of_length_le (by simp)

theorem sliceRange_single {α : Type} {items : List α} (hlen : items.length < 2 ^ 63) {i : Int64}
    (hi : 0 ≤ i.toInt) : sliceRange items i i = items[i.toInt.toNat]?.toList := by
  by_cases hpos : 0 < items.length
  · have hend : endpoint items.length i = i.toInt := if_neg (by omega)
    have hsucc : (i.toInt + 1).toNat = i.toInt.toNat + 1 := by omega
    rw [sliceRange_eq hpos hlen, hend, if_neg (by omega), between_eq_take_drop, hsucc,
      List.drop_take, Nat.add_sub_cancel_left, List.take_one, List.head?_drop]
  · obtain rfl : items = [] := List.eq_nil_of_length_eq_zero (by omega)
    simp [sliceRange]

/-- The elements that the two positions name. -/
def named {α : Type} (items : List α) (start stop : Int64) : List α :=
  between items (endpoint items.length start) (endpoint items.length stop)

/-- What a handler makes of the cut is right, if it tells one element from none, unless the range
ends before the first element. -/
theorem cut_right_iff {α β : Type} {items : List α} (hpos : 0 < items.length)
    (hlen : items.length < 2 ^ 63) (start stop : Int64) {f : List α → β} (hf : ∀ x, f [x] ≠ f []) :
    f (sliceRange items start stop) = f (named items start stop) ↔
      ¬ (endpoint items.length stop < 0 ∧ endpoint items.length start ≤ 0) := by
  rw [sliceRange_eq hpos hlen, named]
  by_cases h : endpoint items.length stop < 0 ∧ endpoint items.length start ≤ 0
  · have hnone := between_eq_nil items (endpoint items.length start) h.1
    refine iff_of_false ?_ (not_not_intro h)
    rw [if_pos h, hnone]
    cases items with
    | nil => cases hpos
    | cons x items => exact hf x
  · rw [if_neg h]
    exact iff_of_true rfl h

/-- A reply with elements is not the empty one. -/
theorem sendArrayLen_append_ne {n : Nat} (hpos : n ≠ 0) (hn : n < 2 ^ 63) (rest rest' : Bytes) :
    sendArrayLen n ++ rest ≠ sendArrayLen 0 ++ rest' :=
  fun heq => hpos (sendArrayLen_append_inj hn (by decide) heq).1

section Requests

variable [F64 F] [HashOrder] [CaseTable]

/-- The reply of `ZRANGE`, with scores if the request asks for them. -/
def zrangeReply (args : List RespExpr) (entries : List (SortedSetEntry F)) : Bytes :=
  if args.length > 4 && (args[4]?.bind RespExpr.asStr).map toUppercase =
  some (ascii "WITHSCORES") then
    withScores entries
  else membersReply entries

/-- A request for the elements between two positions of a list or sorted set of `len` elements, the
reply it should have and what it should leave under the key. -/
inductive RangeRequest (args : List RespExpr) (start stop : Int64) :
    PrimeValue F → Nat → Bytes → Option (PrimeValue F) → Prop
  | lrange {items} (h : Calls F args (ascii "LRANGE"))
      (hstart : args[2]?.bind RespExpr.asInt = some start)
      (hstop : args[3]?.bind RespExpr.asInt = some stop) :
      RangeRequest args start stop (.list items) items.length
        (sendStringArray (named items start stop)) (some (.list items))
  | ltrim {items} (h : Calls F args (ascii "LTRIM"))
      (hstart : args[2]?.bind RespExpr.asInt = some start)
      (hstop : args[3]?.bind RespExpr.asInt = some stop) :
      RangeRequest args start stop (.list items) items.length sendOk
        (if (named items start stop).isEmpty then none else some (.list (named items start stop)))
  | zrange {members scores} (h : Calls F args (ascii "ZRANGE"))
      (hstart : (args[2]?.bind RespExpr.asStr).bind parseI64 = some start)
      (hstop : (args[3]?.bind RespExpr.asStr).bind parseI64 = some stop) :
      RangeRequest args start stop (.zset members scores) scores.length
        (zrangeReply args (named scores start stop)) (some (.zset members scores))

/-- On every list and sorted set that is not empty, `LRANGE`, `LTRIM` and `ZRANGE` reply and leave
what the positions name, unless the range ends before the first element and starts there or
before. -/
theorem index_range_right_iff (ω : Listing Bytes) (conn : ConnContext) (s : EngineShard F)
    (key : Bytes) (v : PrimeValue F) (hv : s.held conn key = some v) (args : List RespExpr)
    (hkey : args[1]?.bind RespExpr.asBytes = some key) (start stop : Int64) (len : Nat)
    (reply : Bytes) (left : Option (PrimeValue F))
    (h : RangeRequest args start stop v len reply left) (hpos : 0 < len) (hlen : len < 2 ^ 63) :
    (dispatch ω args conn s).reply = some reply ∧
    (dispatch ω args conn s).shard.held conn key = left ↔
      ¬ (endpoint len stop < 0 ∧ endpoint len start ≤ 0) := by
  have hkey' : (⟨args, conn.dbIndex⟩ : CommandContext).argBytes 1 = some key := hkey
  cases h with
  | @lrange items hcalls hstart hstop =>
    have hfind := find_of_getElem (F := F) (n := 5) listTable (by simp [tables]) rfl rfl
    obtain ⟨hreply, hheld⟩ := view_held (ω := ω) listOf (hcalls.resolve hfind) hv rfl fun h =>
      .arg_bind hkey' h
    have hstart' : (⟨args, conn.dbIndex⟩ : CommandContext).argInt 2 = some start := hstart
    have hstop' : (⟨args, conn.dbIndex⟩ : CommandContext).argInt 3 = some stop := hstop
    rw [hreply, hheld, hstart', hstop', and_iff_left rfl, Option.some.injEq]
    exact cut_right_iff hpos hlen start stop fun x =>
      sendArrayLen_append_ne (n := 1) (by decide) (by decide) _ _
  | @ltrim items hcalls hstart hstop =>
    have hfind := find_of_getElem (F := F) (n := 9) listTable (by simp [tables]) rfl rfl
    obtain ⟨hreply, hheld⟩ := edit_held (ω := ω) listOf (hcalls.resolve hfind) hv rfl fun h =>
      .arg_bind hkey' h
    have hstart' : (⟨args, conn.dbIndex⟩ : CommandContext).argInt 2 = some start := hstart
    have hstop' : (⟨args, conn.dbIndex⟩ : CommandContext).argInt 3 = some stop := hstop
    rw [hreply, hheld, hstart', hstop']
    dsimp only [Edit.reply, Edit.left, Option.getD_some]
    rw [and_iff_right rfl]
    exact cut_right_iff (f := fun l => if l.isEmpty then none else some (PrimeValue.list l)) hpos
      hlen start stop fun x => Option.some_ne_none (PrimeValue.list [x])
  | @zrange members scores hcalls hstart hstop =>
    have hfind := find_of_getElem (F := F) (n := 5) zsetTable (by simp [tables]) rfl rfl
    obtain ⟨hreply, hheld⟩ := view_held (ω := ω) zsetOf (hcalls.resolve hfind) hv rfl fun h =>
      .arg_bind hkey' h
    have hstart' : ((⟨args, conn.dbIndex⟩ : CommandContext).argStr 2).bind parseI64 = some start :=
      hstart
    have hstop' : ((⟨args, conn.dbIndex⟩ : CommandContext).argStr 3).bind parseI64 = some stop :=
      hstop
    rw [hreply, hheld, hstart', hstop', and_iff_left rfl, Option.some.injEq]
    refine cut_right_iff (f := zrangeReply args) hpos hlen start stop fun x => ?_
    unfold zrangeReply
    split
    · exact sendArrayLen_append_ne (n := 2) (by decide) (by decide) _ _
    · exact sendArrayLen_append_ne (n := 1) (by decide) (by decide) _ _

end Requests

section Fixed

attribute [local instance] F64.whole CaseTable.identity HashOrder.arbitrary

/-- The shard after `RPUSH k a b c`. -/
noncomputable def threeItems : EngineShard Int :=
  (dispatch (.arbitrary Bytes) (command ["RPUSH", "k", "a", "b", "c"]) ⟨0⟩ EngineShard.new).shard

/-- No element lies between position 0 and a position before it. -/
theorem lrange_before_first :
    (dispatch (.arbitrary Bytes) (command ["LRANGE", "k", "0", "-100"]) ⟨0⟩ threeItems).reply =
      some (sendStringArray [ascii "a"]) ∧
    named [ascii "a", ascii "b", ascii "c"] 0 (-100) = [] :=
  ⟨by decide +kernel, by decide⟩

theorem index_range_right_middle :
    (dispatch (.arbitrary Bytes) (command ["LRANGE", "k", "1", "-1"]) ⟨0⟩ threeItems).reply =
      some (sendStringArray [ascii "b", ascii "c"]) := by
  have hv : threeItems.held ⟨0⟩ (ascii "k") = some (.list [ascii "a", ascii "b", ascii "c"]) := rfl
  have hfind := find_of_getElem (F := Int) (n := 5) listTable (by simp [tables]) rfl rfl
  have hcalls : Calls Int (command ["LRANGE", "k", "1", "-1"]) (ascii "LRANGE") :=
    .of_find (commandName_of_find hfind _) hfind rfl
  have hiff := index_range_right_iff (.arbitrary Bytes) ⟨0⟩ threeItems (ascii "k") _ hv
    (command ["LRANGE", "k", "1", "-1"]) rfl 1 (-1) 3 _ _
    (.lrange hcalls (by decide) (by decide)) (by decide) (by decide)
  have hnamed : named [ascii "a", ascii "b", ascii "c"] 1 (-1) = [ascii "b", ascii "c"] := by decide
  rw [hnamed] at hiff
  exact (hiff.mpr (by decide)).1

end Fixed

end ShrikeDb
