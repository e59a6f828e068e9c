import ShrikeDb.Facade.RespRead
import ShrikeDb.Lib.Positions
import ShrikeDb.Lib.Words
import ShrikeDb.Server.Dispatch
import ShrikeDb.Server.Requests

/-! `LREM`. A count that is not negative runs through the list once with a counter; a negative
one collects positions from the tail and removes them one after the other. -/

namespace ShrikeDb

open Program Command ReplyBuilder CommandRegistry ListFamily Positions

variable {F : Type} {value : Bytes} {max removed : Int64}

/-! ## From the head -/

/-- How many occurrences go if `max` may go and `removed` are gone. -/
def remaining (max removed : Int64) (occurrences : Nat) : Nat :=
  min (max.toInt - removed.toInt).toNat occurrences

theorem toInt_succ (h : removed < max) : (removed + 1).toInt = removed.toInt + 1 := by
  have hlt := Int64.lt_iff_toInt_lt.mp h
  have hmax := max.toInt_lt
  have hle := removed.le_toInt
  have hone : (1 : Int64).toInt = 1 := rfl
  rw [Words.toInt_add (by omega) (by omega), hone]

theorem remaining_succ (h : removed < max) (occurrences : Nat) :
    remaining max removed (occurrences + 1) = remaining max (removed + 1) occurrences + 1 := by
  have hlt := Int64.lt_iff_toInt_lt.mp h
  rw [remaining, remaining, toInt_succ h]
  omega

theorem remaining_of_le (h : ¬ removed < max) (occurrences : Nat) :
    remaining max removed occurrences = 0 := by
  have hle : max.toInt ≤ removed.toInt := Int.not_lt.mp fun hlt => h (Int64.lt_iff_toInt_lt.mpr hlt)
  rw [remaining]
  omega

theorem retainUpTo_of_le (h : ¬ removed < max) (items : List Bytes) :
    retainUpTo value max items removed = (items, removed) := by
  induction items with
  | nil => rfl
  | cons item items ih => rw [retainUpTo, if_neg fun hand => h hand.1, ih]

theorem retainUpTo_spec (value : Bytes) (max : Int64) (items : List Bytes) (removed : Int64) :
    (retainUpTo value max items removed).2.toInt =
        removed.toInt + remaining max removed (items.count value) ∧
      WithoutFirst value (remaining max removed (items.count value)) items
        (retainUpTo value max items removed).1 := by
  induction items generalizing removed with
  | nil =>
    have hzero : remaining max removed 0 = 0 := Nat.min_zero _
    rw [List.count_nil, hzero]
    exact ⟨(Int.add_zero _).symm, .refl value []⟩
  | cons item items ih =>
    by_cases hmore : removed < max
    · by_cases hitem : item = value
      · subst hitem
        obtain ⟨hcount, hkept⟩ := ih (removed + 1)
        rw [toInt_succ hmore] at hcount
        rw [retainUpTo, if_pos ⟨hmore, rfl⟩, List.count_cons_self, remaining_succ hmore]
        exact ⟨by omega, hkept.cons_self⟩
      · rw [retainUpTo, if_neg fun hand => hitem hand.2, List.count_cons_of_ne hitem]
        obtain ⟨hcount, hkept⟩ := ih removed
        exact ⟨hcount, hkept.cons_of_ne hitem⟩
    · rw [retainUpTo_of_le hmore, remaining_of_le hmore]
      exact ⟨(Int.add_zero _).symm, .refl value _⟩

/-! ## From the tail -/

theorem tailIndices_of_le (h : ¬ removed < max) (pairs : List (Bytes × Nat)) :
    tailIndices value max pairs removed = ([], removed) := by
  induction pairs with
  | nil => rfl
  | cons pair pairs ih =>
    obtain ⟨item, i⟩ := pair
    rw [tailIndices, if_neg fun hand => h hand.1, ih]

theorem tailIndices_cons_self (h : removed < max) (i : Nat) (pairs : List (Bytes × Nat)) :
    tailIndices value max ((value, i) :: pairs) removed =
      (i :: (tailIndices value max pairs (removed + 1)).1,
        (tailIndices value max pairs (removed + 1)).2) := by
  rw [tailIndices, if_pos ⟨h, rfl⟩]

theorem tailIndices_cons_of_ne {item : Bytes} (h : item ≠ value) (i : Nat)
    (pairs : List (Bytes × Nat)) :
    tailIndices value max ((item, i) :: pairs) removed = tailIndices value max pairs removed := by
  rw [tailIndices, if_neg fun hand => h hand.2]

theorem zipIdx_concat_reverse (items : List Bytes) (item : Bytes) :
    (items ++ [item]).zipIdx.reverse = (item, items.length) :: items.zipIdx.reverse := by
  simp [List.zipIdx_append]

/-- The positions go down from the end of the list. -/
theorem tailIndices_down (value : Bytes) (max : Int64) (items : List Bytes) (removed : Int64) :
    (tailIndices value max items.zipIdx.reverse removed).1.Pairwise (· > ·) ∧
      ∀ i ∈ (tailIndices value max items.zipIdx.reverse removed).1, i < items.length := by
  induction items using List.reverseRecOn generalizing removed with
  | nil => simp [tailIndices]
  | append_singleton items item ih =>
    rw [zipIdx_concat_reverse, tailIndices, List.length_append, List.length_singleton]
    split
    · obtain ⟨hdown, hlt⟩ := ih (removed + 1)
      refine ⟨List.pairwise_cons.mpr ⟨hlt, hdown⟩,
        List.forall_mem_cons.mpr ⟨by omega, fun i hi => ?_⟩⟩
      have hi := hlt i hi
      omega
    · obtain ⟨hdown, hlt⟩ := ih removed
      refine ⟨hdown, fun i hi => ?_⟩
      have hi := hlt i hi
      omega

theorem tailIndices_spec (value : Bytes) (max : Int64) (items : List Bytes) (removed : Int64) :
    (tailIndices value max items.zipIdx.reverse removed).2.toInt =
        removed.toInt + remaining max removed (items.count value) ∧
      WithoutLast value (remaining max removed (items.count value)) items
        ((tailIndices value max items.zipIdx.reverse removed).1.foldl List.eraseIdx items) := by
  induction items using List.reverseRecOn generalizing removed with
  | nil =>
    have hzero : remaining max removed 0 = 0 := Nat.min_zero _
    rw [List.count_nil, hzero]
    exact ⟨(Int.add_zero _).symm, .refl value []⟩
  | append_singleton items item ih =>
    by_cases hmore : removed < max
    · by_cases hitem : item = value
      · subst hitem
        obtain ⟨hcount, hkept⟩ := ih (removed + 1)
        rw [toInt_succ hmore] at hcount
        have hlast : (items ++ [item]).eraseIdx items.length = items := by
          rw [List.eraseIdx_append_of_length_le (Nat.le_refl _), Nat.sub_self]
          exact List.append_nil items
        rw [zipIdx_concat_reverse, tailIndices_cons_self hmore, List.count_append,
          List.count_singleton_self, remaining_succ hmore, List.foldl_cons, hlast]
        dsimp only
        exact ⟨by omega, hkept.concat_self⟩
      · obtain ⟨hcount, hkept⟩ := ih removed
        obtain ⟨hdown, hlt⟩ := tailIndices_down value max items removed
        have hsame : (items ++ [item]).count value = items.count value := by
          simp [hitem]
        rw [zipIdx_concat_reverse, tailIndices_cons_of_ne hitem, hsame,
          foldl_eraseIdx_append [item] hdown hlt]
        exact ⟨hcount, hkept.concat_of_ne hitem⟩
    · rw [tailIndices_of_le hmore, remaining_of_le hmore]
      exact ⟨(Int.add_zero _).symm, .refl value _⟩

/-! ## The handler -/

/-- How many occurrences a count asks to remove. -/
def asksToRemove (count : Int64) (occurrences : Nat) : Nat :=
  if count = 0 then occurrences else min count.toInt.natAbs occurrences

/-- What is left once they are gone: the first ones go for a positive count, the last ones for a
negative one. -/
def LremKeeps (count : Int64) (value : Bytes) (items kept : List Bytes) : Prop :=
  if 0 ≤ count then WithoutFirst value (asksToRemove count (items.count value)) items kept
  else WithoutLast value (asksToRemove count (items.count value)) items kept

/-- The limit that the handler computes. -/
def lremMax (count : Int64) : Int64 :=
  if count = 0 then Int64.maxValue else if count < 0 then -count else count

theorem remaining_lremMax {count : Int64} (hcount : count ≠ Int64.minValue) {occurrences : Nat}
    (h : occurrences < 2 ^ 63) :
    remaining (lremMax count) 0 occurrences = asksToRemove count occurrences := by
  have hzero : (0 : Int64).toInt = 0 := rfl
  rw [remaining, asksToRemove, lremMax, hzero]
  by_cases h0 : count = 0
  · have hmax : Int64.maxValue.toInt = 2 ^ 63 - 1 := rfl
    rw [if_pos h0, if_pos h0, hmax]
    omega
  · rw [if_neg h0, if_neg h0]
    by_cases hneg : count < 0
    · have hlt : count.toInt < 0 := Int64.lt_iff_toInt_lt.mp hneg
      have hmin : count.toInt ≠ -2 ^ 63 := fun heq => hcount (Int64.toInt_inj.mp heq)
      rw [if_pos hneg, Words.toInt_neg hmin]
      omega
    · have hle : 0 ≤ count.toInt := Int.not_lt.mp fun hlt => hneg (Int64.lt_iff_toInt_lt.mpr hlt)
      rw [if_neg hneg]
      omega

theorem removeOccurrences_spec (value : Bytes) {items : List Bytes} (hlen : items.length < 2 ^ 63)
    {count : Int64} (hcount : count ≠ Int64.minValue) :
    (removeOccurrences items count value).2.toInt = asksToRemove count (items.count value) ∧
      LremKeeps count value items (removeOccurrences items count value).1 := by
  have hocc : items.count value < 2 ^ 63 := Nat.lt_of_le_of_lt List.count_le_length hlen
  have hzero : (0 : Int64).toInt = 0 := rfl
  rw [removeOccurrences, LremKeeps, ← remaining_lremMax hcount hocc]
  by_cases hle : 0 ≤ count
  · obtain ⟨hremoved, hkept⟩ := retainUpTo_spec value (lremMax count) items 0
    rw [hzero, Int.zero_add] at hremoved
    rw [if_pos hle, if_pos hle]
    exact ⟨hremoved, hkept⟩
  · obtain ⟨hremoved, hkept⟩ := tailIndices_spec value (lremMax count) items 0
    rw [hzero, Int.zero_add] at hremoved
    rw [if_neg hle, if_neg hle]
    exact ⟨hremoved, hkept⟩

/-- The least number has no absolute value, so the limit is negative. -/
theorem removeOccurrences_least (items : List Bytes) :
    removeOccurrences items Int64.minValue value = (items, 0) := by
  have hle : ¬ (0 : Int64) ≤ Int64.minValue := by decide
  have hstop : ¬ (0 : Int64) < lremMax Int64.minValue := by decide
  have hnone : tailIndices value (lremMax Int64.minValue) items.zipIdx.reverse 0 = ([], 0) :=
    tailIndices_of_le hstop _
  rw [lremMax] at hnone
  rw [removeOccurrences, if_neg hle, hnone]
  rfl

section Command

variable [F64 F] [HashOrder] [CaseTable]

/-- `LREM` replies how many elements it was asked to remove, as far as there are so many, and these
are the ones that are gone. -/
def LremRight (ω : Listing Bytes) (conn : ConnContext) (s : EngineShard F) (args : List RespExpr)
    (key : Bytes) (count : Int64) (value : Bytes) (items : List Bytes) : Prop :=
  (∃ n : Int64, n.toInt = asksToRemove count (items.count value) ∧
    (dispatch ω args conn s).reply = some (sendInteger n)) ∧
  ∃ kept, LremKeeps count value items kept ∧
    (dispatch ω args conn s).shard.held conn key = if kept.isEmpty then none else some (.list kept)

/-- On every list, `LREM` removes the right elements unless the count is the least number and there
is something to remove. -/
theorem lrem_right_iff (ω : Listing Bytes) (conn : ConnContext) (s : EngineShard F)
    (args : List RespExpr) (hcalls : Calls F args (ascii "LREM")) (key : Bytes)
    (hkey : args[1]?.bind RespExpr.asBytes = some key) (count : Int64)
    (hcount : args[2]?.bind RespExpr.asInt = some count) (value : Bytes)
    (hvalue : args[3]?.bind RespExpr.asBytes = some value) (items : List Bytes)
    (hv : s.held conn key = some (.list items)) (hlen : items.length < 2 ^ 63) :
    LremRight ω conn s args key count value items ↔ ¬ (count = Int64.minValue ∧ value ∈ items) := by
  have hfind := find_of_getElem (F := F) (n := 8) listTable (by simp [tables]) rfl rfl
  have hkey' : (⟨args, conn.dbIndex⟩ : CommandContext).argBytes 1 = some key := hkey
  have hcount' : (⟨args, conn.dbIndex⟩ : CommandContext).argInt 2 = some count := hcount
  have hvalue' : (⟨args, conn.dbIndex⟩ : CommandContext).argBytes 3 = some value := hvalue
  obtain ⟨hreply, hheld⟩ := edit_held (ω := ω) listOf (hcalls.resolve hfind) hv rfl
    fun h => .arg_bind hkey' (.arg_bind hvalue' h)
  rw [hcount'] at hreply hheld
  dsimp only [Edit.reply, Edit.left, Option.getD_some] at hreply hheld
  rw [LremRight, hreply, hheld]
  constructor
  · rintro ⟨⟨n, hn, hnumber⟩, -⟩ ⟨rfl, hmem⟩
    rw [removeOccurrences_least, Option.some.injEq] at hnumber
    have hzero : 0 = n := sendInteger_injective hnumber
    have hpos : 0 < items.count value := List.count_pos_iff.mpr hmem
    have hocc := List.count_le_length (a := value) (l := items)
    rw [← hzero, asksToRemove, if_neg (by decide)] at hn
    have habs : Int64.minValue.toInt.natAbs = 2 ^ 63 := rfl
    have hint : (0 : Int64).toInt = 0 := rfl
    omega
  · intro hnot
    by_cases hleast : count = Int64.minValue
    · have hmem : value ∉ items := fun hmem => hnot ⟨hleast, hmem⟩
      have hocc : items.count value = 0 := List.count_eq_zero.mpr hmem
      rw [hleast, removeOccurrences_least]
      refine ⟨⟨0, ?_, rfl⟩, items, ?_, rfl⟩
      · rw [hocc]
        rfl
      · rw [LremKeeps, hocc]
        exact WithoutLast.refl value items
    · obtain ⟨hremoved, hkept⟩ := removeOccurrences_spec value hlen hleast
      exact ⟨⟨_, hremoved, rfl⟩, _, hkept, rfl⟩

end Command

section Fixed

attribute [local instance] F64.whole CaseTable.identity HashOrder.arbitrary

/-- The shard after `RPUSH k a b a`. -/
noncomputable def twoOccurrences : EngineShard Int :=
  (dispatch (.arbitrary Bytes) (command ["RPUSH", "k", "a", "b", "a"]) ⟨0⟩ EngineShard.new).shard

theorem held_twoOccurrences :
    twoOccurrences.held ⟨0⟩ (ascii "k") = some (.list [ascii "a", ascii "b", ascii "a"]) := rfl

/-- The least count removes nothing. -/
theorem lrem_least :
    (dispatch (.arbitrary Bytes) (command ["LREM", "k", "-9223372036854775808", "a"]) ⟨0⟩
      twoOccurrences).reply = some (sendInteger 0) ∧
    asksToRemove Int64.minValue ([ascii "a", ascii "b", ascii "a"].count (ascii "a")) = 2 :=
  ⟨by decide +kernel, by decide⟩

theorem lrem_right_last :
    LremRight (.arbitrary Bytes) ⟨0⟩ twoOccurrences (command ["LREM", "k", "-1", "a"])
    (ascii "k") (-1) (ascii "a") [ascii "a", ascii "b", ascii "a"] := by
  have hfind := find_of_getElem (F := Int) (n := 8) listTable (by simp [tables]) rfl rfl
  have hcalls : Calls Int (command ["LREM", "k", "-1", "a"]) (ascii "LREM") :=
    .of_find (commandName_of_find hfind _) hfind rfl
  have hiff :=
    lrem_right_iff (.arbitrary Bytes) ⟨0⟩ twoOccurrences (command ["LREM", "k", "-1", "a"]) hcalls
    (ascii "k") rfl (-1) (by decide) (ascii "a") rfl _ held_twoOccurrences (by decide)
  rw [hiff]
  decide

end Fixed

end ShrikeDb
