import Mathlib.Data.List.TakeWhile
import ShrikeDb.Core.Slice
import ShrikeDb.Facade.RespRead

/-! The two readers of a shard's reply with the indices of the source (`main_service.rs`). On
every reply shorter than `isize::MAX` their loops end and no read is out of range; on a reply of
that length the sum of a place and a declared length can wrap around. -/

namespace ShrikeDb

open ReplyBuilder
open List hiding beq_eq_decide

namespace Indexed

/-! ## The loops as the source writes them -/

/-- A round of a loop that looks for a byte. -/
def scanRound (data : Slice) (byte : UInt8) (pos : UInt64) : Exit (UInt64 ⊕ UInt64) := do
  if ← data.holds pos fun b => pure (b != byte) then return .inl (pos + 1) else return .inr pos

/-- `data.is_empty() || data[0] != mark` -/
def lacksMark (data : Slice) (mark : UInt8) : Exit Bool :=
  pure (data.len == 0) <||> (do return (← data.get 0) != mark)

def parseRespInteger (data : Slice) : Exit (Option Int64) := do
  if ← lacksMark data 58 then
    return none
  else
    match data.bytes.findIdx? (· == 13) with
    | none => return none
    | some stop => return (fromUtf8 (← data.range 1 (usize stop))).bind parseI64

/-- A round of the loop over the elements. -/
def elementRound (fuel : Nat) (data : Slice) : UInt64 × List (Option Bytes) →
    Exit ((UInt64 × List (Option Bytes)) ⊕ List (Option Bytes))
  | (pos, results) => do
    if pos < data.len then
      if (← data.get pos) == 36 then
        let lenStart := pos + 1
        let lenEnd ← Exit.loop (scanRound data 13) fuel lenStart
        let lenStr := (fromUtf8 (← data.range lenStart lenEnd)).getD (ascii "-1")
        let len := (parseI64 lenStr).getD (-1)
        let pos := lenEnd + 2
        if len < 0 then
          return .inl (pos, results ++ [none])
        else
          let len := len.toUInt64
          if pos + len ≤ data.len then
            return .inl (pos + (len + 2), results ++ [some (← data.range pos (pos + len))])
          else
            return .inr results
      else
        return .inl ((← Exit.loop (scanRound data 10) fuel pos) + 1, results)
    else
      return .inr results

/-- Each loop is given `fuel` rounds. -/
def parseRespArray (fuel : Nat) (data : Slice) : Exit (List (Option Bytes)) := do
  if ← lacksMark data 42 then
    return []
  else
    let pos ← Exit.loop (scanRound data 10) fuel 0
    Exit.loop (elementRound fuel data) fuel (pos + 1, [])

/-! ## Scans -/

section Rounds

variable {data : Slice} {byte : UInt8} {fuel p : Nat}

def scanProof (data : Slice) (byte : UInt8) : LoopProof Nat UInt64 UInt64 where
  state := usize
  Inv p := p ≤ data.bytes.length
  variant p := data.bytes.length - p
  Right p a := a = usize (p + ((data.bytes.drop p).takeWhile (· ≠ byte)).length)

theorem scanRound_spec (p : Nat) (hp : (scanProof data byte).Inv p) :
    (scanProof data byte).Round (scanRound data byte) p := by
  have hp : p ≤ data.bytes.length := hp
  have := data.fits
  cases hb : data.bytes[p]? with
  | none =>
    refine Or.inl ⟨usize p, by simp [scanRound, scanProof, data.holds_of_none (by omega) hb], ?_⟩
    simp [scanProof, drop_eq_nil_of_le (List.getElem?_eq_none_iff.mp hb)]
  | some b =>
    have hlt := (List.getElem?_eq_some_iff.mp hb).1
    have hdrop := data.drop_of_some hb
    by_cases hfound : b = byte
    · refine Or.inl ⟨usize p, by simp [scanRound, scanProof, data.holds_of_some hb, hfound], ?_⟩
      simp [scanProof, hdrop, hfound]
    · refine Or.inr
        ⟨p + 1, by simp [scanRound, scanProof, data.holds_of_some hb, hfound], hlt, ?_, ?_⟩
      · exact Nat.sub_lt_sub_left hlt (Nat.lt_succ_self p)
      · rintro a rfl
        simp [scanProof, hdrop, hfound, Nat.add_assoc, Nat.add_comm 1]

/-- The scan stops at the first such byte or at the end. -/
theorem scanLoop (byte : UInt8) (hp : p ≤ data.bytes.length) (hfuel : data.bytes.length < fuel) :
    ∃ stop, Exit.loop (scanRound data byte) fuel (usize p) = .value (usize stop) ∧
      (p ≤ stop ∧ stop ≤ data.bytes.length) ∧
      (data.bytes.take stop).drop p = (data.bytes.drop p).takeWhile (· ≠ byte) ∧
      data.bytes.drop stop = (data.bytes.drop p).dropWhile (· ≠ byte) := by
  obtain ⟨_, hrun, rfl⟩ := (scanProof data byte).total scanRound_spec p hp fuel
    (Nat.lt_of_le_of_lt (Nat.sub_le ..) hfuel)
  have hle := ( takeWhile_prefix (l := data.bytes.drop p) (· ≠ byte)).length_le
  rw [length_drop] at hle
  refine ⟨_, hrun, ⟨Nat.le_add_right .., by omega⟩, ?_, ?_⟩
  · rw [drop_take, Nat.add_sub_cancel_left]
    exact (prefix_iff_eq_take.mp ( takeWhile_prefix _)).symm
  · rw [← drop_drop]
    nth_rewrite 2 [← takeWhile_append_dropWhile (p := (· ≠ byte)) (l := data.bytes.drop p)]
    rw [drop_left]

/-! ## Elements -/

/-- The length that the text behind a `$` declares. -/
def declared (text : Bytes) : Int64 := (parseI64 ((fromUtf8 text).getD (ascii "-1"))).getD (-1)

theorem elementRound_end (hp : p < 2 ^ 64) (h : data.bytes.length ≤ p)
    (results : List (Option Bytes)) :
    elementRound fuel data (usize p, results) = .value (.inr results) := by
  have hend : ¬ usize p < data.len := mt (data.usize_lt_len hp).mp (by omega)
  simp [elementRound, hend]

/-- A line that is no bulk string is skipped. -/
theorem elementRound_line {b : UInt8} (hb : data.bytes[p]? = some b) (hbulk : b ≠ 36)
    (hfuel : data.bytes.length < fuel) (results : List (Option Bytes)) :
    ∃ q, elementRound fuel data (usize p, results) = .value (.inl (usize q, results)) ∧
      (p < q ∧ q ≤ data.bytes.length + 1) ∧ data.bytes.drop q = skipLine (data.bytes.drop p) := by
  have hlt := (List.getElem?_eq_some_iff.mp hb).1
  have := data.fits
  have hin : usize p < data.len := (data.usize_lt_len (by omega)).mpr hlt
  obtain ⟨stop, hscan, hle, _, hrest⟩ := scanLoop 10 hlt.le hfuel
  refine ⟨stop + 1, ?_, ⟨by omega, by omega⟩, ?_⟩
  · simp [elementRound, hin, data.get_of_some hb, hbulk, hscan]
  · rw [skipLine, ← hrest, drop_drop]

/-- A bulk string, before its length is compared with the bytes that are left. -/
theorem elementRound_bulk (hb : data.bytes[p]? = some 36) (hfuel : data.bytes.length < fuel)
    (results : List (Option Bytes)) :
    ∃ stop, (p < stop ∧ stop ≤ data.bytes.length) ∧
      (data.bytes.take stop).drop (p + 1) = (data.bytes.drop (p + 1)).takeWhile (· ≠ 13) ∧
      data.bytes.drop stop = (data.bytes.drop (p + 1)).dropWhile (· ≠ 13) ∧
      ∀ len, declared ((data.bytes.drop (p + 1)).takeWhile (· ≠ 13)) = len →
        elementRound fuel data (usize p, results) =
          if len < 0 then .value (.inl (usize (stop + 2), results ++ [none]))
          else if usize (stop + 2 + len.toInt.toNat) ≤ data.len then
            data.range (usize (stop + 2)) (usize (stop + 2 + len.toInt.toNat)) >>= fun item =>
              .value (.inl (usize (stop + 2 + (len.toInt.toNat + 2)), results ++ [some item]))
          else .value (.inr results) := by
  have hlt := (List.getElem?_eq_some_iff.mp hb).1
  have := data.fits
  have hin : usize p < data.len := (data.usize_lt_len (by omega)).mpr hlt
  obtain ⟨stop, hscan, hle, htext, hrest⟩ := scanLoop 13 (p := p + 1) hlt hfuel
  refine ⟨stop, ⟨hle.1, hle.2⟩, htext, hrest, ?_⟩
  intro len hlen
  rw [declared] at hlen
  have hrange := data.range_of_le hle.1 hle.2
  rw [htext] at hrange
  simp only [elementRound, hin, if_true, data.get_of_some hb, Exit.value_bind, beq_self_eq_true,
    usize_add, hscan, hrange, hlen, Exit.pure_eq_value]
  split
  · rfl
  · rename_i hneg
    rw [toUInt64_eq_usize hneg, usize_add_usize, usize_add, usize_add_usize]

theorem parseElements_bulk {rest : Bytes} {len : Int64}
    (hlen : declared (rest.takeWhile (· ≠ 13)) = len) (f : Nat) :
    parseElements (f + 1) (36 :: rest) =
      if len < 0 then none :: parseElements f ((rest.dropWhile (· ≠ 13)).drop 2)
      else if 2 + len.toInt.toNat ≤ (rest.dropWhile (· ≠ 13)).length then
        some (((rest.dropWhile (· ≠ 13)).drop 2).take len.toInt.toNat) ::
          parseElements f (((rest.dropWhile (· ≠ 13)).drop 2).drop (len.toInt.toNat + 2))
      else [] := by
  subst hlen
  rfl

theorem declared_neg {text : Bytes} (h : text = [] ∨ text.getLast? = some 10) :
    declared text < 0 := by
  rcases h with rfl | h
  · decide
  · have hnone : parseI64 text = none := by
      rw [parseI64, Decimal.parseInt_eq_none h rfl, Option.bind_none]
    rw [declared, fromUtf8]
    split
    · rw [Option.getD_some, hnone]
      decide
    · decide

/-- Where the end of a bulk string does not wrap around. -/
def NoWrap (data : Bytes) : Prop := data.length + 1 < 2 ^ 63 ∨ data.getLast? = some 10

theorem NoWrap.lt (h : NoWrap data.bytes) {stop : Nat} (hstop : p < stop ∧ stop ≤ data.bytes.length)
    {len : Int64} (hlen : declared ((data.bytes.take stop).drop (p + 1)) = len) (hneg : ¬ len < 0) :
    stop + 2 + len.toInt.toNat < 2 ^ 64 := by
  have hmax : len.toInt < 2 ^ 63 := len.toInt_lt
  have := data.fits
  rcases h with h | h
  · omega
  · rcases Nat.lt_or_eq_of_le hstop.2 with hlt | rfl
    · omega
    -- the text runs to the end, so it is empty or ends in the line feed
    · rw [take_length] at hlen
      refine absurd (hlen ▸ declared_neg ?_) hneg
      by_cases hend : data.bytes.length ≤ p + 1
      · exact Or.inl (drop_eq_nil_of_le hend)
      · rw [getLast?_drop, if_neg hend]
        exact Or.inr h

def elementProof (data : Slice) :
    LoopProof (Nat × List (Option Bytes)) (UInt64 × List (Option Bytes)) (List (Option Bytes)) where
  state t := (usize t.1, t.2)
  Inv t := t.1 ≤ data.bytes.length + 2
  variant t := data.bytes.length - t.1
  Right t a := ∀ f, data.bytes.length - t.1 ≤ f → a = t.2 ++ parseElements f (data.bytes.drop t.1)

theorem elementRound_again {q : Nat} {results : List (Option Bytes)} (items : List (Option Bytes))
    (hround : elementRound fuel data (usize p, results) = .value (.inl (usize q, results ++ items)))
    (hp : p < data.bytes.length) (hq : p < q ∧ q ≤ data.bytes.length + 2)
    (hmodel : ∀ f, parseElements (f + 1) (data.bytes.drop p) =
      items ++ parseElements f (data.bytes.drop q)) :
    (elementProof data).Round (elementRound fuel data) (p, results) := by
  refine Or.inr ⟨(q, results ++ items), hround, hq.2, ?_, fun a ha f hf => ?_⟩
  · simp only [elementProof]
    omega
  · simp only [elementProof] at ha hf ⊢
    obtain ⟨f, rfl⟩ : ∃ f', f = f' + 1 := ⟨f - 1, by omega⟩
    rw [hmodel, ← append_assoc]
    exact ha f (by omega)

theorem elementRound_bulk_spec (hsafe : NoWrap data.bytes) (hfuel : data.bytes.length < fuel)
    (hb : data.bytes[p]? = some 36) (results : List (Option Bytes)) :
    (elementProof data).Round (elementRound fuel data) (p, results) := by
  have hlt := (List.getElem?_eq_some_iff.mp hb).1
  have hdrop := data.drop_of_some hb
  obtain ⟨stop, hle, htext, hrest, hround⟩ := elementRound_bulk hb hfuel results
  generalize hlen : declared ((data.bytes.drop (p + 1)).takeWhile (· ≠ 13)) = len at hround
  have hround := hround len rfl
  have hmodel := parseElements_bulk hlen
  simp only [← hrest, ← hdrop, drop_drop, length_drop] at hmodel
  by_cases hneg : len < 0
  · simp only [if_pos hneg] at hround hmodel
    exact elementRound_again [none] hround hlt ⟨by omega, by omega⟩ hmodel
  have hwrap := hsafe.lt hle (htext ▸ hlen) hneg
  have hfits : usize (stop + 2 + len.toInt.toNat) ≤ data.len ↔
      2 + len.toInt.toNat ≤ data.bytes.length - stop := by
    rw [data.usize_le_len hwrap]
    omega
  by_cases hin : 2 + len.toInt.toNat ≤ data.bytes.length - stop
  · have hrange := data.range_of_le (Nat.le_add_right (stop + 2) len.toInt.toNat) (by omega)
    rw [drop_take, Nat.add_sub_cancel_left] at hrange
    simp only [if_neg hneg, if_pos hin, if_pos (hfits.mpr hin), hrange,
      Exit.value_bind] at hround hmodel
    exact elementRound_again [some _] hround hlt ⟨by omega, by omega⟩ hmodel
  · simp only [if_neg hneg, if_neg hin, if_neg (mt hfits.mp hin)] at hround hmodel
    refine Or.inl ⟨results, hround, fun f hf => ?_⟩
    simp only at hf
    obtain ⟨f, rfl⟩ : ∃ f', f = f' + 1 := ⟨f - 1, by omega⟩
    rw [hmodel, append_nil]

/-- One round over the elements: every read is in range. -/
theorem elementRound_spec (hsafe : NoWrap data.bytes) (hfuel : data.bytes.length < fuel)
    (t : Nat × List (Option Bytes)) (ht : (elementProof data).Inv t) :
    (elementProof data).Round (elementRound fuel data) t := by
  obtain ⟨p, results⟩ := t
  have hp : p ≤ data.bytes.length + 2 := ht
  have := data.fits
  cases hb : data.bytes[p]? with
  | none =>
    have hge := List.getElem?_eq_none_iff.mp hb
    refine Or.inl ⟨results, elementRound_end (by omega) hge results, fun f _ => ?_⟩
    simp only [drop_eq_nil_of_le hge]
    cases f <;> simp [parseElements]
  | some b =>
    have hlt := (List.getElem?_eq_some_iff.mp hb).1
    have hdrop := data.drop_of_some hb
    by_cases hbulk : b = 36
    · subst hbulk
      exact elementRound_bulk_spec hsafe hfuel hb results
    · obtain ⟨q, hround, hq, hskip⟩ := elementRound_line hb hbulk hfuel results
      refine elementRound_again [] (by rw [hround, append_nil]) hlt ⟨hq.1, by omega⟩ fun f => ?_
      rw [hskip, hdrop, parseElements, if_neg hbulk]
      rfl

end Rounds

/-! ## The readers -/

section Readers

variable {data : Slice} {fuel : Nat}

theorem lacksMark_eq (mark : UInt8) :
    lacksMark data mark = .value (decide (data.bytes.head? ≠ some mark)) := by
  have hhead : data.bytes.head? = data.bytes[0]? := head?_eq_getElem?
  have hlen : data.len = 0 ↔ data.bytes.length = 0 := by
    rw [← UInt64.toNat_inj, data.toNat_len]
    rfl
  cases hb : data.bytes[0]? with
  | none =>
    have hempty := List.getElem?_eq_none_iff.mp hb
    simp [lacksMark, hlen.mpr (by omega), hhead, hb]
  | some b =>
    have hlt := (List.getElem?_eq_some_iff.mp hb).1
    have hne : (data.len == 0) = false := beq_false_of_ne (mt hlen.mp (by omega))
    have hget : data.get 0 = .value b := data.get_of_some hb
    simp [lacksMark, hne, hget, hhead, hb, bne, beq_eq_decide]

theorem takeWhile_of_findIdx? {line : Bytes} {i : Nat} (h : line.findIdx? (· == 13) = some i) :
    13 ∈ line ∧ i < line.length ∧ line.takeWhile (· ≠ 13) = line.take i := by
  obtain ⟨hlt, hi⟩ := findIdx?_eq_some_iff_findIdx_eq.mp h
  refine ⟨?_, hlt, ?_⟩
  · by_contra hno
    have hnone : line.findIdx? (· == 13) = none :=
      findIdx?_eq_none_iff.mpr fun b hb => beq_false_of_ne fun h => hno (h ▸ hb)
    rw [h] at hnone
    cases hnone
  · rw [takeWhile_eq_take_findIdx_not, ← hi]
    simp [beq_eq_decide]

theorem parseRespInteger_returns (data : Slice) :
    parseRespInteger data = .value (ShrikeDb.parseRespInteger data.bytes) := by
  rw [parseRespInteger, lacksMark_eq, Exit.value_bind]
  cases hdata : data.bytes with
  | nil => rfl
  | cons b rest =>
    by_cases hmark : b = 58
    · subst hmark
      simp only [head?_cons, ne_eq, not_true_eq_false, decide_false, Bool.false_eq_true, if_false,
        findIdx?_cons, ShrikeDb.parseRespInteger, true_and]
      cases hstop : rest.findIdx? (· == 13) with
      | none =>
        have hno : 13 ∉ rest := by
          intro h
          exact absurd (findIdx?_eq_none_iff.mp hstop 13 h) (by decide)
        rw [if_neg hno]
        rfl
      | some i =>
        obtain ⟨hmem, hlt, hline⟩ := takeWhile_of_findIdx? hstop
        have hrange :=
          data.range_of_le (i := 1) (j := i + 1) (by omega) (by rw [hdata, length_cons]; omega)
        rw [hdata, take_succ_cons, drop_one, tail_cons, ← hline] at hrange
        have hrange : data.range 1 (usize (i + 1)) = _ := hrange
        rw [if_pos hmem]
        simp [hrange]
    · simp [hmark, ShrikeDb.parseRespInteger]

theorem parseRespArray_returns (hsafe : NoWrap data.bytes) (hfuel : data.bytes.length < fuel) :
    parseRespArray fuel data = .value (ShrikeDb.parseRespArray data.bytes) := by
  rw [parseRespArray, ShrikeDb.parseRespArray, lacksMark_eq, Exit.value_bind]
  by_cases hmark : data.bytes.head? = some 42
  · obtain ⟨stop, hscan, hle, _, hrest⟩ := scanLoop 10 (Nat.zero_le data.bytes.length) hfuel
    have hscan : Exit.loop (scanRound data 10) fuel 0 = .value (usize stop) := hscan
    obtain ⟨a, hrun, ha⟩ := (elementProof data).total (elementRound_spec hsafe hfuel) (stop + 1, [])
      (Nat.succ_le_succ (Nat.le_succ_of_le hle.2)) fuel (Nat.lt_of_le_of_lt (Nat.sub_le ..) hfuel)
    have hrun : Exit.loop (elementRound fuel data) fuel (usize (stop + 1), []) = .value a := hrun
    have hskip : skipLine data.bytes = data.bytes.drop (stop + 1) := by
      rw [skipLine, ← drop_drop, hrest, drop_zero]
    rw [if_pos hmark, hskip]
    simp only [hmark, ne_eq, not_true_eq_false, decide_false, Bool.false_eq_true, if_false, hscan,
      Exit.value_bind, usize_add, hrun]
    exact congrArg Exit.value (ha data.bytes.length (Nat.sub_le ..))
  · simp [hmark]

theorem getLast?_sendArray (n : Nat) (items : List (Option Bytes)) :
    (sendArrayLen n ++ items.flatMap sendOptional).getLast? = some 10 := by
  have hline : ∀ before : Bytes, (before ++ crlf).getLast? = some 10 := by simp [crlf]
  induction items using reverseRecOn with
  | nil =>
    rw [flatMap_nil, append_nil]
    exact hline _
  | append_singleton items item _ =>
    rw [flatMap_append, flatMap_singleton, ← append_assoc, getLast?_append]
    cases item with
    | none => rfl
    | some v =>
      rw [sendOptional, sendBulkString, hline]
      rfl

end Readers

/-- What the builder wrote is read back, and the reader of arrays returns on every reply that is
shorter than `isize::MAX`. -/
theorem replies_read_back :
    (∀ (items : List (Option Bytes)) (n : Nat) (data : Slice),
      data.bytes = sendArrayLen n ++ items.flatMap sendOptional →
      ∀ fuel, data.bytes.length < fuel → parseRespArray fuel data = .value items) ∧
    (∀ (n : Int64) (data : Slice), data.bytes = sendInteger n →
      parseRespInteger data = .value (some n)) ∧
    ∀ data : Slice, data.bytes.length < 2 ^ 63 - 1 → ∀ fuel, data.bytes.length < fuel →
      parseRespArray fuel data = .value (ShrikeDb.parseRespArray data.bytes) := by
  refine ⟨fun items n data hdata fuel hfuel => ?_, fun n data hdata => ?_,
    fun data hlen fuel hfuel => ?_⟩
  · have hitems : ∀ v, some v ∈ items → v.length < 2 ^ 63 := by
      intro v hv
      have hsub := (sublist_flatten_of_mem (mem_map_of_mem (f := sendOptional) hv)).length_le
      have hfits := data.fits
      rw [← flatMap_def] at hsub
      simp only [hdata, length_append] at hfits
      simp only [sendOptional, sendBulkString, length_append] at hsub
      omega
    rw [parseRespArray_returns (Or.inr (hdata ▸ getLast?_sendArray n items)) hfuel, hdata,
      parseRespArray_sendArray n hitems]
  · rw [parseRespInteger_returns, hdata, parseRespInteger_sendInteger]
  · exact parseRespArray_returns (Or.inl (by omega)) hfuel

def lookalike : List (Option Bytes) := [some (ascii "$1\r\n*"), none, some []]

theorem length_lookalike :
    (sendArrayLen 3 ++ lookalike.flatMap sendOptional).length < 100 := by decide

theorem length_minusSeven : (sendInteger (-7)).length < 100 := by decide

theorem length_truncated : (ascii "*2\r\n$-1\r\n$5\r\nab").length < 100 := by decide

theorem replies_read_back_brief :
    parseRespArray 100 (.brief _ length_lookalike) = .value lookalike ∧
    parseRespInteger (.brief _ length_minusSeven) = .value (some (-7)) ∧
    parseRespArray 100 (.brief _ length_truncated) = .value [none] := by
  obtain ⟨harray, hinteger, hother⟩ := replies_read_back
  refine ⟨harray lookalike 3 _ rfl 100 length_lookalike, hinteger (-7) _ rfl, ?_⟩
  rw [hother (.brief _ length_truncated) (length_truncated.trans (by decide)) 100 length_truncated]
  decide +kernel

/-! ## A reply of `isize::MAX` bytes -/

variable (zeros : Nat)

/-- The largest `i64`, with zeros in front. -/
def paddedMax : Bytes := replicate zeros 48 ++ ascii "9223372036854775807"

theorem paddedMax_digits : ∀ b ∈ paddedMax zeros, Decimal.isDigit b = true := by
  intro b hb
  rcases mem_append.mp hb with h | h
  · rw [(mem_replicate.mp h).2]
    rfl
  · have hall : (ascii "9223372036854775807").all Decimal.isDigit = true := by decide
    exact all_eq_true.mp hall b h

theorem length_paddedMax : (paddedMax zeros).length = zeros + 19 := by
  rw [paddedMax, length_append, length_replicate]
  rfl

theorem declared_paddedMax : declared (paddedMax zeros) = Int64.maxValue := by
  have hascii : ∀ b ∈ paddedMax zeros, b < 0x80 := by
    intro b hb
    have hdigit := paddedMax_digits zeros b hb
    simp only [Decimal.isDigit, Bool.and_eq_true, decide_eq_true_eq] at hdigit
    exact UInt8.lt_of_le_of_lt hdigit.2 (by decide)
  have hne : paddedMax zeros ≠ [] := by
    intro h
    have hlen := length_paddedMax zeros
    rw [h] at hlen
    cases hlen
  have hvalue : Decimal.value (ascii "9223372036854775807") = 2 ^ 63 - 1 := by decide
  have hutf8 : fromUtf8 (paddedMax zeros) = some (paddedMax zeros) :=
    if_pos (Utf8.valid_of_ascii hascii)
  rw [declared, hutf8, Option.getD_some, parseI64,
    Decimal.parseInt_digits hne (paddedMax_digits zeros), paddedMax, Decimal.value_zeros, hvalue]
  decide

/-- The end of the last bulk string wraps around to 0. -/
theorem wrapped_panics {data : Slice} {zeros fuel : Nat}
    (hdata : data.bytes = 42 :: 10 :: 36 :: paddedMax zeros)
    (hlong : data.bytes.length = 2 ^ 63 - 1) (hfuel : data.bytes.length < fuel) :
    parseRespArray fuel data = .panic := by
  have hdrop : data.bytes.drop 3 = paddedMax zeros := by
    rw [hdata]
    rfl
  have hdigit : ∀ b ∈ paddedMax zeros, decide (b ≠ 13) = true := by
    intro b hb
    refine decide_eq_true ?_
    rintro rfl
    exact absurd (paddedMax_digits zeros 13 hb) (by decide)
  have hscan : Exit.loop (scanRound data 10) fuel 0 = .value (usize 1) := by
    obtain ⟨_, hrun, rfl⟩ := (scanProof data 10).total scanRound_spec 0 (Nat.zero_le _) fuel
      (Nat.lt_of_le_of_lt (Nat.sub_le ..) hfuel)
    rw [hdata] at hrun
    exact hrun
  have hbulk : data.bytes[2]? = some 36 := by
    rw [hdata]
    rfl
  obtain ⟨stop, hle, _, hrest, hround⟩ := elementRound_bulk hbulk hfuel []
  rw [hdrop, takeWhile_eq_self_iff.mpr hdigit] at hround
  rw [hdrop, dropWhile_eq_nil_iff.mpr hdigit, drop_eq_nil_iff] at hrest
  obtain rfl : stop = 2 ^ 63 - 1 := by omega
  have hround := hround _ (declared_paddedMax zeros)
  have hpanic : elementRound fuel data (usize 2, []) = .panic := by
    have hend : usize (2 ^ 63 - 1 + 2 + Int64.maxValue.toInt.toNat) = 0 := by decide
    have hnot : ¬ (usize (2 ^ 63 - 1 + 2) ≤ 0 ∧ 0 ≤ data.len) := by
      have hstart : ¬ usize (2 ^ 63 - 1 + 2) ≤ 0 := by decide
      exact fun h => hstart h.1
    have hneg : ¬ Int64.maxValue < 0 := by decide
    rw [hround, if_neg hneg, hend, if_pos (UInt64.zero_le), Slice.range, if_neg hnot,
      Exit.panic_bind]
  obtain ⟨fuel', rfl⟩ : ∃ f, fuel = f + 1 := ⟨fuel - 1, by omega⟩
  rw [parseRespArray, lacksMark_eq, Exit.value_bind, hdata]
  simp only [head?_cons, ne_eq, not_true_eq_false, decide_false, Bool.false_eq_true, if_false,
    hscan, Exit.value_bind]
  exact Exit.loop_panic hpanic fuel'

theorem longest_reply_panics :
    ∃ data : Slice, ∀ fuel, data.bytes.length < fuel → parseRespArray fuel data = .panic := by
  obtain ⟨zeros, hzeros⟩ : ∃ n, n + 22 = 2 ^ 63 - 1 := ⟨2 ^ 63 - 23, by omega⟩
  have hlen : (42 :: 10 :: 36 :: paddedMax zeros).length = 2 ^ 63 - 1 := by
    simp only [length_cons, length_paddedMax]
    omega
  exact ⟨⟨_, by omega⟩, fun fuel hfuel => wrapped_panics rfl hlen hfuel⟩

end Indexed

end ShrikeDb
