import ShrikeDb.Server.Broadcast

/-! `SCAN` from cursor zero until cursor zero comes back. The pages are those of the
shard the connection is on, lapsed keys included. -/

namespace ShrikeDb

open CommandRegistry Sharding ReplyBuilder Cluster ShardThread GenericFamily List

/-! ## Pages -/

/-- The reply of a `SCAN`. -/
def scanReply (keys : List Bytes) (next : UInt64) : Bytes :=
  sendArrayLen 2 ++ sendBulkString (u64ToString next) ++ sendStringArray keys

theorem length_u64ToString_lt (n : UInt64) : (u64ToString n).length < 2 ^ 63 := by
  have hlen := Decimal.length_ofNat_le (n := n.toNat) (k := 20) (by decide)
    (Nat.lt_of_lt_of_le n.toNat_lt (by decide))
  exact Nat.lt_of_le_of_lt hlen (by decide)

theorem u64ToString_injective : Function.Injective u64ToString := by
  intro a b h
  have hp := congrArg Decimal.parseNat h
  rw [u64ToString, u64ToString, Decimal.parseNat_ofNat, Decimal.parseNat_ofNat] at hp
  exact UInt64.toNat_inj.mp (Option.some.inj hp)

variable {keys : List Bytes}

/-- The elements of the inner array are read as if they stood in the outer one. -/
theorem parseRespArray_scanReply (h : ∀ k ∈ keys, k.length < 2 ^ 63) (next : UInt64) :
    parseRespArray (scanReply keys next) = some (u64ToString next) :: keys.map some := by
  let body := (keys.map some).flatMap sendOptional
  let inner := 42 :: (writeInt (Int64.ofNat keys.length) ++ crlf ++ body)
  have hbody : sendStringArray keys = inner := by
    rw [sendStringArray]
    exact congrArg _ (flatMap_map some sendOptional keys).symm
  have hreply : scanReply keys next =
      42 :: (writeInt (Int64.ofNat 2) ++ crlf ++
        (sendOptional (some (u64ToString next)) ++ inner)) := by
    rw [scanReply, hbody, append_assoc]
    rfl
  have hpos := length_sendOptional_pos (some (u64ToString next))
  obtain ⟨fuel, hfuel, hle⟩ : ∃ fuel, (scanReply keys next).length = fuel + 1 + 1 ∧
      body.length ≤ fuel := by
    refine ⟨(scanReply keys next).length - 2, ?_, ?_⟩ <;>
      simp only [hreply, inner, length_cons, length_append] <;> omega
  rw [parseRespArray, hfuel, hreply, head?_cons, if_pos rfl, skipLine_number _ _ (by decide),
    parseElements_sendOptional _ fun v hv => Option.some.inj hv ▸ length_u64ToString_lt next]
  change _ :: parseElements (fuel + 1) inner = _
  rw [parseElements, if_neg (by decide), skipLine_number _ _ (by decide)]
  rw [parseElements_flatMap (fun v hv => ?_) hle]
  obtain ⟨k, hk, heq⟩ := mem_map.mp hv
  exact Option.some.inj heq ▸ h k hk

theorem scanReply_inj {keys' : List Bytes} {next next' : UInt64} (h : ∀ k ∈ keys, k.length < 2 ^ 63)
    (h' : ∀ k ∈ keys', k.length < 2 ^ 63) (heq : scanReply keys next = scanReply keys' next') :
    keys = keys' ∧ next = next' := by
  have hread := congrArg parseRespArray heq
  rw [parseRespArray_scanReply h, parseRespArray_scanReply h', cons.injEq,
    Option.some.injEq] at hread
  refine ⟨?_, ?_⟩
  · exact map_injective_iff.mpr (Option.some_injective _) hread.2
  · exact u64ToString_injective hread.1

variable {F : Type}

/-- The keys of a page are those from its cursor on, up to the next cursor, which is
zero behind the last key. -/
theorem scan_eq_some {s : DbSlice F} {ω : Listing Bytes} {i : DbIndex} {cursor count next : UInt64}
    (hsize : s.dbSize i < 2 ^ 64) (hcount : 0 < count)
    (h : s.scan ω i cursor count none = some (keys, next)) :
    (next = 0 ∧ keys = (ω.list (s.dbs i).prime.keys).drop cursor.toNat) ∨
      (next ≠ 0 ∧ keys ++ (ω.list (s.dbs i).prime.keys).drop next.toNat =
        (ω.list (s.dbs i).prime.keys).drop cursor.toNat) := by
  have hlen : (ω.list (s.dbs i).prime.keys).length = s.dbSize i := ω.length_list _
  have hsum := UInt64.toNat_add cursor count
  have hcount' : 0 < count.toNat := by simpa [UInt64.lt_iff_toNat_lt] using hcount
  have hcursor := cursor.toNat_lt
  have hcount'' := count.toNat_lt
  rw [DbSlice.scan] at h
  dsimp only at h
  rw [hlen] at h
  generalize ω.list (s.dbs i).prime.keys = entries at *
  split at h
  · next hle =>
    cases h
    rw [drop_of_length_le (by omega)]
    exact .inl ⟨rfl, rfl⟩
  · split at h
    · cases h
    · next hstop =>
      cases h
      have hno : cursor.toNat + count.toNat < 2 ^ 64 := by omega
      rw [Nat.mod_eq_of_lt hno] at hsum
      rw [hsum]
      by_cases htotal : s.dbSize i ≤ cursor.toNat + count.toNat
      · rw [Nat.min_eq_right htotal, if_pos (Nat.le_refl _), ← hlen, ← length_drop, take_length]
        exact .inl ⟨rfl, rfl⟩
      · have hnext : (UInt64.ofNat (cursor.toNat + count.toNat)).toNat =
            cursor.toNat + count.toNat :=
          UInt64.toNat_ofNat_of_lt' hno
        rw [Nat.min_eq_left (by omega), if_neg htotal, Nat.add_sub_cancel_left, hnext]
        refine .inr ⟨fun hzero => ?_, ?_⟩
        · rw [hzero] at hnext
          simp at hnext
          omega
        · rw [← drop_drop, take_append_drop]

/-! ## One call -/

/-- A `SCAN` without a pattern. -/
structure ScanLine (args : List RespExpr) (cursor count : UInt64) : Prop where
  name : commandName args = .ok (ascii "SCAN")
  arity : arityOk (-2) args.length = true
  cursor : (args[1]?.bind RespExpr.asStr).bind parseU64 = some cursor
  options : scanOptions (args.drop 2) ⟨10, none⟩ = ⟨count, none⟩
  count_pos : 0 < count

/-- A `SCAN` that asks for everything at once. -/
def scanAll : List RespExpr := command ["SCAN", "0", "COUNT", "18446744073709551615"]

theorem scanLine_scanAll : ScanLine scanAll 0 18446744073709551615 := by
  refine ⟨rfl, rfl, ?_, ?_, by decide⟩
  · decide
  · have hcount : (RespExpr.string (ascii "18446744073709551615")).asStr.bind parseU64 =
        some 18446744073709551615 := by decide +kernel
    change GenericFamily.ScanOptions.mk
      (((RespExpr.string (ascii "18446744073709551615")).asStr.bind parseU64).getD 10) none = _
    rw [hcount]
    rfl

section Calls

variable [F64 F] [HashOrder] [CaseTable] {n : Nat}

/-- What a call appends to the reply, and the shards afterwards, when each shard's
tables are iterated in the order `ω` gives. -/
def Cluster.serve (now : UInt64) (i : DbIndex) (ω : Fin n → Listing Bytes) (c : Cluster F n) :
    Plan n → Option Bytes × Cluster F n
  | .run target args =>
    let out := execOne now i c ⟨target, args, []⟩ (ω target)
    (out.reply, Function.update c target out.shard)
  | .fan subs merge =>
    let out := execAll now i (subs.map fun sub => (sub, ω sub.target)) c
    (some (merge.apply (subs.map fun sub => (sub, out.1 sub.target))), out.2)
  | .reply data _ => (some data, c)
  | _ => (none, c)

variable {args : List RespExpr} {cursor count : UInt64}

theorem ScanLine.resolves (h : ScanLine args cursor count) :
    resolve (F := F) args = .run ⟨ascii "SCAN", cmdScan, -2, 0⟩ := by
  rw [resolve, h.name]
  dsimp only
  rw [if_neg (by decide), find_scan]
  exact if_pos h.arity

theorem ScanLine.dispatches (h : ScanLine args cursor count) (ω : Listing Bytes) (i : DbIndex)
    (shard : EngineShard F) :
    (dispatch ω args ⟨i⟩ shard).reply =
        (shard.dbSlice.scan ω i cursor count none).map (fun r => scanReply r.1 r.2) ∧
      (dispatch ω args ⟨i⟩ shard).shard.dbSlice = shard.dbSlice := by
  have hcursor : (CommandContext.argStr ⟨args, i⟩ 1).bind parseU64 = some cursor := h.cursor
  have hrun : ∀ x : Exec F, Program.run (step ω) (cmdScan ⟨args, i⟩) x =
      ((x.slice.scan ω i cursor count none).map fun r => scanReply r.1 r.2, x) := by
    intro x
    rw [cmdScan, hcursor]
    dsimp only
    rw [h.options]
    change Program.run (step ω) (Program.ofOption (x.slice.scan ω i cursor count none) >>= _) x = _
    cases x.slice.scan ω i cursor count none <;> rfl
  rw [dispatch, h.resolves]
  dsimp only
  rw [hrun]
  exact ⟨rfl, rfl⟩

variable [NeZero n]

theorem ScanLine.plan (h : ScanLine args cursor count) (home : Fin n) :
    dispatchCommand F home args = if n = 1 then .run home args else
      .fan (({ target := home, args := args } : Sub n) ::
        ((finRange n).filter (· ≠ home)).map fun sid => { target := sid, args := args })
        (.only home) := by
  rw [dispatchCommand, h.name]
  dsimp only
  rw [if_neg (by decide), if_neg (by decide), if_neg (by decide), find_scan]
  dsimp only
  rw [if_pos h.arity]
  rfl

omit [NeZero n] in
theorem Everywhere.exec_listed {subs : List (Sub n)} (h : Everywhere args subs)
    (ω : Fin n → Listing Bytes) (now : UInt64) (i : DbIndex) (c : Cluster F n) (s : Fin n) :
    (execAll now i (subs.map fun sub => (sub, ω sub.target)) c).1 s =
        (dispatch (ω s) args ⟨i⟩ ((c s).updateTime now)).reply ∧
      (execAll now i (subs.map fun sub => (sub, ω sub.target)) c).2 s =
        (dispatch (ω s) args ⟨i⟩ ((c s).updateTime now)).shard := by
  have hnodup : ((subs.map fun sub => (sub, ω sub.target)).map fun p => p.1.target).Nodup := by
    rw [map_map]
    exact h.perm.nodup_iff.mpr (nodup_finRange n)
  obtain ⟨sub, hsub, rfl⟩ := mem_map.mp (h.perm.mem_iff.mpr (mem_finRange s))
  have hspec := (execAll_spec now i hnodup c).1 (sub, ω sub.target) (mem_map_of_mem hsub)
  rw [execOne, h.same sub hsub] at hspec
  exact hspec

/-- The reply comes from the shard of the connection, and no shard is changed. -/
theorem ScanLine.serves (h : ScanLine args cursor count) (now : UInt64) (i : DbIndex)
    (ω : Fin n → Listing Bytes) (c : Cluster F n) (home : Fin n) :
    (∀ keys next, (c.serve now i ω (dispatchCommand F home args)).1 =
        some (scanReply keys next) ↔ ∃ r, (c home).dbSlice.scan
          (ω home) i cursor count none = some r ∧
          scanReply r.1 r.2 = scanReply keys next) ∧
      ∀ s, ((c.serve now i ω (dispatchCommand F home args)).2 s).dbSlice.dbs =
        (c s).dbSlice.dbs := by
  have hreply : ∀ s, (dispatch (ω s) args ⟨i⟩ ((c s).updateTime now)).reply =
      ((c s).dbSlice.scan (ω s) i cursor count none).map fun r => scanReply r.1 r.2 :=
    fun s => (h.dispatches (ω s) i ((c s).updateTime now)).1
  have hdbs : ∀ s, (dispatch (ω s) args ⟨i⟩ ((c s).updateTime now)).shard.dbSlice.dbs =
      (c s).dbSlice.dbs :=
    fun s => (congrArg DbSlice.dbs (h.dispatches (ω s) i ((c s).updateTime now)).2).trans rfl
  rw [h.plan]
  split
  · next hn =>
    subst hn
    refine ⟨fun keys next => ?_, fun s => ?_⟩
    · exact (Eq.congr_left (hreply home)).trans Option.map_eq_some_iff
    · rw [Subsingleton.elim s home, Cluster.serve]
      dsimp only
      rw [Function.update_self]
      exact hdbs home
  · have hall := (everywhere_home home args).exec_listed ω now i c
    refine ⟨fun keys next => ?_, fun s => ?_⟩
    · rw [Cluster.serve]
      dsimp only
      rw [Merge.apply, map_cons, find?_cons_of_pos (by simp), Option.bind_some, (hall home).1,
        hreply]
      cases (c home).dbSlice.scan (ω home) i cursor count none with
      | none => exact iff_of_false (fun h => absurd
          (Option.some.inj h) (by rintro ⟨⟩)) (by rintro ⟨_, ⟨⟩, _⟩)
      | some r => simp
    · exact (congrArg (fun sh => sh.dbSlice.dbs) (hall s).2).trans (hdbs s)

/-! ## Iterations -/

/-- The keys a client collects that starts at a cursor and asks on, with any counts and
at any times, until cursor zero comes back. -/
inductive Enumerates (home : Fin n) (i : DbIndex) (ω : Fin n → Listing Bytes) :
    Cluster F n → UInt64 → List Bytes → Prop
  | last {c : Cluster F n} {cursor count now : UInt64} {args : List RespExpr} {keys : List Bytes}
      (hline : ScanLine args cursor count) (hkeys : ∀ k ∈ keys, k.length < 2 ^ 63)
      (hreply : (c.serve now i ω (dispatchCommand F home args)).1 = some (scanReply keys 0)) :
      Enumerates home i ω c cursor keys
  | more {c : Cluster F n} {cursor count now next : UInt64} {args : List RespExpr}
      {keys rest : List Bytes} (hline : ScanLine args cursor count)
      (hkeys : ∀ k ∈ keys, k.length < 2 ^ 63)
      (hreply : (c.serve now i ω (dispatchCommand F home args)).1 = some (scanReply keys next))
      (hnext : next ≠ 0)
      (hrest : Enumerates home i ω (c.serve now i ω (dispatchCommand F home args)).2 next rest) :
      Enumerates home i ω c cursor (keys ++ rest)

/-- The keys of the selected database on the shard of the connection. -/
def Cluster.storedAt (home : Fin n) (i : DbIndex) (ω : Fin n → Listing Bytes) (c : Cluster F n) :
    List Bytes :=
  (ω home).list ((c home).dbSlice.dbs i).prime.keys

/-- Keys fit a vector, and their number a `usize`. -/
structure Cluster.Countable (c : Cluster F n) (home : Fin n) (i : DbIndex) : Prop where
  size : (c home).dbSlice.dbSize i < 2 ^ 64
  key : ∀ k ∈ ((c home).dbSlice.dbs i).prime.keys, k.length < 2 ^ 63

variable {home : Fin n} {i : DbIndex} {ω : Fin n → Listing Bytes}

theorem ScanLine.page (h : ScanLine args cursor count) {c : Cluster F n} (hc : c.Countable home i)
    {now next : UInt64} {keys : List Bytes} (hkeys : ∀ k ∈ keys, k.length < 2 ^ 63)
    (hreply : (c.serve now i ω (dispatchCommand F home args)).1 = some (scanReply keys next)) :
    (next = 0 ∧ keys = (c.storedAt home i ω).drop cursor.toNat) ∨
      (next ≠ 0 ∧ keys ++ (c.storedAt home i ω).drop next.toNat =
        (c.storedAt home i ω).drop cursor.toNat) := by
  obtain ⟨r, hscan, heq⟩ := ((h.serves now i ω c home).1 keys next).mp hreply
  have hpage := scan_eq_some hc.size h.count_pos hscan
  have hr : ∀ k ∈ r.1, k.length < 2 ^ 63 := by
    intro k hk
    refine hc.key k (((ω home).mem_list _ k).mp ?_)
    rcases hpage with ⟨-, hdrop⟩ | ⟨-, hdrop⟩
    · exact mem_of_mem_drop (hdrop ▸ hk)
    · exact mem_of_mem_drop (hdrop ▸ mem_append_left _ hk)
  obtain ⟨rfl, rfl⟩ := scanReply_inj hr hkeys heq
  exact hpage

/-- An iteration collects the keys stored on the shard of the connection. -/
theorem Enumerates.keys_eq {c : Cluster F n} {keys : List Bytes}
    (h : Enumerates home i ω c cursor keys) (hc : c.Countable home i) :
    keys = (c.storedAt home i ω).drop cursor.toNat := by
  induction h with
  | last hline hkeys hreply =>
    rcases hline.page hc hkeys hreply with ⟨-, heq⟩ | ⟨hne, -⟩
    · exact heq
    · exact absurd rfl hne
  | @more c cursor count now next args keys rest hline hkeys hreply hnext hrest ih =>
    have hdbs := (hline.serves now i ω c home).2 home
    have hstored : ((c.serve now i ω (dispatchCommand F home args)).2).storedAt home i ω =
        c.storedAt home i ω := by
      rw [storedAt, hdbs, storedAt]
    rcases hline.page hc hkeys hreply with ⟨hzero, -⟩ | ⟨-, heq⟩
    · exact absurd hzero hnext
    · rw [ih ⟨?_, ?_⟩, hstored, heq]
      · rw [DbSlice.dbSize, hdbs]
        exact hc.size
      · rw [hdbs]
        exact hc.key

theorem enumerates_stored (c : Cluster F n) (hc : c.Countable home i) :
    Enumerates home i ω c 0 (c.storedAt home i ω) := by
  have hlen : (c.storedAt home i ω).length = (c home).dbSlice.dbSize i := (ω home).length_list _
  have hscan : (c home).dbSlice.scan (ω home) i 0 18446744073709551615 none =
      some (c.storedAt home i ω, 0) := by
    have hsize := hc.size
    rw [← hlen] at hsize
    unfold storedAt at hsize ⊢
    rw [DbSlice.scan]
    generalize (ω home).list ((c home).dbSlice.dbs i).prime.keys = entries at hsize ⊢
    dsimp only
    split
    · next hnil => rw [eq_nil_of_length_eq_zero (Nat.le_zero.mp hnil)]
    · have hstop : min ((0 : UInt64) + 18446744073709551615).toNat entries.length =
          entries.length :=
        Nat.min_eq_right (Nat.le_of_lt_succ hsize)
      rw [hstop, UInt64.toNat_zero, if_neg (Nat.not_lt_zero _), if_pos (Nat.le_refl _),
        Nat.sub_zero, drop_zero, take_length]
  have hkeys : ∀ k ∈ c.storedAt home i ω, k.length < 2 ^ 63 :=
    fun k hk => hc.key k (((ω home).mem_list _ k).mp hk)
  exact .last scanLine_scanAll hkeys
    (((scanLine_scanAll.serves 0 i ω c home).1 _ 0).mpr ⟨_, hscan, rfl⟩)

/-- Some shard has a key that is not past its deadline. -/
def Cluster.Live (c : Cluster F n) (now : UInt64) (i : DbIndex) (k : Bytes) : Prop :=
  ∃ s, (((c s).dbSlice.cell (i, k)).live now).1.isSome = true

/-- Iterations of `SCAN` find the live keys of all shards iff these are the keys that the
shard of the connection stores. -/
theorem scan_finds_live_iff (c : Cluster F n) (home : Fin n) (i : DbIndex)
    (ω : Fin n → Listing Bytes) (now : UInt64) (hc : c.Countable home i) :
    (∀ keys, Enumerates home i ω c 0 keys → ∀ k, k ∈ keys ↔ c.Live now i k) ↔
      ∀ k, k ∈ ((c home).dbSlice.dbs i).prime.keys ↔ c.Live now i k := by
  have hmem : ∀ k, k ∈ c.storedAt home i ω ↔ k ∈ ((c home).dbSlice.dbs i).prime.keys :=
    fun k => (ω home).mem_list _ k
  constructor
  · intro h k
    rw [← hmem]
    exact h _ (enumerates_stored c hc) k
  · intro h keys henum k
    rw [henum.keys_eq hc]
    exact (hmem k).trans (h k)

end Calls

section Fixed

attribute [local instance] F64.whole CaseTable.identity HashOrder.arbitrary neZeroTwo

/-- Two shards, with strings under `a` and `k`, which have the same shard. -/
def oneSided : Cluster Int 2 := fun s =>
  if s = shard (ascii "k") 2 then
    ⟨((DbSlice.new.addOrUpdate 0 (ascii "k") (.string (ascii "v"))).2.addOrUpdate 0 (ascii "a")
      (.string (ascii "w"))).2, 0⟩
  else EngineShard.new

theorem cell_oneSided (s : Fin 2) (k : Bytes) : ((oneSided s).dbSlice.cell (0, k)).1.isSome = true ↔
    s = shard (ascii "k") 2 ∧ (k = ascii "a" ∨ k = ascii "k") := by
  by_cases hs : s = shard (ascii "k") 2
  · have hcell : (oneSided s).dbSlice.cell (0, k) = (Finmap.lookup k (((∅ : Finmap fun _ : Bytes =>
        PrimeValue Int).insert (ascii "k") (.string (ascii "v"))).insert (ascii "a")
          (.string (ascii "w"))), none) := by
      rw [oneSided, if_pos hs]
      rfl
    rw [hcell, Finmap.lookup_isSome, Finmap.mem_insert, Finmap.mem_insert, and_iff_right hs]
    simp only [Finmap.notMem_empty, or_false]
  · rw [oneSided, if_neg hs]
    exact iff_of_false (by rintro ⟨⟩) fun h => hs h.1

theorem countable_oneSided (home : Fin 2) : oneSided.Countable home 0 := by
  have hkeys : ∀ k ∈ ((oneSided home).dbSlice.dbs 0).prime.keys, k = ascii "a" ∨ k = ascii "k" :=
    fun k hk => ((cell_oneSided home k).mp ((mem_prime_keys _ _ _).mp hk)).2
  refine ⟨?_, fun k hk => ?_⟩
  · have hsub : ((oneSided home).dbSlice.dbs 0).prime.keys ⊆ {ascii "a", ascii "k"} :=
      fun k hk => by
      simpa using hkeys k hk
    exact Nat.lt_of_le_of_lt (Finset.card_le_card hsub) (by decide)
  · rcases hkeys k hk with rfl | rfl <;> decide

theorem live_oneSided (k : Bytes) : oneSided.Live 0 0 k ↔ k = ascii "a" ∨ k = ascii "k" := by
  have hlive : ∀ s, (((oneSided s).dbSlice.cell (0, k)).live 0).1 =
      ((oneSided s).dbSlice.cell (0, k)).1 := by
    intro s
    have hnone : ((oneSided s).dbSlice.cell (0, k)).2 = none := by
      rw [oneSided]
      split <;> rfl
    rw [Cell.live, Cell.lapsed, hnone]
    rfl
  constructor
  · rintro ⟨s, hs⟩
    rw [hlive] at hs
    exact ((cell_oneSided s k).mp hs).2
  · intro hk
    refine ⟨shard (ascii "k") 2, ?_⟩
    rw [hlive]
    exact (cell_oneSided _ k).mpr ⟨rfl, hk⟩

/-- A connection on the shard of both keys finds them. -/
theorem scan_finds_live_oneSided :
    let home := shard (ascii "k") 2
    oneSided.Countable home 0 ∧ ∀ keys,
    Enumerates home 0 (fun _ => .arbitrary Bytes) oneSided 0 keys →
      ∀ k, k ∈ keys ↔ oneSided.Live 0 0 k := by
  refine ⟨countable_oneSided _, (scan_finds_live_iff oneSided _ 0 _ 0 (countable_oneSided _)).mpr
    fun k => ?_⟩
  rw [mem_prime_keys, cell_oneSided, live_oneSided, and_iff_right rfl]

/-- A connection on the other shard does not. -/
theorem scan_misses_key :
    let home := shard (ascii "k") 2 + 1
    Enumerates home 0 (fun _ => .arbitrary Bytes) oneSided 0 [] ∧
    oneSided.Live 0 0 (ascii "k") := by
  intro home
  have hhome : home ≠ shard (ascii "k") 2 := by decide
  have hempty : oneSided.storedAt home 0 (fun _ => .arbitrary Bytes) = [] := by
    refine eq_nil_iff_forall_not_mem.mpr fun k hk => hhome ?_
    exact ((cell_oneSided home k).mp ((mem_prime_keys _ _ _).mp ((Listing.mem_list _ _ k).mp hk))).1
  refine ⟨?_, (live_oneSided _).mpr (.inr rfl)⟩
  rw [← hempty]
  exact enumerates_stored oneSided (countable_oneSided home)

end Fixed

end ShrikeDb
