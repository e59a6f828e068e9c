import ShrikeDb.Lib.Words
import ShrikeDb.Server.SetOptions

/-! The deadlines that `EXPIRE`, `SET` and their relatives compute. A client gives a signed
number of seconds or milliseconds; the handlers scale it and add the clock in 64 bits
without a check, and `PTTL` reads what is left as a signed number again. -/

namespace ShrikeDb

open Program Command ReplyBuilder CommandRegistry GenericFamily StringFamily Function

variable {F : Type}

/-! ## The number and the word -/

/-- A number of units, counted from now or from the epoch. -/
structure Timing where
  unit : UInt64
  absolute : Bool
  n : Int64

namespace Timing

variable (t : Timing)

variable (now : UInt64)

/-- The deadline as a number. -/
def deadline : Int :=
  (if t.absolute then 0 else (now.toNat : Int)) + t.n.toInt * t.unit.toNat

/-- The deadline as the handlers compute it. -/
def word : UInt64 :=
  if t.absolute then t.n.toUInt64 * t.unit else now + t.n.toUInt64 * t.unit

/-- What is left until the deadline is a signed number, and a point in time before the
epoch is not taken for one in the future. -/
def Fits : Prop :=
  t.deadline now - now.toNat < 2 ^ 63 ∧
    (t.absolute = true → 0 ≤ t.deadline now ∨ t.deadline now % 2 ^ 64 ≤ now.toNat)

theorem toNat_word :
    ((t.word now).toNat : Int) = t.deadline now % 2 ^ 64 := by
  have hscaled : ((t.n.toUInt64 * t.unit).toNat : Int) = t.n.toInt * t.unit.toNat % 2 ^ 64 := by
    rw [UInt64.toNat_mul, Int.natCast_emod, Int.natCast_mul, Words.toNat_toUInt64]
    exact Int.ModEq.mul_right _ (Int.mod_modEq _ _)
  cases habs : t.absolute with
  | true => simp only [word, deadline, habs, if_true, hscaled, Int.zero_add]
  | false =>
    simp only [word, deadline, habs, Bool.false_eq_true, if_false, UInt64.toNat_add,
      Int.natCast_emod, Int.natCast_add, hscaled]
    exact Int.ModEq.add_left _ (Int.mod_modEq _ _)

variable {t : Timing} {now : UInt64}

theorem Fits.of_le (h : t.deadline now ≤ now.toNat)
    (habs : t.absolute = true → (t.word now).toNat ≤ now.toNat) : t.Fits now := by
  refine ⟨by omega, fun ht => .inr ?_⟩
  have hle := habs ht
  rw [← t.toNat_word now]
  omega

/-- A request counts as late if its deadline has passed, or if the word wraps around. -/
theorem deadline_of_late (h : if t.absolute then t.word now ≤ now else t.n.toInt ≤ 0) :
    t.deadline now ≤ now.toNat ∧ t.Fits now ∨ 2 ^ 64 ≤ t.deadline now := by
  have hword := t.toNat_word now
  cases habs : t.absolute with
  | true =>
    rw [habs, if_pos rfl, UInt64.le_iff_toNat_le] at h
    by_cases hle : t.deadline now ≤ now.toNat
    · exact .inl ⟨hle, .of_le hle fun _ => h⟩
    · right
      omega
  | false =>
    rw [habs, if_neg Bool.false_ne_true] at h
    have hscaled := Int.mul_nonpos_of_nonpos_of_nonneg h (Int.natCast_nonneg t.unit.toNat)
    have hle : t.deadline now ≤ now.toNat := by
      simp only [deadline, habs, Bool.false_eq_true, if_false]
      omega
    refine .inl ⟨hle, .of_le hle fun ht => ?_⟩
    rw [habs] at ht
    cases ht

/-- A request from now on that is not late has its deadline in the future. -/
theorem lt_deadline (t : Timing) (now : UInt64) (hunit : 0 < t.unit.toNat)
    (habs : t.absolute = false) (hn : 0 < t.n.toInt) : now.toNat < t.deadline now := by
  have hscaled := Int.mul_pos hn (Int.natCast_pos.mpr hunit)
  simp only [deadline, habs, Bool.false_eq_true, if_false]
  omega

end Timing

/-! ## What governs the key -/

/-- What a request leaves under the key: nothing, if it counts as late, or a value with the
computed deadline. -/
inductive Timed (now : UInt64) (t : Timing) : Cell F → Prop
  | late (h : if t.absolute then t.word now ≤ now else t.n.toInt ≤ 0) : Timed now t Cell.empty
  | stored (v : PrimeValue F) (h : t.absolute = false → 0 < t.n.toInt) :
      Timed now t (some v, some (t.word now))

theorem Cell.live_stored (now : UInt64) (v : PrimeValue F) (d : UInt64) :
    Cell.live now (some v, some d) = if d ≤ now then Cell.empty else (some v, some d) := by
  simp [Cell.live, Cell.lapsed]

section Pttl

variable [F64 F] [HashOrder] [CaseTable]

omit [CaseTable] in
theorem find_pttl : find (F := F) (ascii "PTTL") = some ⟨ascii "PTTL", cmdPttl, 2, 1⟩ :=
  find_of_getElem (n := 19) genericTable (by simp [tables]) rfl rfl

/-- The deadline is what the key lives by: past it the key is gone, before it the key is stored
with this deadline, and `PTTL` replies what is left. -/
def Governs (ω : Listing Bytes) (conn : ConnContext) (s : EngineShard F) (key : Bytes) (d : Int) :
    Prop :=
  if d ≤ s.dbSlice.nowMs.toNat then s.held conn key = none
  else (∃ w, (s.dbSlice.cell (conn.dbIndex, key)).2 = some w ∧ (w.toNat : Int) = d) ∧
    ∃ left : Int64, left.toInt = d - s.dbSlice.nowMs.toNat ∧
      asked ω conn s key (ascii "PTTL") = some (sendInteger left)

omit [F64 F] [HashOrder] [CaseTable] in
theorem cmdPttl_leaves {ctx : CommandContext} {key : Bytes} (hkey : ctx.argBytes 1 = some key)
    (ω : Listing Bytes) {x : Exec F} {v : PrimeValue F} {d : UInt64}
    (hc : x.slice.cell (ctx.dbIndex, key) = (some v, some d)) (hlt : x.slice.nowMs < d) :
    Leaves ω (cmdPttl ctx) x (sendInteger (d - x.slice.nowMs).toInt64) x.slice.cell := by
  have hlive : (x.slice.cell (ctx.dbIndex, key)).live x.slice.nowMs = (some v, some d) := by
    rw [hc, Cell.live_stored, if_neg (UInt64.not_le.mpr hlt)]
  refine (Leaves.ofOption hkey ω x).bind fun y hy hnow => ?_
  refine (Leaves.perform (o := .ttlMs ctx.dbIndex key) rfl ω y).bind fun z hz _ => ?_
  dsimp only [DbOp.answer, DbOp.onCell] at hz ⊢
  rw [hy, hnow, hlive] at hz ⊢
  rw [hc, ite_self, ← hc, update_eq_self] at hz
  dsimp only [DbOp.ttlOf]
  rw [UInt64.div_one, ← hz]
  exact Leaves.pure ω z _

theorem governs_iff {ω : Listing Bytes} {conn : ConnContext} {s : EngineShard F} {key : Bytes}
    {t : Timing} (hnow : s.dbSlice.nowMs.toNat < 2 ^ 63) (hunit : 0 < t.unit.toNat)
    (hc : Timed s.dbSlice.nowMs t (s.dbSlice.cell (conn.dbIndex, key))) :
    Governs ω conn s key (t.deadline s.dbSlice.nowMs) ↔ t.Fits s.dbSlice.nowMs := by
  have hword := t.toNat_word s.dbSlice.nowMs
  rw [Governs, EngineShard.held]
  generalize hcell : s.dbSlice.cell (conn.dbIndex, key) = c at hc
  cases hc with
  | late h =>
    rcases Timing.deadline_of_late h with ⟨hle, hfits⟩ | hwrap
    · rw [if_pos hle]
      exact iff_of_true rfl hfits
    · rw [if_neg (by omega)]
      refine iff_of_false ?_ fun hfits => ?_
      · rintro ⟨⟨w, hw, -⟩, -⟩
        cases hw
      · have hleft := hfits.1
        omega
  | stored v h =>
    rw [Cell.live_stored]
    by_cases hle : t.deadline s.dbSlice.nowMs ≤ s.dbSlice.nowMs.toNat
    · have habs : t.absolute = true := by
        by_contra hrel
        rw [Bool.not_eq_true] at hrel
        have hlt := t.lt_deadline s.dbSlice.nowMs hunit hrel (h hrel)
        omega
      rw [if_pos hle]
      constructor
      · intro hgone
        refine .of_le hle fun _ => UInt64.le_iff_toNat_le.mp ?_
        by_contra hlt
        rw [if_neg hlt] at hgone
        cases hgone
      · intro hfits
        have hpast := hfits.2 habs
        rw [if_pos (UInt64.le_iff_toNat_le.mpr (by omega))]
        rfl
    · rw [if_neg hle]
      constructor
      · rintro ⟨-, left, hleft, -⟩
        have hlt := left.toInt_lt
        exact ⟨by omega, fun _ => .inl (by omega)⟩
      · rintro ⟨hleft, -⟩
        have hsame : ((t.word s.dbSlice.nowMs).toNat : Int) = t.deadline s.dbSlice.nowMs := by omega
        have hlt : s.dbSlice.nowMs < t.word s.dbSlice.nowMs := UInt64.lt_iff_toNat_lt.mpr (by omega)
        have hsub := UInt64.toNat_sub_of_le _ _ (UInt64.le_of_lt hlt)
        have hrest : (t.word s.dbSlice.nowMs - s.dbSlice.nowMs).toInt64.toInt =
            t.deadline s.dbSlice.nowMs - s.dbSlice.nowMs.toNat := by
          rw [Words.toInt_toInt64_of_lt (by omega), hsub]
          omega
        exact ⟨⟨_, rfl, hsame⟩, _, hrest, asked_eq find_pttl rfl (cmdPttl_leaves rfl ω hcell hlt)⟩

end Pttl

/-! ## The handlers -/

section Handlers

variable {ctx : CommandContext} {key : Bytes} {x : Exec F} {v : PrimeValue F} {n : Int64}
  {ω : Listing Bytes}

theorem addExpire_leaves {α : Type} {i : DbIndex} (hv : (x.slice.cell (i, key)).1 = some v)
    (d : UInt64) (reply : α) :
    Leaves ω (invoke (S := dbOps F) (.addExpire i key d) >>= fun _ => pure reply) x reply
      (update x.slice.cell (i, key) (some v, some d)) := by
  have hset := Leaves.invoke_pure (o := .addExpire i key d) rfl ω x reply
  rw [DbOp.onCell, hv, if_pos Option.isSome_some] at hset
  exact hset

theorem oldString_leaves {i : DbIndex}
    (hv : ((x.slice.cell (i, key)).live x.slice.nowMs).1 = some v) (hstring : v.isString = true) :
    Leaves ω (oldString i key) x (.ok (some v.asBytes)) (x.lookedUp (i, key)) := by
  refine (find_leaves i key).bind fun y hy _ => ?_
  rw [DbOp.found, hv]
  dsimp only [Option.map_some]
  rw [if_pos hstring, ← hy]
  exact Leaves.pure ω y _

theorem argPositiveInt_of_pos {i : Nat} (hn : ctx.argInt i = some n) (hpos : 0 < n) :
    ctx.argPositiveInt i = some n.toUInt64 := by
  obtain ⟨e, he, hn⟩ := Option.bind_eq_some_iff.mp hn
  rw [CommandContext.argPositiveInt, he, Option.bind_some, RespExpr.asPositiveInt, hn,
    Option.bind_some, if_neg (Int64.not_le.mpr hpos)]

section Found

variable (hkey : ctx.argBytes 1 = some key)
  (hv : ((x.slice.cell (ctx.dbIndex, key)).live x.slice.nowMs).1 = some v)

include hkey hv

theorem setExpireRelative_leaves (hn : ctx.argInt 2 = some n) (unit : UInt64) :
    ∃ c, Leaves ω (setExpireRelative ctx unit) x (sendInteger 1)
        (update x.slice.cell (ctx.dbIndex, key) c) ∧ Timed x.slice.nowMs ⟨unit, false, n⟩ c := by
  by_cases hle : n ≤ 0
  · refine ⟨Cell.empty, .arg_bind hkey ?_, .late (Int64.le_iff_toInt_le.mp hle)⟩
    rw [hn]
    dsimp only
    rw [if_pos hle]
    exact Leaves.existsKey_bind hv fun y _ _ =>
      Leaves.invoke_pure (o := .del ctx.dbIndex key) rfl ω y _
  · have hpos : 0 < n.toInt := Int.not_le.mp fun h => hle (Int64.le_iff_toInt_le.mpr h)
    refine ⟨_, .arg_bind hkey ?_, .stored v fun _ => hpos⟩
    rw [hn]
    dsimp only
    rw [if_neg hle]
    refine Leaves.existsKey_bind hv fun y hy hnow => .nowMs_bind ?_
    rw [← hy] at hv
    rw [hnow]
    exact addExpire_leaves hv _ _

theorem setExpireAbsolute_leaves (hn : ctx.argInt 2 = some n) (unit : UInt64) :
    ∃ c, Leaves ω (setExpireAbsolute ctx unit) x (sendInteger 1)
        (update x.slice.cell (ctx.dbIndex, key) c) ∧ Timed x.slice.nowMs ⟨unit, true, n⟩ c := by
  by_cases hle : n.toUInt64 * unit ≤ x.slice.nowMs
  · refine ⟨Cell.empty, .arg_bind hkey ?_, .late hle⟩
    rw [hn]
    refine Leaves.existsKey_bind hv fun y _ hnow => .nowMs_bind ?_
    rw [hnow, if_pos hle]
    exact Leaves.invoke_pure (o := .del ctx.dbIndex key) rfl ω y _
  · refine ⟨_, .arg_bind hkey ?_, .stored v nofun⟩
    rw [hn]
    refine Leaves.existsKey_bind hv fun y hy hnow => .nowMs_bind ?_
    rw [← hy] at hv
    rw [hnow, if_neg hle]
    exact addExpire_leaves hv _ _

theorem cmdGetex_leaves (hstring : v.isString = true) {w : RespExpr} (hw : ctx.args[2]? = some w)
    {unit : UInt64} {absolute : Bool} (hunit : expiryOption (optionWord w) = some (unit, absolute))
    (hn : ctx.argInt 3 = some n) (hpos : 0 < n) :
    Leaves ω (cmdGetex ctx) x (sendBulkString v.asBytes)
      (update x.slice.cell (ctx.dbIndex, key)
        (some v, some (Timing.word ⟨unit, absolute, n⟩ x.slice.nowMs))) := by
  refine .arg_bind hkey ((oldString_leaves hv hstring).bind fun y hy hnow => ?_)
  dsimp only
  have hlen : ctx.args.length > 2 := (List.getElem?_eq_some_iff.mp hw).1
  have hoption : getexOption ctx y.slice.nowMs =
      .ok (some (Timing.word ⟨unit, absolute, n⟩ x.slice.nowMs)) := by
    have hword : toUppercase ((ctx.argStr 2).getD []) = optionWord w := by
      rw [CommandContext.argStr, hw]
      rfl
    unfold getexOption
    dsimp only
    rw [hword, hunit, argPositiveInt_of_pos hn hpos, hnow]
    rfl
  rw [if_pos hlen]
  refine .nowMs_bind ?_
  rw [hoption]
  have hcell : (y.slice.cell (ctx.dbIndex, key)).1 = some v := by
    rw [hy, Exec.lookedUp, update_self, hv]
  have hset := addExpire_leaves (ω := ω) hcell (Timing.word ⟨unit, absolute, n⟩ x.slice.nowMs)
    (sendBulkString v.asBytes)
  rw [hy, Exec.lookedUp, update_idem] at hset
  exact hset

end Found

theorem setWithExpiry_leaves (hkey : ctx.argBytes 1 = some key) (hn : ctx.argInt 2 = some n)
    (hpos : 0 < n) {value : Bytes} (hvalue : ctx.argBytes 3 = some value) (unit : UInt64) :
    Leaves ω (setWithExpiry ctx unit) x sendOk (update x.slice.cell (ctx.dbIndex, key)
      (some (.fromBytes value), some (Timing.word ⟨unit, false, n⟩ x.slice.nowMs))) := by
  refine .arg_bind hkey ?_
  rw [hn]
  dsimp only
  rw [if_pos hpos]
  refine .arg_bind hvalue ?_
  refine (Leaves.invoke (o := .addOrUpdate ctx.dbIndex key (.fromBytes value)) rfl ω x).bind
    fun y hy hnow => ?_
  refine .nowMs_bind ?_
  have hcell : (y.slice.cell (ctx.dbIndex, key)).1 = some (.fromBytes value) := by
    rw [hy, update_self]
    rfl
  have hset := addExpire_leaves (ω := ω) hcell (y.slice.nowMs + n.toUInt64 * unit) sendOk
  rw [hy, update_idem, hnow] at hset
  rw [hnow]
  exact hset

/-- The last expiry option counts. -/
theorem givenDeadline_last (now unit : UInt64) (absolute : Bool) (n : Int64)
    (before : List SetOption) {after : List SetOption}
    (hlast : ∀ opt ∈ after, opt.deadline now = none) :
    givenDeadline now (before ++ .expiry unit absolute n.toUInt64 :: after) =
      some (Timing.word ⟨unit, absolute, n⟩ now) := by
  have hafter : after.filterMap (SetOption.deadline now) = [] := List.filterMap_eq_nil_iff.mpr hlast
  rw [givenDeadline, List.filterMap_append, List.filterMap_cons, hafter]
  exact List.getLast?_concat

theorem cmdSet_leaves {value : Bytes} (hkey : ctx.argBytes 1 = some key)
    (hvalue : ctx.argBytes 2 = some value)
    (hv : ((x.slice.cell (ctx.dbIndex, key)).live x.slice.nowMs).1 = some v) {opts : List SetOption}
    (hread : OptionsRead (ctx.args.drop 3) opts) (hnx : .nx ∉ opts)
    (hget : .get ∈ opts → v.isString = true) {d : UInt64}
    (hd : givenDeadline x.slice.nowMs opts = some d) :
    ∃ reply, isError reply = false ∧ Leaves ω (cmdSet ctx) x reply
      (update x.slice.cell (ctx.dbIndex, key) (some (.fromBytes value), some d)) := by
  obtain ⟨o, hok, ho⟩ := collects_of_read hread x.slice.nowMs
  obtain ⟨c', hc', hold⟩ := capturedString_leaves (ω := ω) o.get ctx.dbIndex key (c := _) rfl
  have hnx' : o.nx = false := by simpa [ho.nx] using hnx
  have hkind : (o.get && ((x.slice.cell (ctx.dbIndex, key)).live x.slice.nowMs).1.any
      fun v => !v.isString) = false := by
    rw [hv, Option.any_some, ho.get]
    by_cases h : .get ∈ opts <;> simp [h, hget]
  rw [cmdSet_ok hkey hvalue hok, hnx', Bool.false_and, if_neg Bool.false_ne_true]
  rw [hkind, if_neg Bool.false_ne_true] at hold
  refine ⟨if o.get then sendOptional (if o.get then
    stringAt x.slice.nowMs ((x.slice.cell (ctx.dbIndex, key)).live x.slice.nowMs) else none)
      else sendOk,
    by split <;> simp, hold.bind fun y hy hnow => ?_⟩
  have hc : (y.slice.cell (ctx.dbIndex, key)).live y.slice.nowMs =
      (x.slice.cell (ctx.dbIndex, key)).live x.slice.nowMs := by
    rw [hy, hnow, update_self, hc']
  have hrun := setValue_leaves (ω := ω) value o
    (if o.get then stringAt x.slice.nowMs ((x.slice.cell (ctx.dbIndex, key)).live x.slice.nowMs)
      else none) hc
  rw [hnow, ho.deadline, hd, hy, update_idem, hnx', hv] at hrun
  simp only [Bool.false_and, Option.isSome_some, Bool.not_true, Bool.and_false, Bool.or_self,
    Bool.false_eq_true, if_false, Option.some_or] at hrun
  exact hrun

end Handlers

/-! ## The requests -/

theorem expiryOption_unit_pos {opt : Bytes} {unit : UInt64} {absolute : Bool}
    (h : expiryOption opt = some (unit, absolute)) : 0 < unit.toNat := by
  unfold expiryOption at h
  split at h
  · cases h; decide
  · split at h
    · cases h; decide
    · split at h
      · cases h; decide
      · split at h
        · cases h; decide
        · cases h

theorem OptionsRead.unit_pos {words : List RespExpr} {opts : List SetOption}
    (h : OptionsRead words opts) {unit n : UInt64} {absolute : Bool}
    (hmem : .expiry unit absolute n ∈ opts) : 0 < unit.toNat := by
  induction h with
  | nil => cases hmem
  | nx _ _ ih | xx _ _ ih | get _ _ ih | keepTtl _ _ ih =>
    rcases List.mem_cons.mp hmem with heq | hmem
    · cases heq
    · exact ih hmem
  | expiry hw _ _ ih =>
    rcases List.mem_cons.mp hmem with heq | hmem
    · cases heq
      exact expiryOption_unit_pos hw
    · exact ih hmem

section Requests

variable [F64 F] [HashOrder] [CaseTable]

/-- The requests that time a key with the value `v`, with the number they give. -/
inductive Asks (args : List RespExpr) (v : PrimeValue F) : Timing → Prop
  | expire {name unit n} (hname : (name, unit) ∈ [(ascii "EXPIRE", 1000), (ascii "PEXPIRE", 1)])
      (h : Calls F args name) (hn : args[2]?.bind RespExpr.asInt = some n) :
      Asks args v ⟨unit, false, n⟩
  | expireAt {name unit n}
      (hname : (name, unit) ∈ [(ascii "EXPIREAT", 1000), (ascii "PEXPIREAT", 1)])
      (h : Calls F args name) (hn : args[2]?.bind RespExpr.asInt = some n) :
      Asks args v ⟨unit, true, n⟩
  | setEx {name unit n value} (hname : (name, unit) ∈ [(ascii "SETEX", 1000), (ascii "PSETEX", 1)])
      (h : Calls F args name) (hn : args[2]?.bind RespExpr.asInt = some n) (hpos : 0 < n)
      (hvalue : args[3]?.bind RespExpr.asBytes = some value) : Asks args v ⟨unit, false, n⟩
  | getEx {w unit absolute n} (h : Calls F args (ascii "GETEX")) (hstring : v.isString = true)
      (hw : args[2]? = some w) (hunit : expiryOption (optionWord w) = some (unit, absolute))
      (hn : args[3]?.bind RespExpr.asInt = some n) (hpos : 0 < n) : Asks args v ⟨unit, absolute, n⟩
  | set {value before after unit absolute n} (h : Calls F args (ascii "SET"))
      (hvalue : args[2]?.bind RespExpr.asBytes = some value)
      (hread : OptionsRead (args.drop 3) (before ++ .expiry unit absolute n.toUInt64 :: after))
      (hpos : 0 < n) (hlast : ∀ opt ∈ after, ∀ now, opt.deadline now = none)
      (hnx : .nx ∉ before ++ after) (hget : .get ∈ before ++ after → v.isString = true) :
      Asks args v ⟨unit, absolute, n⟩

variable {name : Bytes} {unit : UInt64}

omit [CaseTable] in
theorem relative_entry (h : (name, unit) ∈ [(ascii "EXPIRE", 1000), (ascii "PEXPIRE", 1)]) :
    find (F := F) name = some ⟨name, fun ctx => setExpireRelative ctx unit, 3, 1⟩ ∧
    0 < unit.toNat := by
  simp only [List.mem_cons, Prod.mk.injEq, List.not_mem_nil, or_false] at h
  rcases h with ⟨rfl, rfl⟩ | ⟨rfl, rfl⟩
  · exact ⟨find_of_getElem (n := 14) genericTable (by simp [tables]) rfl rfl, by decide⟩
  · exact ⟨find_of_getElem (n := 15) genericTable (by simp [tables]) rfl rfl, by decide⟩

omit [CaseTable] in
theorem absolute_entry (h : (name, unit) ∈ [(ascii "EXPIREAT", 1000), (ascii "PEXPIREAT", 1)]) :
    find (F := F) name = some ⟨name, fun ctx => setExpireAbsolute ctx unit, 3, 1⟩ ∧
    0 < unit.toNat := by
  simp only [List.mem_cons, Prod.mk.injEq, List.not_mem_nil, or_false] at h
  rcases h with ⟨rfl, rfl⟩ | ⟨rfl, rfl⟩
  · exact ⟨find_of_getElem (n := 16) genericTable (by simp [tables]) rfl rfl, by decide⟩
  · exact ⟨find_of_getElem (n := 17) genericTable (by simp [tables]) rfl rfl, by decide⟩

omit [CaseTable] in
theorem withExpiry_entry (h : (name, unit) ∈ [(ascii "SETEX", 1000), (ascii "PSETEX", 1)]) :
    find (F := F) name = some ⟨name, fun ctx => setWithExpiry ctx unit, 4, 1⟩ ∧ 0 < unit.toNat := by
  simp only [List.mem_cons, Prod.mk.injEq, List.not_mem_nil, or_false] at h
  rcases h with ⟨rfl, rfl⟩ | ⟨rfl, rfl⟩
  · exact ⟨find_of_getElem (n := 3) stringTable (by simp [tables]) rfl rfl, by decide⟩
  · exact ⟨find_of_getElem (n := 4) stringTable (by simp [tables]) rfl rfl, by decide⟩

omit [CaseTable] in
theorem find_getex : find (F := F) (ascii "GETEX") = some ⟨ascii "GETEX", cmdGetex, -2, 1⟩ :=
  find_of_getElem (n := 10) stringTable (by simp [tables]) rfl rfl

/-- Every such request is answered without an error and times the key. -/
theorem Asks.leaves {s : EngineShard F} {ω : Listing Bytes} {conn : ConnContext} {key : Bytes}
    {v : PrimeValue F} (hv : s.held conn key = some v) {args : List RespExpr}
    (hkey : args[1]?.bind RespExpr.asBytes = some key) {t : Timing} (h : Asks args v t) :
    ∃ (entry : CommandEntry F) (reply : Bytes) (c : Cell F), resolve args = .run entry ∧
      isError reply = false ∧ 0 < t.unit.toNat ∧ Timed s.dbSlice.nowMs t c ∧
      Leaves ω (entry.handler ⟨args, conn.dbIndex⟩) ⟨s.dbSlice, conn⟩ reply
        (update s.dbSlice.cell (conn.dbIndex, key) c) := by
  have hkey' : (⟨args, conn.dbIndex⟩ : CommandContext).argBytes 1 = some key := hkey
  have hnum : ∀ {n : Int64}, 0 < n → 0 < n.toInt := Int64.lt_iff_toInt_lt.mp
  cases h with
  | expire hname hcalls hn =>
    obtain ⟨c, hleaves, htimed⟩ :=
      setExpireRelative_leaves (ω := ω) (x := ⟨s.dbSlice, conn⟩) hkey' hv hn _
    obtain ⟨hfind, hunit⟩ := relative_entry (F := F) hname
    exact ⟨_, _, c, hcalls.resolve hfind, rfl, hunit, htimed, hleaves⟩
  | expireAt hname hcalls hn =>
    obtain ⟨c, hleaves, htimed⟩ :=
      setExpireAbsolute_leaves (ω := ω) (x := ⟨s.dbSlice, conn⟩) hkey' hv hn _
    obtain ⟨hfind, hunit⟩ := absolute_entry (F := F) hname
    exact ⟨_, _, c, hcalls.resolve hfind, rfl, hunit, htimed, hleaves⟩
  | @setEx name unit n value hname hcalls hn hpos hvalue =>
    have hleaves := setWithExpiry_leaves (ω := ω) (x := ⟨s.dbSlice, conn⟩) hkey' hn hpos hvalue unit
    obtain ⟨hfind, hunit⟩ := withExpiry_entry (F := F) hname
    exact ⟨_, _, _, hcalls.resolve hfind, rfl, hunit, .stored _ fun _ => hnum hpos, hleaves⟩
  | getEx hcalls hstring hw hunit hn hpos =>
    have hleaves :=
      cmdGetex_leaves (ω := ω) (x := ⟨s.dbSlice, conn⟩) hkey' hv hstring hw hunit hn hpos
    exact ⟨_, _, _, hcalls.resolve find_getex, rfl, expiryOption_unit_pos hunit,
      .stored _ fun _ => hnum hpos, hleaves⟩
  | @set value before after unit absolute n hcalls hvalue hread hpos hlast hnx hget =>
    have hgiven := givenDeadline_last s.dbSlice.nowMs unit absolute n before
      fun opt hopt => hlast opt hopt s.dbSlice.nowMs
    obtain ⟨reply, hreply, hleaves⟩ :=
      cmdSet_leaves (ω := ω) (x := ⟨s.dbSlice, conn⟩) hkey' hvalue hv hread
      (by simpa using hnx) (by simpa using hget) hgiven
    exact ⟨_, reply, _, hcalls.resolve find_set, hreply,
      hread.unit_pos (List.mem_append_right _ List.mem_cons_self), .stored _ fun _ => hnum hpos,
      hleaves⟩

/-- On every shard with a clock below 2 ^ 63, the deadline a successful request asks for governs its
key exactly when it fits. -/
theorem deadline_governs_iff (s : EngineShard F) (hnow : s.dbSlice.nowMs.toNat < 2 ^ 63)
    (ω : Listing Bytes) (conn : ConnContext) (key : Bytes) (v : PrimeValue F)
    (hv : s.held conn key = some v) (args : List RespExpr)
    (hkey : args[1]?.bind RespExpr.asBytes = some key) (t : Timing) (h : Asks args v t) :
    (∃ reply, (dispatch ω args conn s).reply = some reply ∧ isError reply = false) ∧
      (Governs ω conn (dispatch ω args conn s).shard key (t.deadline s.dbSlice.nowMs) ↔
        t.Fits s.dbSlice.nowMs) := by
  obtain ⟨entry, reply, c, hres, herror, hunit, htimed, hleaves⟩ := h.leaves (ω := ω) hv hkey
  obtain ⟨hreply, hcells⟩ := dispatch_leaves hres hleaves
  have hclock := dispatch_nowMs hres hleaves
  refine ⟨⟨reply, hreply, herror⟩, ?_⟩
  rw [← hclock] at hnow htimed ⊢
  refine governs_iff hnow hunit ?_
  rw [hcells, update_self]
  exact htimed

end Requests

section Fixed

attribute [local instance] F64.whole CaseTable.identity HashOrder.arbitrary

/-- The shard after `SET k v` at 2000 ms. -/
noncomputable def oneValue : EngineShard Int :=
  (dispatch (.arbitrary Bytes) (command ["set", "k", "v"]) ⟨0⟩
    (EngineShard.new.updateTime 2000)).shard

theorem held_oneValue : oneValue.held ⟨0⟩ (ascii "k") = some (.string (ascii "v")) := rfl

theorem asks_expire {digits : String} {n : Int64}
    (hn : RespExpr.asInt (.string (ascii digits)) = some n) :
    Asks (F := Int) (command ["EXPIRE", "k", digits]) (.string (ascii "v")) ⟨1000, false, n⟩ := by
  have hname : (ascii "EXPIRE", (1000 : UInt64)) ∈ [(ascii "EXPIRE", 1000), (ascii "PEXPIRE", 1)] :=
    List.mem_cons_self
  obtain ⟨hfind, -⟩ := relative_entry (F := Int) hname
  have hcommand : commandName (command ["EXPIRE", "k", digits]) = .ok (ascii "EXPIRE") :=
    commandName_of_find hfind _
  exact .expire hname (.of_find hcommand hfind rfl) hn

/-- The longest time a client can ask for makes the key lapse at once. -/
theorem deadline_wraps :
    Asks (F := Int) (command ["EXPIRE", "k", "9223372036854775807"]) (.string (ascii "v"))
      ⟨1000, false, 9223372036854775807⟩ ∧
    (dispatch (.arbitrary Bytes) (command ["EXPIRE", "k", "9223372036854775807"])
      ⟨0⟩ oneValue).reply = some (sendInteger 1) ∧
    ¬ Governs (.arbitrary Bytes) ⟨0⟩ (dispatch (.arbitrary Bytes)
      (command ["EXPIRE", "k", "9223372036854775807"]) ⟨0⟩ oneValue).shard (ascii "k")
      (Timing.deadline ⟨1000, false, 9223372036854775807⟩ 2000) := by
  have hn : RespExpr.asInt (.string (ascii "9223372036854775807")) = some 9223372036854775807 := by
    decide +kernel
  refine ⟨asks_expire hn, by decide +kernel, ?_⟩
  have hcell : ((dispatch (.arbitrary Bytes) (command ["EXPIRE", "k", "9223372036854775807"]) ⟨0⟩
      oneValue).shard.dbSlice.cell (0, ascii "k")).2 = some 1000 := by decide +kernel
  have hnow : (dispatch (.arbitrary Bytes) (command ["EXPIRE", "k", "9223372036854775807"]) ⟨0⟩
      oneValue).shard.dbSlice.nowMs = 2000 := by decide +kernel
  have hfuture : ¬ Timing.deadline ⟨1000, false, 9223372036854775807⟩ 2000 ≤
      ((2000 : UInt64).toNat : Int) := by
    decide
  rw [Governs, hnow, if_neg hfuture, hcell]
  rintro ⟨⟨w, hw, hd⟩, -⟩
  cases hw
  revert hd
  decide

/-- Nine seconds from 2000 ms on. -/
theorem deadline_governs_nine :
    Governs (.arbitrary Bytes) ⟨0⟩ (dispatch (.arbitrary Bytes) (command ["EXPIRE", "k", "9"]) ⟨0⟩
      oneValue).shard (ascii "k") 11000 := by
  have hn : RespExpr.asInt (.string (ascii "9")) = some 9 := by decide
  have hnow : oneValue.dbSlice.nowMs = 2000 := by decide
  have hd : Timing.deadline ⟨1000, false, 9⟩ 2000 = 11000 := by decide
  have hfits : Timing.Fits ⟨1000, false, 9⟩ 2000 :=
    ⟨by decide, fun h => absurd h Bool.false_ne_true⟩
  have hiff :=
    (deadline_governs_iff oneValue (by rw [hnow]; decide) (.arbitrary Bytes) ⟨0⟩ (ascii "k") _
    held_oneValue (command ["EXPIRE", "k", "9"]) rfl _ (asks_expire hn)).2
  rw [hnow, hd] at hiff
  rw [hiff]
  exact hfits

end Fixed

end ShrikeDb
