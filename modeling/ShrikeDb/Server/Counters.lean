import ShrikeDb.Lib.Words
import ShrikeDb.Server.Dispatch
import ShrikeDb.Server.Requests

/-! Counters. A string counter goes through one checked addition, behind a negation for the
decrements; a field of a hash is added to without a check. -/

namespace ShrikeDb

open Program Command ReplyBuilder CommandRegistry StringFamily HashFamily Function

variable {F : Type}

/-- The numbers that an `i64` holds. -/
def InI64 (z : Int) : Prop := -2 ^ 63 ≤ z ∧ z < 2 ^ 63

theorem checkedAdd_of_inI64 {a b : Int64} (h : InI64 (a.toInt + b.toInt)) :
    ∃ c, checkedAdd a b = some c ∧ c.toInt = a.toInt + b.toInt :=
  ⟨_, if_pos h, Int64.toInt_ofInt_of_le h.1 h.2⟩

theorem checkedAdd_of_not_inI64 {a b : Int64} (h : ¬ InI64 (a.toInt + b.toInt)) :
    checkedAdd a b = none := if_neg h

/-- A number is not an error. -/
theorem not_isError_of_integer {r : Option Bytes} {n : Int64} {reply : Bytes}
    (hnumber : r = some (sendInteger n)) (hreply : r = some reply) : isError reply ≠ true := by
  rw [hnumber, Option.some.injEq] at hreply
  rw [← hreply, isError_sendInteger]
  exact Bool.false_ne_true

/-! ## String counters -/

inductive CounterOp
  | incr
  | decr
  | incrBy (n : Int64)
  | decrBy (n : Int64)

namespace CounterOp

/-- What the client asks to add. -/
def delta : CounterOp → Int
  | incr => 1
  | decr => -1
  | incrBy n => n.toInt
  | decrBy n => -n.toInt

/-- What the handler adds. -/
def word : CounterOp → Int64
  | incr => 1
  | decr => -1
  | incrBy n => n
  | decrBy n => -n

/-- Only the negation of the least number goes wrong. -/
theorem toInt_word {op : CounterOp} (h : op ≠ .decrBy Int64.minValue) :
    op.word.toInt = op.delta := by
  cases op with
  | incr => rfl
  | decr => rfl
  | incrBy n => rfl
  | decrBy n =>
    have hn : n.toInt ≠ -2 ^ 63 := by
      intro heq
      have hmin : n = Int64.minValue := Int64.toInt_inj.mp heq
      exact h (congrArg decrBy hmin)
    exact Words.toInt_neg hn

end CounterOp

/-- The number a counter stands at; a key that is not there counts from 0. -/
def counterOf : Option (PrimeValue F) → Option Int64
  | none => some 0
  | some v => v.asInteger

/-- The reply to an addition, and the cell it leaves. -/
def bumped (old delta : Int64) (c : Cell F) : Bytes × Cell F :=
  match checkedAdd old delta with
  | none => (sendErr (ascii "increment or decrement would overflow"), c)
  | some new => (sendInteger new, (some (.integer new), c.2))

/-- `incr_by` once the number is read. -/
def addTo (i : DbIndex) (key : Bytes) (delta : Int64) : Option Int64 → Command F Bytes
  | none => pure notAnInteger
  | some current =>
    match checkedAdd current delta with
    | none => pure (sendErr (ascii "increment or decrement would overflow"))
    | some new => do
      invoke (.addOrUpdate i key (.integer new))
      pure (sendInteger new)

theorem addTo_leaves (i : DbIndex) (key : Bytes) (old delta : Int64) (ω : Listing Bytes)
    (x : Exec F) :
    Leaves ω (addTo i key delta (some old)) x (bumped old delta (x.slice.cell (i, key))).1
      (update x.slice.cell (i, key) (bumped old delta (x.slice.cell (i, key))).2) := by
  rw [addTo, bumped]
  cases checkedAdd old delta with
  | none =>
    rw [update_eq_self]
    exact Leaves.pure ω x _
  | some new => exact Leaves.invoke_pure (o := .addOrUpdate i key (.integer new)) rfl ω x _

theorem incrBy_leaves {ctx : CommandContext} {key : Bytes} {x : Exec F} {c : Cell F} {old : Int64}
    (delta : Int64) (ω : Listing Bytes) (hkey : ctx.argBytes 1 = some key)
    (hc : (x.slice.cell (ctx.dbIndex, key)).live x.slice.nowMs = c)
    (hold : counterOf c.1 = some old) :
    Leaves ω (incrBy ctx delta) x (bumped old delta c).1
      (update x.slice.cell (ctx.dbIndex, key) (bumped old delta c).2) := by
  refine .arg_bind hkey ((find_leaves ctx.dbIndex key).bind fun y hy _ => ?_)
  rw [Exec.lookedUp, hc] at hy
  have hadd := addTo_leaves ctx.dbIndex key old delta ω y
  rw [hy, update_self, update_idem, ← hold] at hadd
  rw [hc, DbOp.found]
  cases hv : c.1 with
  | none =>
    rw [hv] at hadd
    exact hadd
  | some v =>
    rw [hv] at hadd
    exact hadd

theorem bumped_live (old delta : Int64) (now : UInt64) (c : Cell F) :
    (bumped old delta (c.live now)).2.live now = (bumped old delta (c.live now)).2 := by
  rw [bumped]
  cases checkedAdd old delta with
  | none => exact Cell.live_live now c
  | some new => exact Cell.live_overwrite now c _

section Calls

variable [F64 F] [HashOrder] [CaseTable]

/-- The request is one of the four, with these arguments. -/
inductive CounterRequest (F : Type) [F64 F] [HashOrder] [CaseTable] (args : List RespExpr) :
    CounterOp → Prop
  | incr (h : Calls F args (ascii "INCR")) : CounterRequest F args .incr
  | decr (h : Calls F args (ascii "DECR")) : CounterRequest F args .decr
  | incrBy {n} (h : Calls F args (ascii "INCRBY")) (hn : args[2]?.bind RespExpr.asInt = some n) :
      CounterRequest F args (.incrBy n)
  | decrBy {n} (h : Calls F args (ascii "DECRBY")) (hn : args[2]?.bind RespExpr.asInt = some n) :
      CounterRequest F args (.decrBy n)

/-- A call of a counter command on a key, with the time at which the shard runs it. -/
structure CounterCall (F : Type) [F64 F] [HashOrder] [CaseTable] (key : Bytes) where
  now : UInt64
  args : List RespExpr
  op : CounterOp
  names : args[1]?.bind RespExpr.asBytes = some key
  request : CounterRequest F args op

theorem CounterRequest.resolve {args : List RespExpr} {op : CounterOp}
    (h : CounterRequest F args op) :
    ∃ e : CommandEntry F, resolve args = .run e ∧
      ∀ i, e.handler ⟨args, i⟩ = StringFamily.incrBy ⟨args, i⟩ op.word := by
  cases h with
  | incr h =>
    have hfind := find_of_getElem (F := F) (n := 11) stringTable (by simp [tables]) rfl rfl
    exact ⟨_, h.resolve hfind, fun _ => rfl⟩
  | decr h =>
    have hfind := find_of_getElem (F := F) (n := 12) stringTable (by simp [tables]) rfl rfl
    exact ⟨_, h.resolve hfind, fun _ => rfl⟩
  | @incrBy n h hn =>
    have hfind := find_of_getElem (F := F) (n := 13) stringTable (by simp [tables]) rfl rfl
    refine ⟨_, h.resolve hfind, fun i => ?_⟩
    have hint : (⟨args, i⟩ : CommandContext).argInt 2 = some n := hn
    dsimp only
    rw [cmdIncrby, hint]
    rfl
  | @decrBy n h hn =>
    have hfind := find_of_getElem (F := F) (n := 14) stringTable (by simp [tables]) rfl rfl
    refine ⟨_, h.resolve hfind, fun i => ?_⟩
    have hint : (⟨args, i⟩ : CommandContext).argInt 2 = some n := hn
    dsimp only
    rw [cmdDecrby, hint]
    rfl

namespace CounterCall

variable {key : Bytes} (c : CounterCall F key) (ω : Listing Bytes) (conn : ConnContext)
  (s : EngineShard F)

def result : Dispatched F := dispatch ω c.args conn (s.updateTime c.now)

/-- What the client finds under the key when the call runs. -/
def found : Option (PrimeValue F) := (s.updateTime c.now).held conn key

/-- The call adds `delta` if the sum fits, and otherwise replies an error and changes nothing. -/
def Adds (delta : Int) : Prop :=
  ∀ old, counterOf (c.found conn s) = some old →
    (InI64 (old.toInt + delta) → ∃ n : Int64, n.toInt = old.toInt + delta ∧
      (c.result ω conn s).reply = some (sendInteger n) ∧
      (c.result ω conn s).shard.held conn key = some (.integer n)) ∧
    (¬ InI64 (old.toInt + delta) →
      (∃ reply, (c.result ω conn s).reply = some reply ∧ isError reply = true) ∧
      (c.result ω conn s).shard.held conn key = c.found conn s)

/-- What the client asked for is what happens. -/
def Exact : Prop := c.Adds ω conn s c.op.delta

variable {c ω conn s} {old : Int64}

theorem result_bumped (hold : counterOf (c.found conn s) = some old) :
    (c.result ω conn s).reply =
    some (bumped old c.op.word ((s.updateTime c.now).found conn key)).1 ∧
      (c.result ω conn s).shard.held conn key =
        (bumped old c.op.word ((s.updateTime c.now).found conn key)).2.1 ∧
      (c.result ω conn s).shard.dbSlice.nowMs = c.now := by
  obtain ⟨e, hres, hhandler⟩ := c.request.resolve
  have hkey : (⟨c.args, conn.dbIndex⟩ : CommandContext).argBytes 1 = some key := c.names
  have hleaves :=
    incrBy_leaves (x := ⟨(s.updateTime c.now).dbSlice, conn⟩) c.op.word ω hkey rfl hold
  rw [← hhandler] at hleaves
  obtain ⟨hreply, hheld⟩ := dispatch_held hres hleaves
  have hlive :=
    bumped_live old c.op.word c.now ((s.updateTime c.now).dbSlice.cell (conn.dbIndex, key))
  exact ⟨hreply, hheld.trans (congrArg Prod.fst hlive), dispatch_nowMs hres hleaves⟩

/-- The handler adds the word. -/
theorem adds_word : c.Adds ω conn s c.op.word.toInt := by
  intro old hold
  obtain ⟨hreply, hheld, -⟩ := result_bumped (ω := ω) hold
  constructor
  · intro hin
    obtain ⟨n, hadd, hn⟩ := checkedAdd_of_inI64 hin
    rw [bumped, hadd] at hreply hheld
    exact ⟨n, hn, hreply, hheld⟩
  · intro hout
    rw [bumped, checkedAdd_of_not_inI64 hout] at hreply hheld
    exact ⟨⟨_, hreply, rfl⟩, hheld⟩

theorem exact_of_ne (h : c.op ≠ .decrBy Int64.minValue) : c.Exact ω conn s := by
  rw [Exact, ← CounterOp.toInt_word h]
  exact adds_word

/-- The negation of the least number is itself, so the sum goes to the wrong side. -/
theorem not_exact_of_eq (hold : counterOf (c.found conn s) = some old)
    (h : c.op = .decrBy Int64.minValue) : ¬ c.Exact ω conn s := by
  intro hexact
  have hword : c.op.word.toInt = -2 ^ 63 := by
    rw [h]
    rfl
  have hdelta : c.op.delta = 2 ^ 63 := by
    rw [h]
    rfl
  obtain ⟨hin, hout⟩ := adds_word (ω := ω) old hold
  obtain ⟨hin', hout'⟩ := hexact old hold
  rw [hword] at hin hout
  rw [hdelta] at hin' hout'
  have hlt := old.toInt_lt
  have hle := old.le_toInt
  by_cases hneg : old.toInt < 0
  · obtain ⟨n, -, hnumber, -⟩ := hin' ⟨by omega, by omega⟩
    obtain ⟨⟨reply, hreply, herror⟩, -⟩ := hout fun hfits => by
      have hfits := hfits.1
      omega
    exact not_isError_of_integer hnumber hreply herror
  · obtain ⟨n, -, hnumber, -⟩ := hin ⟨by omega, by omega⟩
    obtain ⟨⟨reply, hreply, herror⟩, -⟩ := hout' fun hfits => by
      have hfits := hfits.2
      omega
    exact not_isError_of_integer hnumber hreply herror

theorem exact_iff (hold : counterOf (c.found conn s) = some old) :
    c.Exact ω conn s ↔ c.op ≠ .decrBy Int64.minValue :=
  ⟨fun hexact h => not_exact_of_eq hold h hexact, exact_of_ne⟩

/-- A counter stays one. -/
theorem counterOf_result (hold : counterOf (c.found conn s) = some old) :
    ∃ new, counterOf ((c.result ω conn s).shard.held conn key) = some new := by
  obtain ⟨hin, hout⟩ := adds_word (ω := ω) old hold
  by_cases h : InI64 (old.toInt + c.op.word.toInt)
  · obtain ⟨n, -, -, hheld⟩ := hin h
    exact ⟨n, by rw [hheld]; rfl⟩
  · obtain ⟨-, hheld⟩ := hout h
    exact ⟨old, by rw [hheld]; exact hold⟩

variable (c ω conn s)

/-- What a call adds as far as its reply tells. -/
def gain :
    Int := if (c.result ω conn s).reply.any (fun reply => !isError reply) then c.op.delta else 0

variable {c ω conn s}

theorem counterOf_gain (hold : counterOf (c.found conn s) = some old) (hexact : c.Exact ω conn s) :
    ∃ new, counterOf ((c.result ω conn s).shard.held conn key) = some new ∧
      new.toInt = old.toInt + c.gain ω conn s := by
  obtain ⟨hin, hout⟩ := hexact old hold
  by_cases h : InI64 (old.toInt + c.op.delta)
  · obtain ⟨n, hn, hreply, hheld⟩ := hin h
    refine ⟨n, by rw [hheld]; rfl, ?_⟩
    rw [hn, gain, hreply, Option.any_some, isError_sendInteger]
    rfl
  · obtain ⟨⟨reply, hreply, herror⟩, hheld⟩ := hout h
    refine ⟨old, by rw [hheld]; exact hold, ?_⟩
    rw [gain, hreply, Option.any_some, herror]
    exact (Int.add_zero _).symm

end CounterCall

/-! ### Runs -/

section Runs

variable (ω : Listing Bytes) (conn : ConnContext) {key : Bytes}

/-- The shard after the calls. -/
def counted (calls : List (CounterCall F key)) (s : EngineShard F) : EngineShard F :=
  calls.foldl (fun s c => (c.result ω conn s).shard) s

/-- Every call does what the client asked for. -/
def RunExact : List (CounterCall F key) → EngineShard F → Prop
  | [], _ => True
  | c :: calls, s => c.Exact ω conn s ∧ RunExact calls (c.result ω conn s).shard

/-- The sum of what the calls add as far as their replies tell. -/
def gained : List (CounterCall F key) → EngineShard F → Int
  | [], _ => 0
  | c :: calls, s => c.gain ω conn s + gained calls (c.result ω conn s).shard

/-- The key does not lapse between the calls. -/
def Steady : List (CounterCall F key) → EngineShard F → Prop
  | [], _ => True
  | c :: calls, s => c.found conn s = s.held conn key ∧ Steady calls (c.result ω conn s).shard

variable {ω conn} {calls : List (CounterCall F key)} {s : EngineShard F} {initial : Int64}

/-- As time passes a counter stays or lapses. -/
theorem counterOf_found {c : CounterCall F key} (h : counterOf (s.held conn key) = some initial)
    (hle : s.dbSlice.nowMs ≤ c.now) : ∃ old, counterOf (c.found conn s) = some old := by
  have hfound : c.found conn s = ((s.found conn key).live c.now).1 :=
    congrArg Prod.fst (Cell.live_live_le hle _).symm
  rcases Cell.live_cases c.now (s.found conn key) with ⟨-, hlive⟩ | ⟨-, hlive⟩
  · exact ⟨0, by rw [hfound, hlive]; rfl⟩
  · exact ⟨initial, by rw [hfound, hlive]; exact h⟩

theorem runExact_iff (h : counterOf (s.held conn key) = some initial)
    (hclock : (s.dbSlice.nowMs :: calls.map CounterCall.now).Pairwise (· ≤ ·)) :
    RunExact ω conn calls s ↔ ∀ c ∈ calls, c.op ≠ .decrBy Int64.minValue := by
  induction calls generalizing s initial with
  | nil => simp [RunExact]
  | cons c calls ih =>
    rw [List.map_cons, List.pairwise_cons] at hclock
    obtain ⟨old, hold⟩ := counterOf_found (c := c) h (hclock.1 c.now List.mem_cons_self)
    obtain ⟨new, hnew⟩ := CounterCall.counterOf_result (ω := ω) hold
    have hrest := hclock.2
    rw [← (CounterCall.result_bumped (ω := ω) hold).2.2] at hrest
    rw [RunExact, CounterCall.exact_iff hold, ih hnew hrest, List.forall_mem_cons]

theorem counterOf_counted (h : counterOf (s.held conn key) = some initial)
    (hexact : RunExact ω conn calls s) (hsteady : Steady ω conn calls s) :
    ∃ final, counterOf ((counted ω conn calls s).held conn key) = some final ∧
      final.toInt = initial.toInt + gained ω conn calls s := by
  induction calls generalizing s initial with
  | nil => exact ⟨initial, h, (Int.add_zero _).symm⟩
  | cons c calls ih =>
    obtain ⟨hfound, hsteady⟩ := hsteady
    rw [← hfound] at h
    obtain ⟨new, hnew, hsum⟩ := CounterCall.counterOf_gain h hexact.1
    obtain ⟨final, hfinal, htotal⟩ := ih hnew hexact.2 hsteady
    refine ⟨final, hfinal, ?_⟩
    rw [htotal, hsum, gained, Int.add_assoc]

/-- In every run of the four commands on a counter, each call does what the client asked for, and
the counter stands at its initial value plus what was added, exactly when `DECRBY` is never given
the least number. -/
theorem counters_exact_iff (ω : Listing Bytes) (conn : ConnContext) (key : Bytes)
    (s : EngineShard F) (initial : Int64) (h : counterOf (s.held conn key) = some initial)
    (calls : List (CounterCall F key))
    (hclock : (s.dbSlice.nowMs :: calls.map CounterCall.now).Pairwise (· ≤ ·)) :
    (RunExact ω conn calls s ∧ (Steady ω conn calls s →
      ∃ final, counterOf ((counted ω conn calls s).held conn key) = some final ∧
        final.toInt = initial.toInt + gained ω conn calls s)) ↔
      ∀ c ∈ calls, c.op ≠ .decrBy Int64.minValue := by
  rw [← runExact_iff (ω := ω) h hclock]
  exact ⟨And.left, fun hexact => ⟨hexact, counterOf_counted h hexact⟩⟩

end Runs

end Calls

section Fixed

attribute [local instance] F64.whole CaseTable.identity HashOrder.arbitrary

theorem request_decrByLeast :
    CounterRequest Int (command ["DECRBY", "k", "-9223372036854775808"])
      (.decrBy Int64.minValue) := by
  have hfind := find_of_getElem (F := Int) (n := 14) stringTable (by simp [tables]) rfl rfl
  exact .decrBy (.of_find (commandName_of_find hfind _) hfind rfl) (by decide +kernel)

noncomputable def decrByLeast : CounterCall Int (ascii "k") where
  now := 0
  args := command ["DECRBY", "k", "-9223372036854775808"]
  op := .decrBy Int64.minValue
  names := rfl
  request := request_decrByLeast

/-- The least number is added and not taken away. -/
theorem decrBy_wraps : (decrByLeast.result (.arbitrary Bytes) ⟨0⟩ EngineShard.new).reply =
      some (sendInteger (-9223372036854775808)) ∧
    ¬ decrByLeast.Exact (.arbitrary Bytes) ⟨0⟩ EngineShard.new := by
  have hold : counterOf (decrByLeast.found ⟨0⟩ EngineShard.new) = some 0 := rfl
  exact ⟨by decide +kernel, CounterCall.not_exact_of_eq hold rfl⟩

theorem request_incrOnce : CounterRequest Int (command ["INCR", "k"]) .incr := by
  have hfind := find_of_getElem (F := Int) (n := 11) stringTable (by simp [tables]) rfl rfl
  exact .incr (.of_find (commandName_of_find hfind _) hfind rfl)

noncomputable def incrOnce (now : UInt64) : CounterCall Int (ascii "k") where
  now := now
  args := command ["INCR", "k"]
  op := .incr
  names := rfl
  request := request_incrOnce

theorem counters_exact_twice :
    RunExact (.arbitrary Bytes) ⟨0⟩ [incrOnce 1, incrOnce 2] EngineShard.new := by
  have hiff :=
    counters_exact_iff (.arbitrary Bytes) ⟨0⟩ (ascii "k") (EngineShard.new : EngineShard Int) 0 rfl
    [incrOnce 1, incrOnce 2] (by decide)
  refine (hiff.mpr ?_).1
  intro c hc
  simp only [List.mem_cons, List.not_mem_nil, or_false] at hc
  rcases hc with rfl | rfl <;> rintro ⟨⟩

end Fixed

/-! ## Fields of a hash -/

/-- The fields under a key; a key that is not there has none. -/
def fieldsUnder : Option (PrimeValue F) → Option Fields
  | none => some ∅
  | some v => hashOf v

/-- The number a field stands at; a field that is not there counts from 0. -/
def fieldCounter (fields : Fields) (field : Bytes) : Option Int64 :=
  match fields.lookup field with
  | none => some 0
  | some v => (fromUtf8 v).bind parseI64

/-- The handler takes a field that is not a number for 0, and the sum wraps. -/
def fieldSum (fields : Fields) (field : Bytes) (delta : Int64) : Int64 :=
  (fieldCounter fields field).getD 0 + delta

theorem cmdHincrby_leaves {ctx : CommandContext} {key field : Bytes} {delta : Int64} {x : Exec F}
    {c : Cell F} {fields : Fields} (ω : Listing Bytes) (hkey : ctx.argBytes 1 = some key)
    (hfield : ctx.argBytes 2 = some field) (hdelta : (ctx.argStr 3).bind parseI64 = some delta)
    (hc : (x.slice.cell (ctx.dbIndex, key)).live x.slice.nowMs = c)
    (hfields : fieldsUnder c.1 = some fields) :
    Leaves ω (cmdHincrby ctx) x (sendInteger (fieldSum fields field delta))
      (update x.slice.cell (ctx.dbIndex, key)
        (some (.hash (fields.insert field (i64ToString (fieldSum fields field delta)))), c.2)) := by
  refine .arg_bind hkey (.arg_bind hfield ?_)
  rw [hdelta]
  subst hc
  dsimp only
  cases hv : ((x.slice.cell (ctx.dbIndex, key)).live x.slice.nowMs).1 with
  | none =>
    rw [hv, fieldsUnder, Option.some.injEq] at hfields
    have hsum : fieldSum fields field delta = delta := by
      rw [← hfields, fieldSum, fieldCounter, Finmap.lookup_empty]
      exact Int64.zero_add delta
    rw [hsum, ← hfields]
    exact edit_leaves_create hv _ _ ω
  | some v =>
    rw [hv, fieldsUnder] at hfields
    have hsum : (((fields.lookup field).bind fromUtf8).bind parseI64).getD 0 + delta =
        fieldSum fields field delta := by
      rw [fieldSum, fieldCounter]
      cases fields.lookup field <;> rfl
    rw [← hsum]
    exact edit_leaves_some hv hfields ω

section Hincrby

variable [F64 F] [HashOrder] [CaseTable]

/-- `HINCRBY` stores and replies the sum if there is one, and otherwise replies an error and changes
nothing. -/
def HincrbyExact (ω : Listing Bytes) (conn : ConnContext) (s : EngineShard F) (args : List RespExpr)
    (key : Bytes) (fields : Fields) (field : Bytes) (delta : Int64) : Prop :=
  (∀ current, fieldCounter fields field = some current → InI64 (current.toInt + delta.toInt) →
    ∃ n : Int64, n.toInt = current.toInt + delta.toInt ∧
      (dispatch ω args conn s).reply = some (sendInteger n) ∧
      (dispatch ω args conn s).shard.held conn key =
        some (.hash (fields.insert field (i64ToString n)))) ∧
  ((¬ ∃ current, fieldCounter fields field = some current ∧ InI64 (current.toInt + delta.toInt)) →
    (∃ reply, (dispatch ω args conn s).reply = some reply ∧ isError reply = true) ∧
      (dispatch ω args conn s).shard.held conn key = s.held conn key)

/-- On every hash, `HINCRBY` leaves the other fields as they are, and treats its own field right
exactly when that is not there or a number, and the sum fits. -/
theorem hincrby_exact_iff (ω : Listing Bytes) (conn : ConnContext) (s : EngineShard F)
    (args : List RespExpr) (hcalls : Calls F args (ascii "HINCRBY")) (key field : Bytes)
    (delta : Int64) (hkey : args[1]?.bind RespExpr.asBytes = some key)
    (hfield : args[2]?.bind RespExpr.asBytes = some field)
    (hdelta : (args[3]?.bind RespExpr.asStr).bind parseI64 = some delta) (fields : Fields)
    (hfields : fieldsUnder (s.held conn key) = some fields) :
    (∃ fields', (dispatch ω args conn s).shard.held conn key = some (.hash fields') ∧
      ∀ f, f ≠ field → fields'.lookup f = fields.lookup f) ∧
    (HincrbyExact ω conn s args key fields field delta ↔
      ∃ current, fieldCounter fields field = some current ∧
      InI64 (current.toInt + delta.toInt)) := by
  have hfind := find_of_getElem (F := F) (n := 10) hashTable (by simp [tables]) rfl rfl
  have hres := hcalls.resolve hfind
  have hkey' : (⟨args, conn.dbIndex⟩ : CommandContext).argBytes 1 = some key := hkey
  have hleaves := cmdHincrby_leaves (x := ⟨s.dbSlice, conn⟩) ω hkey' hfield hdelta rfl hfields
  obtain ⟨hreply, hheld⟩ := dispatch_held hres hleaves
  rw [Cell.live_overwrite] at hheld
  refine ⟨⟨_, hheld, fun f hf => Finmap.lookup_insert_of_ne _ hf⟩, ?_⟩
  constructor
  · rintro ⟨-, herror⟩
    by_contra hnot
    obtain ⟨⟨reply, hreply', hisError⟩, -⟩ := herror hnot
    exact not_isError_of_integer hreply hreply' hisError
  · intro hsum
    refine ⟨fun current hcurrent hin => ?_, fun hnot => absurd hsum hnot⟩
    have hnew : fieldSum fields field delta = current + delta := by
      rw [fieldSum, hcurrent]
      rfl
    rw [hnew] at hreply hheld
    exact ⟨current + delta, Words.toInt_add hin.1 hin.2, hreply, hheld⟩

end Hincrby

section Fixed

attribute [local instance] F64.whole CaseTable.identity HashOrder.arbitrary

/-- The shard after `HSET h f v`. -/
noncomputable def oneField : EngineShard Int :=
  (dispatch (.arbitrary Bytes) (command ["HSET", "h", "f", "v"]) ⟨0⟩ EngineShard.new).shard

/-- A field that is not a number is overwritten. -/
theorem hincrby_overwrites :
    (oneField.held ⟨0⟩ (ascii "h")).bind hashOf = some (Finmap.insert (ascii "f") (ascii "v") ∅) ∧
    (dispatch (.arbitrary Bytes) (command ["HINCRBY", "h", "f", "5"]) ⟨0⟩ oneField).reply =
      some (sendInteger 5) ∧
    ¬ HincrbyExact (.arbitrary Bytes) ⟨0⟩ oneField (command ["HINCRBY", "h", "f", "5"]) (ascii "h")
      (Finmap.insert (ascii "f") (ascii "v") ∅) (ascii "f") 5 := by
  have hreply :
      (dispatch (.arbitrary Bytes) (command ["HINCRBY", "h", "f", "5"]) ⟨0⟩ oneField).reply =
      some (sendInteger 5) := by decide +kernel
  have hnone : fieldCounter (Finmap.insert (ascii "f") (ascii "v") ∅) (ascii "f") = none := by
    rw [fieldCounter, Finmap.lookup_insert]
    decide
  refine ⟨by decide, hreply, ?_⟩
  rintro ⟨-, herror⟩
  obtain ⟨⟨reply, hreply', hisError⟩, -⟩ := herror (by simp [hnone])
  exact not_isError_of_integer hreply hreply' hisError

/-- The shard after `HSET h f 7 g x`. -/
noncomputable def twoFields : EngineShard Int :=
  (dispatch (.arbitrary Bytes) (command ["HSET", "h", "f", "7", "g", "x"])
    ⟨0⟩ EngineShard.new).shard

theorem hincrby_exact_twoFields : ∃ fields : Fields, fields.lookup (ascii "f") = some (ascii "7") ∧
    fields.lookup (ascii "g") = some (ascii "x") ∧
    HincrbyExact (.arbitrary Bytes) ⟨0⟩ twoFields (command ["HINCRBY", "h", "f", "5"]) (ascii "h")
      fields (ascii "f") 5 := by
  have hfind := find_of_getElem (F := Int) (n := 10) hashTable (by simp [tables]) rfl rfl
  have hcalls : Calls Int (command ["HINCRBY", "h", "f", "5"]) (ascii "HINCRBY") :=
    .of_find (commandName_of_find hfind _) hfind rfl
  obtain ⟨fields, hfields, hf, hg⟩ : ∃ fields : Fields,
      fieldsUnder (twoFields.held ⟨0⟩ (ascii "h")) = some fields ∧
      fields.lookup (ascii "f") = some (ascii "7") ∧ fields.lookup (ascii "g") = some (ascii "x") :=
    ⟨_, rfl, by decide, by decide⟩
  have hcounter : fieldCounter fields (ascii "f") = some 7 := by
    rw [fieldCounter, hf]
    decide
  refine ⟨fields, hf, hg, ?_⟩
  exact (hincrby_exact_iff (.arbitrary Bytes) ⟨0⟩ twoFields _ hcalls (ascii "h")
    (ascii "f") 5 rfl rfl (by decide) fields hfields).2.mpr ⟨7, hcounter, by decide, by decide⟩

end Fixed

end ShrikeDb
