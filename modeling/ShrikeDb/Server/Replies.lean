import ShrikeDb.Facade.RespGrammar
import ShrikeDb.Server.Requests

/-! What every handler replies and when it panics. A handler first unwraps some of its
arguments. If one of them is no bulk string that is the panic; otherwise it goes on
without one, whatever the databases hold, and replies one RESP2 value. Only `SCAN`, `SETRANGE`,
`APPEND` and the commands that pop from a sorted set can still panic later. -/

namespace ShrikeDb

open Program Command ReplyBuilder CommandRegistry List

variable {F κ : Type} {fault : Prop} {ctx : CommandContext}

/-! ## Rules -/

section Rules

variable {i : DbIndex} {key : Bytes}

theorem yields_find {α : Type} {post : α → Prop} {f : Option (FindResult F) → Command F α}
    (h : ∀ r, Yields fault post (f r)) : Yields fault post (Command.find i key >>= f) :=
  .perform h

theorem yields_existsKey {α : Type} {post : α → Prop} {f : Bool → Command F α}
    (h : ∀ b, Yields fault post (f b)) : Yields fault post (existsKey i key >>= f) :=
  .bind (yields_find fun r => h r.isSome)

theorem yields_view {kind : PrimeValue F → Option κ} {present : κ → Bytes} {absent : Bytes}
    (hp : ∀ x, WellFormed (present x)) (ha : WellFormed absent) :
    Yields fault WellFormed (view kind i key present absent) := by
  refine yields_find fun r => ?_
  cases r with
  | none => exact ha
  | some r =>
    dsimp only
    cases kind r.value with
    | none => exact wf_wrongType
    | some x => exact hp x

theorem yields_editValue {post : Bytes → Prop} {e : Edit F} (h : post e.reply) :
    Yields fault post (editValue i key e) := by
  cases e with
  | keep reply => exact h
  | put value empty reply =>
    refine .invoke ?_
    cases empty with
    | false => exact h
    | true => exact .invoke h

theorem yields_tryEdit {kind : PrimeValue F → Option κ}
    {present : κ → Except (PrimeValue F) (Edit F)} {absent : Command F Bytes}
    (hp : ∀ x e, present x = .ok e → WellFormed e.reply)
    (hf : ∀ x value, present x = .error value → fault) (ha : Yields fault WellFormed absent) :
    Yields fault WellFormed (tryEdit kind i key present absent) := by
  refine .perform fun r => ?_
  cases r with
  | none => exact ha
  | some r =>
    dsimp only
    cases kind r.value with
    | none => exact wf_wrongType
    | some x =>
      dsimp only
      cases hx : present x with
      | ok e => exact yields_editValue (hp x e hx)
      | error value => exact .invoke (hf x value hx)

theorem yields_edit {kind : PrimeValue F → Option κ} {present : κ → Edit F}
    {absent : Command F Bytes} (hp : ∀ x, WellFormed (Edit.reply (present x)))
    (ha : Yields fault WellFormed absent) :
    Yields fault WellFormed (edit kind i key present absent) :=
  yields_tryEdit (by rintro x e ⟨⟩; exact hp x) (by rintro x value ⟨⟩) ha

theorem yields_create {value : PrimeValue F} {reply : Bytes} (h : WellFormed reply) :
    Yields fault WellFormed (create i key value reply) :=
  .invoke h

theorem wf_notAnInteger : WellFormed notAnInteger := wf_err (by simp [OneLine, ascii])

theorem wf_noSuchKey :
    WellFormed (sendErr (ascii "no such key")) := wf_err (by simp [OneLine, ascii])

theorem wf_notAFloat : WellFormed notAFloat := wf_err (by simp [OneLine, ascii])

end Rules

/-! ## Arguments that are unwrapped -/

/-- The arguments at these positions are bulk strings. -/
def CommandContext.Bulk (ctx : CommandContext) (is : List Nat) : Prop :=
  ∀ i ∈ is, (ctx.argBytes i).isSome = true

theorem isSome_mapM {α β : Type} {f : α → Option β} {l : List α} :
    (l.mapM f).isSome = true ↔ ∀ x ∈ l, (f x).isSome = true := by
  induction l with
  | nil => simp
  | cons x l ih =>
    rw [mapM_cons, forall_mem_cons, ← ih]
    cases f x <;> cases l.mapM f <;> simp

theorem isSome_argsBytes (n : Nat) :
    (ctx.argsBytes n).isSome = true ↔ ctx.Bulk (range' n (ctx.args.length - n)) := by
  rw [CommandContext.argsBytes, isSome_mapM]
  constructor
  · intro h i hi
    obtain ⟨hle, hlt⟩ := mem_range'_1.mp hi
    have hlen : i < ctx.args.length := by omega
    rw [CommandContext.argBytes, getElem?_eq_getElem hlen]
    refine h _ (mem_drop_iff_getElem.mpr ⟨i - n, by omega, ?_⟩)
    congr 1
    omega
  · intro h x hx
    obtain ⟨j, hj, rfl⟩ := mem_drop_iff_getElem.mp hx
    have hi := h (n + j) (mem_range'_1.mpr ⟨by omega, by omega⟩)
    rwa [CommandContext.argBytes, getElem?_eq_getElem (by omega)] at hi

/-- The program unwraps the arguments at these positions before it does anything else. -/
structure Guarded (fault : Prop) (ctx : CommandContext) (is : List Nat) (p : Command F Bytes) :
    Prop where
  yields : ctx.Bulk is → Yields fault WellFormed p
  panics : ¬ctx.Bulk is → p = .panic

namespace Guarded

variable {is : List Nat} {n : Nat}

theorem done {p : Command F Bytes} (h : Yields fault WellFormed p) : Guarded fault ctx [] p :=
  ⟨fun _ => h, fun hno => absurd (fun _ hi => nomatch hi) hno⟩

theorem arg {f : Bytes → Command F Bytes}
    (h : ∀ b, ctx.argBytes n = some b → Guarded fault ctx is (f b)) :
    Guarded fault ctx (n :: is) (Command.arg ctx n >>= f) := by
  cases hb : ctx.argBytes n with
  | none =>
    refine ⟨fun hbulk => ?_, fun _ => ?_⟩
    · have hn := hbulk n mem_cons_self
      rw [hb] at hn
      cases hn
    · rw [Command.arg, hb]
      rfl
  | some b =>
    have hrun : Command.arg ctx n >>= f = f b := by
      rw [Command.arg, hb]
      rfl
    have hiff : ctx.Bulk (n :: is) ↔ ctx.Bulk is := by
      rw [CommandContext.Bulk, forall_mem_cons, hb]
      exact and_iff_right rfl
    rw [hrun]
    exact ⟨fun hbulk => (h b hb).yields (hiff.mp hbulk), fun hno => (h b hb).panics fun hb =>
      hno (hiff.mpr hb)⟩

theorem args {f : List Bytes → Command F Bytes} (h : ∀ bs, Yields fault WellFormed (f bs)) :
    Guarded fault ctx (range' n (ctx.args.length - n)) (Command.args ctx n >>= f) := by
  refine ⟨fun hbulk => ?_, fun hno => ?_⟩
  · refine .ofOption (fun hnone => ?_) fun bs _ => h bs
    have hsome := (isSome_argsBytes n).mpr hbulk
    rw [hnone] at hsome
    cases hsome
  · rw [← isSome_argsBytes, Option.not_isSome_iff_eq_none] at hno
    rw [Command.args, hno]
    rfl

end Guarded

/-- Which arguments a handler unwraps. -/
inductive Unwraps
  | at (is : List Nat)
  /-- The first, if there is one. -/
  | given
  /-- Some, and all from a position on. -/
  | all (is : List Nat) (from_ : Nat)
  /-- Some, and all from a position on if their number is even. -/
  | pairs (is : List Nat) (from_ : Nat)
  /-- The first, if the second spells an integer. -/
  | integer
  /-- The first, and the third if the second spells an integer above zero. -/
  | positive
  /-- The first, and the third if the second spells a natural number. -/
  | offset
  /-- The first, and the third if the second spells a float. -/
  | score
  /-- The first, and behind it each member whose score spells a float. -/
  | scored
  /-- The first two, and the string under the key grows. -/
  | growing
  /-- The first, and entries are popped from an end. -/
  | popping (rev : Bool)
  | page
  deriving DecidableEq

/-- Positions of the members that `scorePairs` unwraps. -/
def scoredMembers (F : Type) [F64 F] : Nat → List RespExpr → List Nat
  | n, score :: _ :: rest =>
    if (score.asStr.bind (F64.parse (F := F))).isSome then (n + 1) :: scoredMembers F (n + 2) rest
    else scoredMembers F (n + 2) rest
  | _, _ => []

def Unwraps.positions (F : Type) [F64 F] (ctx : CommandContext) : Unwraps → List Nat
  | .at is => is
  | .given => if ctx.args.length > 1 then [1] else []
  | .all is n => is ++ range' n (ctx.args.length - n)
  | .pairs is n =>
    if (ctx.args.length - n) % 2 ≠ 0 then is else is ++ range' n (ctx.args.length - n)
  | .integer => if (ctx.argInt 2).isSome then [1] else []
  | .positive => if (ctx.argInt 2).any (0 < ·) then [1, 3] else [1]
  | .offset => if (ctx.argInt 2).any (0 ≤ ·) then [1, 3] else [1]
  | .score => if ((ctx.argStr 2).bind (F64.parse (F := F))).isSome then [1, 3] else [1]
  | .scored =>
    if (ctx.args.length - 2) % 2 ≠ 0 then [1] else 1 :: scoredMembers F 2 (ctx.args.drop 2)
  | .growing => [1, 2]
  | .popping _ => [1]
  | .page => []

/-- The handler can still panic after it has unwrapped its arguments. -/
def Unwraps.mayPanic : Unwraps → Prop
  | .offset | .growing | .popping _ | .page => True
  | _ => False

/-- An entry of a table unwraps what the specification says. -/
def Unwrapping [F64 F] (ctx : CommandContext) (e : CommandEntry F) (u : Unwraps) : Prop :=
  Guarded u.mayPanic ctx (u.positions F ctx) (e.handler ctx)

/-! ## Generic commands -/

section Generic

open GenericFamily

theorem cmdPing_guarded :
    Guarded fault ctx (if ctx.args.length > 1 then [1] else []) (cmdPing (F := F) ctx) := by
  rw [cmdPing]
  split
  · exact .arg fun _ _ => .done (wf_bulk _)
  · exact .done wf_pong

theorem setExpireRelative_guarded (unit : UInt64) :
    Guarded fault ctx [1] (setExpireRelative (F := F) ctx unit) := by
  refine .arg fun key _ => .done ?_
  split
  · exact wf_notAnInteger
  · split
    · refine yields_existsKey fun b => ?_
      split
      · exact .invoke (wf_int 1)
      · exact wf_int 0
    · refine yields_existsKey fun b => ?_
      split
      · exact wf_int 0
      · exact .perform fun now => .invoke (wf_int 1)

theorem setExpireAbsolute_guarded (unit : UInt64) :
    Guarded fault ctx [1] (setExpireAbsolute (F := F) ctx unit) := by
  refine .arg fun key _ => .done ?_
  split
  · exact wf_notAnInteger
  · refine yields_existsKey fun b => ?_
    split
    · exact wf_int 0
    · refine .perform fun now => ?_
      split
      · exact .invoke (wf_int 1)
      · exact .invoke (wf_int 1)

theorem ttlReply_guarded (unit : UInt64) : Guarded fault ctx [1] (ttlReply (F := F) ctx unit) := by
  refine .arg fun key _ => .done (.perform fun ttl => ?_)
  split
  · exact wf_int _
  · exact wf_int _
  · exact wf_int _

theorem cmdRename_guarded : Guarded fault ctx [1, 2] (cmdRename (F := F) ctx) := by
  refine .arg fun source _ => .arg fun dest _ => .done (.perform fun renamed => ?_)
  split
  · exact wf_ok
  · exact wf_noSuchKey

theorem cmdRenamenx_guarded : Guarded fault ctx [1, 2] (cmdRenamenx (F := F) ctx) := by
  refine .arg fun source _ => .arg fun dest _ => .done (yields_existsKey fun b => ?_)
  split
  · exact wf_noSuchKey
  · refine yields_existsKey fun b' => ?_
    split
    · exact wf_int 0
    · exact .invoke (wf_int 1)

theorem typeName_oneLine (v : PrimeValue F) : OneLine v.typeName := by
  have h : ∀ t ∈ [ascii "string", ascii "list", ascii "set", ascii "hash", ascii "zset"],
      OneLine t := by
    decide +kernel
  cases v <;> exact h _ (by simp [PrimeValue.typeName])

theorem cmdType_guarded : Guarded fault ctx [1] (cmdType (F := F) ctx) := by
  refine .arg fun key _ => .done (yields_find fun r => ?_)
  cases r with
  | none => exact wf_simple (by simp [OneLine, ascii])
  | some r => exact wf_simple (typeName_oneLine r.value)

theorem cmdPersist_guarded : Guarded fault ctx [1] (cmdPersist (F := F) ctx) := by
  refine .arg fun key _ => .done (yields_existsKey fun b => ?_)
  split
  · exact wf_int 0
  · exact .perform fun removed => wf_int _

theorem cmdSelect_yields : Yields fault WellFormed (cmdSelect (F := F) ctx) := by
  rw [cmdSelect]
  split
  · exact .invoke wf_ok
  · exact wf_err (by simp [OneLine, ascii])

theorem cmdScan_yields : Yields True WellFormed (cmdScan (F := F) ctx) := by
  rw [cmdScan]
  split
  · exact wf_err (by simp [OneLine, ascii])
  · refine .perform fun page => .ofOption (fun _ => trivial) fun r _ => ?_
    have hwf := @wf_array 2 [sendBulkString (u64ToString r.2), sendStringArray r.1] rfl
      (by simp [wf_bulk, wf_stringArray])
    exact .ret (by simpa using hwf)

theorem cmdHello_yields (ctx : CommandContext) :
    Yields fault WellFormed (cmdHello (F := F) ctx) := by
  have hwf := @wf_array 14 [sendBulkString (ascii "server"),
    sendBulkString (ascii "shrikedb"), sendBulkString (ascii "version"),
    sendBulkString (ascii "0.1.0"), sendBulkString (ascii "proto"), sendInteger 2,
    sendBulkString (ascii "id"), sendInteger 1, sendBulkString (ascii "mode"),
    sendBulkString (ascii "standalone"), sendBulkString (ascii "role"),
    sendBulkString (ascii "master"), sendBulkString (ascii "modules"), sendArrayLen 0] rfl
    (by simp only [forall_mem_cons]; simp [wf_bulk, wf_int, wf_arrayLen_zero])
  refine .ret ?_
  simpa only [flatten_cons, flatten_nil, append_nil, append_assoc] using hwf

theorem cmdClient_yields : Yields fault WellFormed (cmdClient (F := F) ctx) := by
  change WellFormed (if _ then _ else _)
  repeat' split
  · exact wf_ok
  · exact wf_null
  · exact wf_bulk _
  · exact wf_int _
  · exact wf_ok

theorem cmdConfig_yields : Yields fault WellFormed (cmdConfig (F := F) ctx) := by
  change WellFormed (if _ then _ else _)
  repeat' split
  · exact wf_arrayLen_zero
  · exact wf_ok
  · exact wf_ok
  · exact wf_err (by simp [OneLine, ascii])

def genericTableUnwraps : List Unwraps :=
  [.given, .at [1], .at [], .at [], .at [], .at [], .at [], .at [], .all [] 1, .all [] 1, .all [] 1,
    .at [1], .at [1, 2], .at [1, 2], .at [1], .at [1], .at [1], .at [1], .at [1], .at [1], .at [1],
    .at [], .page, .at [], .at [], .at [], .at [], .at []]

theorem genericTable_unwrapping [F64 F] :
    List.Forall₂ (Unwrapping (F := F) ctx) genericTable genericTableUnwraps := by
  simp only [genericTable, genericTableUnwraps, forall₂_cons, List.Forall₂.nil, and_true]
  refine ⟨?ping, ?echo, ?command, ?info, ?select, ?dbsize, ?flushdb, ?flushall, ?del, ?unlink,
    ?existing, ?type, ?rename, ?renamenx, ?expire, ?pexpire, ?expireat, ?pexpireat, ?ttl, ?pttl,
    ?persist, ?keys, ?scan, ?randomkey, ?hello, ?client, ?config, ?reset⟩
  case ping => exact cmdPing_guarded
  case echo => exact .arg fun _ _ => .done (wf_bulk _)
  case command => exact .done wf_arrayLen_zero
  case info => exact .done (.perform fun _ => wf_bulk _)
  case select => exact .done cmdSelect_yields
  case dbsize => exact .done (.perform fun _ => wf_int _)
  case flushdb => exact .done (.invoke wf_ok)
  case flushall => exact .done (.loop (fun _ => .invoked _) fun _ => wf_ok)
  case del => exact .args fun _ => .loop (fun _ => .performed _) fun _ => wf_int _
  case unlink => exact .args fun _ => .loop (fun _ => .performed _) fun _ => wf_int _
  case existing =>
    exact .args fun _ => .loop (fun _ => yields_find fun _ => trivial) fun _ => wf_int _
  case type => exact cmdType_guarded
  case rename => exact cmdRename_guarded
  case renamenx => exact cmdRenamenx_guarded
  case expire => exact setExpireRelative_guarded 1000
  case pexpire => exact setExpireRelative_guarded 1
  case expireat => exact setExpireAbsolute_guarded 1000
  case pexpireat => exact setExpireAbsolute_guarded 1
  case ttl => exact ttlReply_guarded 1000
  case pttl => exact ttlReply_guarded 1
  case persist => exact cmdPersist_guarded
  case keys => exact .done (.perform fun _ => wf_stringArray _)
  case scan => exact .done cmdScan_yields
  case randomkey => exact .done (.perform fun _ => wf_optional _)
  case hello => exact .done (cmdHello_yields ctx)
  case client => exact .done cmdClient_yields
  case config => exact .done cmdConfig_yields
  case reset => exact .done (.invoke (wf_simple (by simp [OneLine, ascii])))

end Generic

/-! ## Strings -/

section Strings

open StringFamily

theorem wf_syntaxError :
    WellFormed (sendErr (ascii "syntax error")) := wf_err (by simp [OneLine, ascii])

/-- The options of `SET` are refused with one of two errors. -/
theorem setOptions_wf {words : List RespExpr} {o : SetOptions} {reply : Bytes}
    (h : setOptions words o = .error reply) : WellFormed reply := by
  fun_induction setOptions words o <;>
    first
    | (rename_i ih; exact ih h)
    | (cases h <;> first | exact wf_notAnInteger | exact wf_syntaxError)

/-- The string under a key, or an error reply. -/
def OldString : Except Bytes (Option Bytes) → Prop
  | .error reply => WellFormed reply
  | .ok _ => True

theorem oldString_yields (i : DbIndex) (key : Bytes) :
    Yields fault OldString (oldString (F := F) i key) := by
  refine yields_find fun r => ?_
  cases r with
  | none => exact .ret trivial
  | some r =>
    dsimp only
    split
    · exact .ret trivial
    · exact .ret wf_wrongType

theorem capturedString_yields (get : Bool) (i : DbIndex) (key : Bytes) :
    Yields fault OldString (capturedString (F := F) get i key) := by
  rw [capturedString]
  split
  · exact oldString_yields i key
  · exact .ret trivial

theorem capturedDeadline_yields (keep : Bool) (i : DbIndex) (key : Bytes) :
    Yields fault (fun _ => True) (capturedDeadline (F := F) keep i key) := by
  rw [capturedDeadline]
  split
  · refine .perform fun ttl => ?_
    cases ttl with
    | expires ms => exact .perform fun _ => .ret trivial
    | keyNotFound => exact .ret trivial
    | noExpiry => exact .ret trivial
  · exact .ret trivial

theorem setDeadline_yields (i : DbIndex) (key : Bytes) (o : SetOptions) (old : Option UInt64) :
    Yields fault (fun _ => True) (setDeadline (F := F) i key o old) := by
  unfold setDeadline
  split
  · exact .perform fun _ => .invoked _
  · exact .invoked _
  · split
    · exact .invoked _
    · exact .ret trivial

theorem setValue_yields (i : DbIndex) (key value : Bytes) (o : SetOptions) (old : Option Bytes) :
    Yields fault WellFormed (setValue (F := F) i key value o old) := by
  refine yields_existsKey fun present => ?_
  split
  · refine .ret ?_
    split
    · exact wf_optional old
    · exact wf_null
  · split
    · exact wf_null
    · refine .bind ((capturedDeadline_yields _ i key).mono fun deadline _ => ?_)
      refine .invoke (.bind ((setDeadline_yields i key o deadline).mono fun _ _ => ?_))
      refine .ret ?_
      split
      · exact wf_optional old
      · exact wf_ok

theorem cmdSet_guarded : Guarded fault ctx [1, 2] (cmdSet (F := F) ctx) := by
  refine .arg fun key _ => .arg fun value _ => .done ?_
  split
  · next reply h => exact setOptions_wf h
  · split
    · exact wf_err (by simp [OneLine, ascii])
    · refine .bind ((capturedString_yields _ _ _).mono fun old hold => ?_)
      cases old with
      | error reply => exact hold
      | ok old => exact setValue_yields _ _ _ _ _

theorem setWithExpiry_guarded [F64 F] (unit : UInt64) :
    Guarded fault ctx (Unwraps.positive.positions F ctx) (setWithExpiry (F := F) ctx unit) := by
  rw [Unwraps.positions]
  cases hn : ctx.argInt 2 with
  | none =>
    refine .arg fun key _ => .done ?_
    rw [hn]
    exact wf_notAnInteger
  | some n =>
    by_cases hpos : 0 < n
    · rw [if_pos (by simpa using hpos)]
      refine .arg fun key _ => ?_
      rw [hn]
      dsimp only
      rw [if_pos hpos]
      exact .arg fun value _ => .done (.invoke (.perform fun _ => .invoke wf_ok))
    · rw [if_neg (by simpa using hpos)]
      refine .arg fun key _ => .done ?_
      rw [hn]
      dsimp only
      rw [if_neg hpos]
      exact wf_notAnInteger

theorem mgetOne_yields (i : DbIndex) (key : Bytes) :
    Yields fault WellFormed (mgetOne (F := F) i key) := by
  refine yields_find fun r => ?_
  cases r with
  | none => exact wf_null
  | some r =>
    dsimp only
    split
    · exact wf_bulk _
    · exact wf_null

theorem cmdMget_guarded :
    Guarded fault ctx (range' 1 (ctx.args.length - 1)) (cmdMget (F := F) ctx) :=
  .args fun _ => .bind ((Yields.forEach fun key _ => mgetOne_yields ctx.dbIndex key).mono
    fun _ hitems => .ret (wf_array hitems.1 hitems.2))

theorem cmdMset_guarded [F64 F] :
    Guarded fault ctx ((Unwraps.pairs [] 1).positions F ctx) (cmdMset (F := F) ctx) := by
  rw [cmdMset, Unwraps.positions]
  split
  · exact .done (wf_err (by simp [OneLine, ascii]))
  · exact .args fun _ => .loop (fun _ => .invoke (.invoked _)) fun _ => wf_ok

theorem anyExists_yields (i : DbIndex) (keys : List Bytes) :
    Yields fault (fun _ => True) (anyExists (F := F) i keys) := by
  induction keys with
  | nil => exact .ret trivial
  | cons key rest ih =>
    refine yields_existsKey fun b => ?_
    split
    · exact .ret trivial
    · exact ih

theorem cmdMsetnx_guarded [F64 F] :
    Guarded fault ctx ((Unwraps.pairs [] 1).positions F ctx) (cmdMsetnx (F := F) ctx) := by
  rw [cmdMsetnx, Unwraps.positions]
  split
  · exact .done (wf_err (by simp [OneLine, ascii]))
  · refine .args fun words => .bind ((anyExists_yields _ _).mono fun b _ => ?_)
    split
    · exact wf_int 0
    · exact .loop (fun _ => .invoked _) fun _ => wf_int 1

theorem cmdGetset_guarded : Guarded fault ctx [1, 2] (cmdGetset (F := F) ctx) := by
  refine .arg fun key _ => .arg fun value _ =>
    .done (.bind ((oldString_yields _ _).mono fun old hold => ?_))
  cases old with
  | error reply => exact hold
  | ok old => exact .invoke (.invoke (wf_optional old))

theorem cmdGetdel_guarded : Guarded fault ctx [1] (cmdGetdel (F := F) ctx) := by
  refine .arg fun key _ => .done (.bind ((oldString_yields _ _).mono fun old hold => ?_))
  rcases old with reply | _ | v
  · exact hold
  · exact wf_null
  · exact .invoke (wf_bulk v)

theorem getexOption_wf {now : UInt64} {reply : Bytes} (h : getexOption ctx now = .error reply) :
    WellFormed reply := by
  rw [getexOption] at h
  split at h
  · split at h
    · cases h
    · cases h
      exact wf_notAnInteger
  · split at h
    · cases h
    · cases h
      exact wf_syntaxError

theorem cmdGetex_guarded : Guarded fault ctx [1] (cmdGetex (F := F) ctx) := by
  refine .arg fun key _ => .done (.bind ((oldString_yields _ _).mono fun old hold => ?_))
  rcases old with reply | _ | v
  · exact hold
  · exact wf_null
  · dsimp only
    split
    · refine .perform fun now => ?_
      split
      · next reply h => exact getexOption_wf h
      · exact .invoke (wf_bulk v)
      · exact .invoke (wf_bulk v)
    · exact wf_bulk v

theorem incrBy_guarded (delta : Int64) : Guarded fault ctx [1] (incrBy (F := F) ctx delta) := by
  refine .arg fun key _ => .done (yields_find fun r => ?_)
  dsimp only
  split
  · exact wf_notAnInteger
  · split
    · exact wf_err (by simp [OneLine, ascii])
    · exact .invoke (wf_int _)

theorem cmdIncrbyfloat_guarded [F64 F] : Guarded fault ctx [1] (cmdIncrbyfloat (F := F) ctx) := by
  refine .arg fun key _ => .done ?_
  dsimp only
  split
  · exact wf_notAFloat
  · refine yields_find fun r => ?_
    split
    · exact wf_notAFloat
    · split
      · exact wf_err (by simp [OneLine, ascii])
      · exact .invoke (wf_bulk _)

theorem cmdIncrby_guarded [F64 F] :
    Guarded fault ctx (Unwraps.integer.positions F ctx) (cmdIncrby (F := F) ctx) := by
  rw [cmdIncrby, Unwraps.positions]
  cases ctx.argInt 2 with
  | none => exact .done wf_notAnInteger
  | some delta => exact incrBy_guarded delta

theorem cmdDecrby_guarded [F64 F] :
    Guarded fault ctx (Unwraps.integer.positions F ctx) (cmdDecrby (F := F) ctx) := by
  rw [cmdDecrby, Unwraps.positions]
  cases ctx.argInt 2 with
  | none => exact .done wf_notAnInteger
  | some delta => exact incrBy_guarded (-delta)

theorem cmdAppend_guarded : Guarded True ctx [1, 2] (cmdAppend (F := F) ctx) :=
  .arg fun _ _ => .arg fun _ _ => .done <| yields_tryEdit (fun _ _ h => (ok_of_ite h).2 ▸ wf_int _)
    (fun _ _ _ => trivial) (yields_create (wf_int _))

theorem cmdGetrange_guarded : Guarded fault ctx [1] (cmdGetrange (F := F) ctx) := by
  refine .arg fun key _ => .done ?_
  split
  · exact yields_view (fun _ => wf_bulk _) (wf_bulk _)
  · exact wf_notAnInteger

theorem cmdSetrange_guarded [F64 F] :
    Guarded True ctx (Unwraps.offset.positions F ctx) (cmdSetrange (F := F) ctx) := by
  rw [Unwraps.positions]
  cases hn : ctx.argInt 2 with
  | none =>
    refine .arg fun key _ => .done ?_
    rw [hn]
    exact wf_err (by simp [OneLine, ascii])
  | some n =>
    by_cases hpos : 0 ≤ n
    · rw [if_pos (by simpa using hpos)]
      refine .arg fun key _ => ?_
      rw [hn, Option.filter_some_pos (by simpa using hpos)]
      refine .arg fun value _ => .done (.perform fun r => ?_)
      cases r with
      | none =>
        dsimp only
        split
        · exact trivial
        · exact .invoke (wf_int _)
      | some r =>
        dsimp only
        split
        · exact wf_wrongType
        · refine .invoke ?_
          split
          · exact trivial
          · exact .invoke (wf_int _)
    · rw [if_neg (by simpa using hpos)]
      refine .arg fun key _ => .done ?_
      rw [hn, Option.filter_some_neg (by simpa using hpos)]
      exact wf_err (by simp [OneLine, ascii])

def stringTableUnwraps : List Unwraps :=
  [.at [1], .at [1, 2], .at [1, 2], .positive, .positive, .all [] 1, .pairs [] 1, .pairs [] 1,
    .at [1, 2], .at [1], .at [1], .at [1], .at [1], .integer, .integer, .at [1], .growing, .at [1],
    .at [1], .offset]

theorem stringTable_unwrapping [F64 F] :
    List.Forall₂ (Unwrapping (F := F) ctx) stringTable stringTableUnwraps := by
  simp only [stringTable, stringTableUnwraps, forall₂_cons, List.Forall₂.nil, and_true]
  refine ⟨?get, ?set, ?setnx, ?setex, ?psetex, ?mget, ?mset, ?msetnx, ?getset, ?getdel, ?getex,
    ?incr, ?decr, ?incrby, ?decrby, ?incrbyfloat, ?append, ?strlen, ?getrange, ?setrange⟩
  case get => exact .arg fun _ _ => .done (yields_view (fun _ => wf_bulk _) wf_null)
  case set => exact cmdSet_guarded
  case setnx => exact .arg fun _ _ => .arg fun _ _ => .done (.perform fun _ => wf_int _)
  case setex => exact setWithExpiry_guarded 1000
  case psetex => exact setWithExpiry_guarded 1
  case mget => exact cmdMget_guarded
  case mset => exact cmdMset_guarded
  case msetnx => exact cmdMsetnx_guarded
  case getset => exact cmdGetset_guarded
  case getdel => exact cmdGetdel_guarded
  case getex => exact cmdGetex_guarded
  case incr => exact incrBy_guarded 1
  case decr => exact incrBy_guarded (-1)
  case incrby => exact cmdIncrby_guarded
  case decrby => exact cmdDecrby_guarded
  case incrbyfloat => exact cmdIncrbyfloat_guarded
  case append => exact cmdAppend_guarded
  case strlen => exact .arg fun _ _ => .done (yields_view (fun _ => wf_int _) (wf_int _))
  case getrange => exact cmdGetrange_guarded
  case setrange => exact cmdSetrange_guarded

end Strings

/-! ## Lists -/

section Lists

open ListFamily

theorem pushList_guarded [F64 F] (push : List Bytes → Bytes → List Bytes) :
    Guarded fault ctx ((Unwraps.all [1] 2).positions F ctx) (pushList (F := F) push ctx) :=
  .arg fun _ _ => .args fun _ => yields_edit (fun _ => wf_int _) (yields_create (wf_int _))

theorem popList_guarded (pop : Nat → List Bytes → List Bytes × List Bytes) :
    Guarded fault ctx [1] (popList (F := F) pop ctx) := by
  refine .arg fun key _ => .done (yields_edit (fun items => ?_) wf_null)
  change WellFormed (if _ then _ else _)
  split
  · exact wf_optional _
  · exact wf_stringArray _

theorem cmdLset_guarded : Guarded fault ctx [1, 3] (cmdLset (F := F) ctx) := by
  refine .arg fun key _ => .arg fun value _ => .done (yields_edit (fun items => ?_) wf_noSuchKey)
  dsimp only
  split
  · exact wf_ok
  · exact wf_err (by simp [OneLine, ascii])

theorem cmdLinsert_guarded : Guarded fault ctx [1, 2, 3, 4] (cmdLinsert (F := F) ctx) := by
  refine .arg fun key _ => .arg fun where_ _ => .arg fun pivot _ => .arg fun value _ => .done ?_
  refine yields_edit (fun items => ?_) (wf_int 0)
  dsimp only
  split
  · exact wf_int _
  · exact wf_int _

def listTableUnwraps : List Unwraps :=
  [.all [1] 2, .all [1] 2, .at [1], .at [1], .at [1], .at [1], .at [1], .at [1, 3], .at [1, 3],
    .at [1], .at [1, 2, 3, 4]]

theorem listTable_unwrapping [F64 F] :
    List.Forall₂ (Unwrapping (F := F) ctx) listTable listTableUnwraps := by
  simp only [listTable, listTableUnwraps, forall₂_cons, List.Forall₂.nil, and_true]
  refine ⟨?lpush, ?rpush, ?lpop, ?rpop, ?llen, ?lrange, ?lindex, ?lset, ?lrem, ?ltrim, ?linsert⟩
  case lpush => exact pushList_guarded _
  case rpush => exact pushList_guarded _
  case lpop => exact popList_guarded popFront
  case rpop => exact popList_guarded popBack
  case llen => exact .arg fun _ _ => .done (yields_view (fun _ => wf_int _) (wf_int _))
  case lrange =>
    exact .arg fun _ _ => .done (yields_view (fun _ => wf_stringArray _) wf_arrayLen_zero)
  case lindex => exact .arg fun _ _ => .done (yields_view (fun _ => wf_optional _) wf_null)
  case lset => exact cmdLset_guarded
  case lrem =>
    exact .arg fun _ _ => .arg fun _ _ => .done (yields_edit (fun _ => wf_int _) (wf_int _))
  case ltrim => exact .arg fun _ _ => .done (yields_edit (fun _ => wf_ok) wf_ok)
  case linsert => exact cmdLinsert_guarded

end Lists

/-! ## Sets -/

section Sets

open ShrikeDb.SetFamily

theorem collectSets_yields (i : DbIndex) (keys : List Bytes) :
    Yields fault (fun _ => True) (collectSets (F := F) i keys) := by
  induction keys with
  | nil => exact .ret trivial
  | cons key rest ih =>
    refine yields_find fun r => ?_
    dsimp only
    split
    · exact .ret trivial
    · refine .bind (ih.mono fun sets _ => ?_)
      cases sets <;> exact .ret trivial

variable [HashOrder]

theorem cmdSpop_guarded : Guarded fault ctx [1] (cmdSpop (F := F) ctx) := by
  refine .arg fun key _ => .done (yields_edit (fun items => ?_) wf_null)
  split
  · exact wf_bulk _
  · exact wf_null

theorem setOp_guarded (op : SetOp) :
    Guarded fault ctx (range' 1 (ctx.args.length - 1)) (setOp (F := F) ctx op) := by
  refine .args fun keys => .bind ((collectSets_yields _ keys).mono fun sets _ => ?_)
  rcases sets with _ | _ | ⟨first, rest⟩
  · exact wf_wrongType
  · exact wf_arrayLen_zero
  · exact wf_stringArray _

def setTableUnwraps : List Unwraps :=
  [.all [1] 2, .all [1] 2, .at [1], .at [1, 2], .all [1] 2, .at [1], .at [1], .at [1], .all [] 1,
    .all [] 1, .all [] 1]

theorem setTable_unwrapping [F64 F] :
    List.Forall₂ (Unwrapping (F := F) ctx) setTable setTableUnwraps := by
  simp only [setTable, setTableUnwraps, forall₂_cons, List.Forall₂.nil, and_true]
  refine ⟨?sadd, ?srem, ?smembers, ?sismember, ?smismember, ?scard, ?srandmember, ?spop, ?sinter,
    ?sunion, ?sdiff⟩
  case sadd =>
    exact .arg fun _ _ => .args fun _ => yields_edit (fun _ => wf_int _) (yields_create (wf_int _))
  case srem => exact .arg fun _ _ => .args fun _ => yields_edit (fun _ => wf_int _) (wf_int _)
  case smembers =>
    exact .arg fun _ _ => .done (yields_view (fun _ => wf_stringArray _) wf_arrayLen_zero)
  case sismember =>
    exact .arg fun _ _ => .arg fun _ _ => .done (yields_view (fun _ => wf_int _) (wf_int _))
  case smismember =>
    exact .arg fun _ _ => .args fun _ => yields_view (fun _ => wf_array_map rfl fun _ _ => wf_int _)
      (wf_array_map rfl fun _ _ => wf_int _)
  case scard => exact .arg fun _ _ => .done (yields_view (fun _ => wf_int _) (wf_int _))
  case srandmember => exact .arg fun _ _ => .done (yields_view (fun _ => wf_optional _) wf_null)
  case spop => exact cmdSpop_guarded
  case sinter => exact setOp_guarded .inter
  case sunion => exact setOp_guarded .union
  case sdiff => exact setOp_guarded .diff

end Sets

/-! ## Hashes -/

section Hashes

open HashFamily

theorem setFields_guarded [F64 F] {name : Bytes} {reply : Int64 → Bytes} (hname : OneLine name)
    (hreply : ∀ n, WellFormed (reply n)) :
    Guarded fault ctx ((Unwraps.pairs [1] 2).positions F ctx)
      (setFields (F := F) name reply ctx) := by
  have herr : WellFormed
      (sendErr (ascii "wrong number of arguments for '" ++ name ++ ascii "' command")) :=
    wf_err (.append (.append (by simp [OneLine, ascii]) hname) (by simp [OneLine, ascii]))
  rw [Unwraps.positions]
  split
  · next hodd =>
    refine .arg fun key _ => .done ?_
    rw [if_pos hodd]
    exact herr
  · next heven =>
    refine .arg fun key _ => ?_
    rw [if_neg heven]
    exact .args fun _ => yields_edit (fun _ => hreply _) (yields_create (hreply _))

theorem cmdHincrby_guarded : Guarded fault ctx [1, 2] (cmdHincrby (F := F) ctx) := by
  refine .arg fun key _ => .arg fun field _ => .done ?_
  split
  · exact wf_notAnInteger
  · exact yields_edit (fun _ => wf_int _) (yields_create (wf_int _))

theorem cmdHincrbyfloat_guarded [F64 F] :
    Guarded fault ctx [1, 2] (cmdHincrbyfloat (F := F) ctx) := by
  refine .arg fun key _ => .arg fun field _ => .done ?_
  dsimp only
  split
  · exact wf_notAFloat
  · exact yields_edit (fun _ => wf_bulk _) (yields_create (wf_bulk _))

theorem cmdHsetnx_guarded : Guarded fault ctx [1, 2, 3] (cmdHsetnx (F := F) ctx) := by
  refine .arg fun key _ => .arg fun field _ => .arg fun value _ => .done ?_
  refine yields_edit (fun fields => ?_) (yields_create (wf_int 1))
  split
  · exact wf_int 0
  · exact wf_int 1

variable [HashOrder]

theorem length_fieldsOf (fields : Fields) : (fieldsOf fields).length = fields.keys.card := by
  rw [← HashOrder.order.length_list]
  refine filterMap_length_eq_length.mpr fun f hf => ?_
  rw [Option.isSome_map, Finmap.lookup_isSome, ← Finmap.mem_keys]
  exact (HashOrder.order.mem_list _ f).mp hf

def hashTableUnwraps : List Unwraps :=
  [.pairs [1] 2, .at [1, 2], .all [1] 2, .at [1, 2], .at [1], .at [1], .at [1], .at [1],
    .pairs [1] 2, .all [1] 2, .at [1, 2], .at [1, 2], .at [1, 2, 3]]

theorem hashTable_unwrapping [F64 F] :
    List.Forall₂ (Unwrapping (F := F) ctx) hashTable hashTableUnwraps := by
  simp only [hashTable, hashTableUnwraps, forall₂_cons, List.Forall₂.nil, and_true]
  refine ⟨?hset, ?hget, ?hdel, ?hexists, ?hgetall, ?hkeys, ?hvals, ?hlen, ?hmset, ?hmget,
    ?hincrby, ?hincrbyfloat, ?hsetnx⟩
  case hset => exact setFields_guarded (by simp [OneLine, ascii]) wf_int
  case hget =>
    exact .arg fun _ _ => .arg fun _ _ => .done (yields_view (fun _ => wf_optional _) wf_null)
  case hdel => exact .arg fun _ _ => .args fun _ => yields_edit (fun _ => wf_int _) (wf_int _)
  case hexists =>
    exact .arg fun _ _ => .arg fun _ _ => .done (yields_view (fun _ => wf_int _) (wf_int _))
  case hgetall =>
    exact .arg fun _ _ => .done (yields_view
      (fun fields => wf_array_pairs (length_fieldsOf fields) (fun _ => wf_bulk _) fun _ =>
      wf_bulk _) wf_arrayLen_zero)
  case hkeys =>
    exact .arg fun _ _ => .done (yields_view
      (fun fields => wf_array_map (length_fieldsOf fields) fun _ _ => wf_bulk _) wf_arrayLen_zero)
  case hvals =>
    exact .arg fun _ _ => .done (yields_view
      (fun fields => wf_array_map (length_fieldsOf fields) fun _ _ => wf_bulk _) wf_arrayLen_zero)
  case hlen => exact .arg fun _ _ => .done (yields_view (fun _ => wf_int _) (wf_int _))
  case hmset => exact setFields_guarded (by simp [OneLine, ascii]) fun _ => wf_ok
  case hmget =>
    exact .arg fun _ _ => .args fun _ =>
      yields_view (fun _ => wf_array_map rfl fun _ _ => wf_optional _)
      (wf_array_map rfl fun _ _ => wf_optional _)
  case hincrby => exact cmdHincrby_guarded
  case hincrbyfloat => exact cmdHincrbyfloat_guarded
  case hsetnx => exact cmdHsetnx_guarded

end Hashes

/-! ## Sorted sets -/

section SortedSets

open ZsetFamily

variable [F64 F]

theorem isSome_scorePairs (n : Nat) (words : List RespExpr) (h : words = ctx.args.drop n) :
    (scorePairs (F := F) words).isSome = true ↔ ctx.Bulk (scoredMembers F n words) := by
  induction words using scorePairs.induct (F := F) generalizing n with
  | case1 score member rest s hs ih =>
    have hmember : ctx.argBytes (n + 1) = member.asBytes := by
      rw [CommandContext.argBytes, ← getElem?_drop, ← h]
      rfl
    have hrest := ih (n + 2) (by rw [← drop_drop, ← h]; rfl)
    rw [scorePairs, hs, scoredMembers, hs, if_pos Option.isSome_some, CommandContext.Bulk,
      forall_mem_cons, hmember]
    rw [CommandContext.Bulk] at hrest
    rw [← hrest]
    cases member.asBytes <;> cases scorePairs (F := F) rest <;> simp
  | case2 score member rest hs ih =>
    rw [scorePairs, hs, scoredMembers, hs, if_neg (by simp)]
    exact ih (n + 2) (by rw [← drop_drop, ← h]; rfl)
  | case3 words hwords =>
    rcases words with _ | ⟨score, _ | ⟨member, rest⟩⟩
    · exact ⟨fun _ _ hi => (not_mem_nil hi).elim, fun _ => rfl⟩
    · exact ⟨fun _ _ hi => (not_mem_nil hi).elim, fun _ => rfl⟩
    · exact absurd rfl (hwords score member rest)

theorem cmdZadd_guarded :
    Guarded fault ctx (Unwraps.scored.positions F ctx) (cmdZadd (F := F) ctx) := by
  rw [Unwraps.positions]
  split
  · next hodd =>
    refine .arg fun key _ => .done ?_
    rw [if_pos hodd]
    exact wf_err (by simp [OneLine, ascii])
  · next heven =>
    refine .arg fun key _ => ?_
    rw [if_neg heven]
    have hiff := isSome_scorePairs (F := F) 2 (ctx.args.drop 2) rfl
    cases hp : scorePairs (F := F) (ctx.args.drop 2) with
    | none =>
      rw [hp] at hiff
      exact ⟨fun hbulk => absurd (hiff.mpr hbulk) Bool.false_ne_true, fun _ => rfl⟩
    | some pairs =>
      rw [hp] at hiff
      refine ⟨fun _ => .ofOption (by rintro ⟨⟩) fun pairs _ => ?_,
        fun hno => absurd (hiff.mp rfl) hno⟩
      split
      · exact wf_notAFloat
      · exact yields_edit (fun _ => wf_int _) (yields_create (wf_int _))

theorem cmdZincrby_guarded :
    Guarded fault ctx (Unwraps.score.positions F ctx) (cmdZincrby (F := F) ctx) := by
  rw [Unwraps.positions]
  cases hs : (ctx.argStr 2).bind (F64.parse (F := F)) with
  | none =>
    refine .arg fun key _ => .done ?_
    rw [hs]
    exact wf_notAFloat
  | some delta =>
    refine .arg fun key _ => ?_
    rw [hs]
    exact .arg fun member _ => .done (yields_edit (fun _ => wf_bulk _) (yields_create (wf_bulk _)))

theorem zrankImpl_guarded (rev : Bool) : Guarded fault ctx [1, 2] (zrankImpl (F := F) ctx rev) := by
  refine .arg fun key _ => .arg fun member _ => .done (yields_view (fun x => ?_) wf_null)
  dsimp only
  split
  · exact wf_int _
  · exact wf_null

theorem wf_withScores (entries : Scores F) : WellFormed (withScores entries) :=
  wf_array_pairs rfl (fun _ => wf_bulk _) fun _ => wf_bulk _

theorem cmdZrange_guarded : Guarded fault ctx [1] (cmdZrange (F := F) ctx) := by
  refine .arg fun key _ => .done (yields_view (fun x => ?_) wf_arrayLen_zero)
  dsimp only
  split
  · exact wf_withScores _
  · exact wf_stringArray _

theorem zpopImpl_guarded (rev : Bool) : Guarded True ctx [1] (zpopImpl (F := F) ctx rev) :=
  .arg fun _ _ => .done <| yields_tryEdit (fun _ _ h => (ok_of_ite h).2 ▸ wf_withScores _)
    (fun _ _ _ => trivial) wf_arrayLen_zero

def zsetTableUnwraps : List Unwraps :=
  [.scored, .all [1] 2, .at [1, 2], .at [1, 2], .at [1, 2], .at [1], .at [1], .at [1], .at [1],
    .score, .popping false, .popping true, .all [1] 2]

theorem zsetTable_unwrapping :
    List.Forall₂ (Unwrapping (F := F) ctx) zsetTable zsetTableUnwraps := by
  simp only [zsetTable, zsetTableUnwraps, forall₂_cons, List.Forall₂.nil, and_true]
  refine ⟨?zadd, ?zrem, ?zscore, ?zrank, ?zrevrank, ?zrange, ?zrangebyscore, ?zcard, ?zcount,
    ?zincrby, ?zpopmin, ?zpopmax, ?zmscore⟩
  case zadd => exact cmdZadd_guarded
  case zrem => exact .arg fun _ _ => .args fun _ => yields_edit (fun _ => wf_int _) (wf_int _)
  case zscore =>
    exact .arg fun _ _ => .arg fun _ _ => .done (yields_view (fun _ => wf_optional _) wf_null)
  case zrank => exact zrankImpl_guarded false
  case zrevrank => exact zrankImpl_guarded true
  case zrange => exact cmdZrange_guarded
  case zrangebyscore =>
    exact .arg fun _ _ => .done (yields_view (fun _ => wf_stringArray _) wf_arrayLen_zero)
  case zcard => exact .arg fun _ _ => .done (yields_view (fun _ => wf_int _) (wf_int _))
  case zcount => exact .arg fun _ _ => .done (yields_view (fun _ => wf_int _) (wf_int _))
  case zincrby => exact cmdZincrby_guarded
  case zpopmin => exact zpopImpl_guarded false
  case zpopmax => exact zpopImpl_guarded true
  case zmscore =>
    exact .arg fun _ _ => .args fun _ =>
      yields_view (fun _ => wf_array_map rfl fun _ _ => wf_optional _)
      (wf_array_map rfl fun _ _ => wf_optional _)

end SortedSets

/-! ## The registry -/

/-- The commands that unwrap anything but their first argument. -/
def unwrapTable : List (Unwraps × List Bytes) := [
  (.at [], [ascii "COMMAND", ascii "INFO", ascii "SELECT", ascii "DBSIZE", ascii "FLUSHDB",
    ascii "FLUSHALL", ascii "KEYS", ascii "RANDOMKEY", ascii "HELLO", ascii "CLIENT",
    ascii "CONFIG", ascii "RESET"]),
  (.given, [ascii "PING"]),
  (.page, [ascii "SCAN"]),
  (.all [] 1, [ascii "DEL", ascii "UNLINK", ascii "EXISTS", ascii "MGET", ascii "SINTER",
    ascii "SUNION", ascii "SDIFF"]),
  (.all [1] 2, [ascii "LPUSH", ascii "RPUSH", ascii "SADD", ascii "SREM", ascii "SMISMEMBER",
    ascii "HDEL", ascii "HMGET", ascii "ZREM", ascii "ZMSCORE"]),
  (.pairs [] 1, [ascii "MSET", ascii "MSETNX"]),
  (.pairs [1] 2, [ascii "HSET", ascii "HMSET"]),
  (.at [1, 2], [ascii "RENAME", ascii "RENAMENX", ascii "SET", ascii "SETNX", ascii "GETSET",
    ascii "SISMEMBER", ascii "HGET", ascii "HEXISTS", ascii "HINCRBY",
    ascii "HINCRBYFLOAT", ascii "ZSCORE", ascii "ZRANK", ascii "ZREVRANK"]),
  (.at [1, 3], [ascii "LSET", ascii "LREM"]),
  (.at [1, 2, 3], [ascii "HSETNX"]),
  (.at [1, 2, 3, 4], [ascii "LINSERT"]),
  (.positive, [ascii "SETEX", ascii "PSETEX"]),
  (.integer, [ascii "INCRBY", ascii "DECRBY"]),
  (.offset, [ascii "SETRANGE"]),
  (.growing, [ascii "APPEND"]),
  (.popping false, [ascii "ZPOPMIN"]),
  (.popping true, [ascii "ZPOPMAX"]),
  (.scored, [ascii "ZADD"]),
  (.score, [ascii "ZINCRBY"])]

def unwraps (name : Bytes) : Unwraps :=
  ((unwrapTable.find? fun row => name ∈ row.2).map Prod.fst).getD (.at [1])

section Registry

variable [F64 F] [HashOrder]

theorem registry_unwraps : (buildCommandRegistry (F := F)).map (fun e => unwraps e.name) =
    genericTableUnwraps ++ stringTableUnwraps ++ listTableUnwraps ++ setTableUnwraps ++
      hashTableUnwraps ++ zsetTableUnwraps := by
  simp only [buildCommandRegistry, genericTable, stringTable, listTable, setTable, hashTable,
    zsetTable, map_append, map_cons, map_nil]
  decide +kernel

/-- Every handler unwraps the arguments its name says before it does anything else, and
then replies one RESP2 value. -/
theorem registry_unwrapping {e : CommandEntry F} (he : e ∈ buildCommandRegistry)
    (ctx : CommandContext) : Unwrapping ctx e (unwraps e.name) := by
  have h : List.Forall₂ (Unwrapping (F := F) ctx) buildCommandRegistry
      (genericTableUnwraps ++ stringTableUnwraps ++ listTableUnwraps ++ setTableUnwraps ++
        hashTableUnwraps ++ zsetTableUnwraps) :=
    rel_append (rel_append (rel_append (rel_append (rel_append
      genericTable_unwrapping stringTable_unwrapping) listTable_unwrapping) setTable_unwrapping)
      hashTable_unwrapping) zsetTable_unwrapping
  rw [← registry_unwraps (F := F), forall₂_map_right_iff, forall₂_same] at h
  exact h e he

/-- What a handler replies, unless it panics, is one RESP2 value. -/
theorem registry_wellFormed {e : CommandEntry F} (he : e ∈ buildCommandRegistry)
    (ctx : CommandContext) (ω : Listing Bytes) (x : Exec F) (reply : Bytes)
    (h : (Program.run (step ω) (e.handler ctx) x).1 = some reply) : WellFormed reply := by
  have hu := registry_unwrapping he ctx
  by_cases hbulk : ctx.Bulk ((unwraps e.name).positions F ctx)
  · exact ((hu.yields hbulk).run (step ω) x).1 reply h
  · rw [hu.panics hbulk] at h
    cases h

end Registry

end ShrikeDb
