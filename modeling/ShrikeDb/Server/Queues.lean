import ShrikeDb.Server.Linear

/-! A list as a queue between clients. They push at its end with `RPUSH` and take from its front
with `LPOP`, on whatever connections and shards they are. Every value is handed out once, in the
order in which the values were pushed, or is still in the list. -/

namespace ShrikeDb

open CommandRegistry ListFamily ReplyBuilder Sharding List

/-! ## One operation -/

inductive QueueOp
  | push (values : List Bytes)
  | pop
  deriving DecidableEq

namespace QueueOp

def next (queue : List Bytes) : QueueOp → List Bytes
  | .push values => queue ++ values
  | .pop => queue.tail

def reply (queue : List Bytes) : QueueOp → Bytes
  | .push values => sendInteger (length64 (queue ++ values))
  | .pop => sendOptional queue.head?

def values : QueueOp → List Bytes
  | .push values => values
  | .pop => []

end QueueOp

section Calls

variable {F : Type} {k : Bytes} {i : DbIndex}

/-- A key with no values is not there. -/
def queueCell : List Bytes → Cell F
  | [] => Cell.empty
  | value :: queue => (some (.list (value :: queue)), none)

variable {queue : List Bytes}

theorem queueCell_of_ne (h : queue ≠ []) :
    (queueCell queue : Cell F) = (some (.list queue), none) := by
  cases queue with
  | nil => exact absurd rfl h
  | cons value queue => rfl

theorem rpush_leaves {ctx : CommandContext} {x : Exec F} {values : List Bytes} (ω : Listing Bytes)
    (hkey : ctx.argBytes 1 = some k) (hvalues : ctx.argsBytes 2 = some values) (hne : values ≠ [])
    (hcell : (x.slice.cell (ctx.dbIndex, k)).live x.slice.nowMs = queueCell queue) :
    Leaves ω (cmdRpush ctx) x ((QueueOp.push values).reply queue)
      (Function.update x.slice.cell (ctx.dbIndex, k) (queueCell (queue ++ values))) := by
  have hfold : ∀ items : List Bytes,
      values.foldl (fun items v => items ++ [v]) items = items ++ values := by
    intro items
    rw [foldl_append_eq_append, ← flatMap_def, flatMap_singleton']
  have hnew : (queueCell (queue ++ values) : Cell F) =
      (some (.list (queue ++ values)), ((x.slice.cell (ctx.dbIndex, k)).live x.slice.nowMs).2) := by
    rw [hcell, queueCell_of_ne (append_ne_nil_of_right_ne_nil _ hne)]
    cases queue <;> rfl
  rw [hnew]
  refine .arg_bind hkey ?_
  rw [Command.args, hvalues]
  change Leaves ω (Command.edit _ _ _ _ _) _ _ _
  simp only [hfold]
  cases queue with
  | nil => exact edit_leaves_create (congrArg Prod.fst hcell) _ _ ω
  | cons value queue =>
    have hkind : Command.listOf (.list (value :: queue) : PrimeValue F) = some (value :: queue) :=
      rfl
    exact edit_leaves_some (congrArg Prod.fst hcell) hkind ω

theorem lpop_leaves {ctx : CommandContext} {x : Exec F} (ω : Listing Bytes)
    (hkey : ctx.argBytes 1 = some k) (hlength : ctx.args.length = 2)
    (hcell : (x.slice.cell (ctx.dbIndex, k)).live x.slice.nowMs = queueCell queue) :
    Leaves ω (cmdLpop ctx) x (QueueOp.pop.reply queue)
      (Function.update x.slice.cell (ctx.dbIndex, k) (queueCell queue.tail)) := by
  refine .arg_bind hkey ?_
  simp only [hlength, Nat.le_refl, decide_true, if_true]
  cases queue with
  | nil =>
    refine edit_leaves_none (congrArg Prod.fst hcell) fun y hy _ => ?_
    rw [tail_nil, ← hcell]
    change Leaves ω _ y _ (x.lookedUp (ctx.dbIndex, k))
    rw [← hy]
    exact Leaves.pure ω y sendNull
  | cons value queue =>
    have hkind : Command.listOf (.list (value :: queue) : PrimeValue F) = some (value :: queue) :=
      rfl
    have hleaves : Leaves ω (Command.edit Command.listOf ctx.dbIndex k (fun items =>
        .put (.list (popFront (min 1 items.length) items).2)
          (popFront (min 1 items.length) items).2.isEmpty
          (sendOptional (popFront (min 1 items.length) items).1.head?)) (pure sendNull)) x _ _ :=
      edit_leaves_some (congrArg Prod.fst hcell) hkind ω
    rw [hcell] at hleaves
    cases queue <;> exact hleaves

variable [F64 F] [HashOrder]

theorem find_rpush : find (F := F) (ascii "RPUSH") = some ⟨ascii "RPUSH", cmdRpush, -3, 1⟩ :=
  find_of_getElem (n := 1) listTable (by simp [tables]) rfl rfl

theorem find_lpop : find (F := F) (ascii "LPOP") = some ⟨ascii "LPOP", cmdLpop, -2, 1⟩ :=
  find_of_getElem (n := 2) listTable (by simp [tables]) rfl rfl

variable [CaseTable]

variable (F k i) in
/-- The call as an operation on the queue under the key. -/
def Call.queueOp (c : Call) : Option QueueOp :=
  if c.db = i ∧ (CommandContext.mk c.args i).argBytes 1 = some k then
    match resolve (F := F) c.args with
    | .run e =>
      if e.name = ascii "RPUSH" then
        match (CommandContext.mk c.args i).argsBytes 2 with
        | some (value :: values) => some (.push (value :: values))
        | _ => none
      else if e.name = ascii "LPOP" ∧ c.args.length = 2 then some .pop
      else none
    | .reply _ _ => none
  else none

theorem Call.queueOp_cases {c : Call} {o : QueueOp} (h : c.queueOp F k i = some o) :
    c.db = i ∧ (CommandContext.mk c.args i).argBytes 1 = some k ∧
      ((∃ values, o = .push values ∧ (CommandContext.mk c.args i).argsBytes 2 = some values ∧
          values ≠ [] ∧ resolve c.args = .run ⟨ascii "RPUSH", cmdRpush (F := F), -3, 1⟩) ∨
        (o = .pop ∧ c.args.length = 2 ∧
          resolve c.args = .run ⟨ascii "LPOP", cmdLpop (F := F), -2, 1⟩)) := by
  rw [Call.queueOp] at h
  split at h
  · next hkey =>
    refine ⟨hkey.1, hkey.2, ?_⟩
    cases hres : resolve (F := F) c.args with
    | reply data keepAlive =>
      rw [hres] at h
      cases h
    | run e =>
      rw [hres] at h
      dsimp only at h
      have hfind := (resolve_run hres).1
      split at h
      · next hname =>
        rw [hname, find_rpush] at hfind
        cases hfind
        split at h
        · next hvalues =>
          cases h
          exact .inl ⟨_, rfl, hvalues, cons_ne_nil _ _, rfl⟩
        · cases h
      · split at h
        · next hname =>
          cases h
          rw [hname.1, find_lpop] at hfind
          cases hfind
          exact .inr ⟨rfl, hname.2, rfl⟩
        · cases h
  · cases h

variable {steady : Prop} {store s : EngineShard F} {calls : List Call}

theorem perform_leaves {args : List RespExpr} {e : CommandEntry F} {now : UInt64} {reply : Bytes}
    {c : Cell F} {ω : Listing Bytes} (hres : resolve args = .run e)
    (h : Leaves ω (e.handler ⟨args, i⟩)
      ⟨(s.updateTime now).dbSlice, ⟨i⟩⟩ reply
        (Function.update (s.updateTime now).dbSlice.cell (i, k) c)) :
    (s.perform ω now i args).reply = some reply ∧
    (s.perform ω now i args).shard.dbSlice.cell (i, k) = c := by
  have hleaves : (s.perform ω now i args).reply = some reply ∧ _ = _ := dispatch_leaves hres h
  exact ⟨hleaves.1, (congrFun hleaves.2 _).trans (Function.update_self ..)⟩

/-- A call on the queue does to the store what the operation does to the queue. -/
theorem perform_queueOp {c : Call} {o : QueueOp} (h : c.queueOp F k i = some o)
    (hcell : s.dbSlice.cell (i, k) = queueCell queue) (ω : Listing Bytes) :
    (s.perform ω c.now c.db c.args).reply = some (o.reply queue) ∧
      (s.perform ω c.now c.db c.args).shard.dbSlice.cell (i, k) = queueCell (o.next queue) := by
  have hlive : ((s.updateTime c.now).dbSlice.cell (i, k)).live c.now = queueCell queue := by
    change (s.dbSlice.cell (i, k)).live c.now = _
    rw [hcell]
    cases queue <;> rfl
  obtain ⟨rfl, hkey, ⟨values, rfl, hvalues, hne, hres⟩ | ⟨rfl, hlength, hres⟩⟩ :=
    Call.queueOp_cases h
  · exact perform_leaves hres (rpush_leaves ω hkey hvalues hne hlive)
  · exact perform_leaves hres (lpop_leaves ω hkey hlength hlive)

/-! ## Whole runs -/

variable (F k i) in
/-- What the calls push, one after another. -/
def pushedBy (calls : List Call) :
    List Bytes := (calls.filterMap (Call.queueOp F k i)).flatMap QueueOp.values

variable (F k i) in
/-- The replies to the calls that pop. -/
def popReplies (calls : List Call) : List (Option Bytes) :=
  (calls.filter fun c => c.queueOp F k i = some .pop).map Call.reply

theorem pushedBy_concat (calls : List Call) (c : Call) :
    pushedBy F k i (calls ++ [c]) =
    pushedBy F k i calls ++ ((c.queueOp F k i).map QueueOp.values).getD [] := by
  rw [pushedBy, filterMap_append, flatMap_append]
  cases hop : c.queueOp F k i <;> simp [pushedBy, hop]

theorem popReplies_concat (calls : List Call) (c : Call) : popReplies F k i (calls ++ [c]) =
    popReplies F k i calls ++ if c.queueOp F k i = some .pop then [c.reply] else [] := by
  rw [popReplies, filter_append, map_append, filter_singleton]
  by_cases hpop : c.queueOp F k i = some .pop <;> simp [popReplies, hpop]

variable (F k i) in
/-- The answers to the calls that pop, and then what is left in the cell, are what was pushed. -/
def HandsOut (calls : List Call) (c : Cell F) : Prop :=
  ∃ (answers : List (Option Bytes)) (left : List Bytes), c = queueCell left ∧
    popReplies F k i calls = answers.map (fun a => some (sendOptional a)) ∧
    answers.filterMap id ++ left = pushedBy F k i calls

theorem Serial.handsOut (h : Serial steady store calls s)
    (hempty : store.dbSlice.cell (i, k) = Cell.empty)
    (hcalls : ∀ c ∈ calls, (c.queueOp F k i).isSome = true ∨ Avoids F (i, k) c.db c.args) :
    HandsOut F k i calls (s.dbSlice.cell (i, k)) := by
  have hdeadline : ∀ queue : List Bytes, (queueCell queue : Cell F).2 = none :=
    fun queue => by cases queue <;> rfl
  induction h with
  | start => exact ⟨[], [], hempty, rfl, rfl⟩
  | @idle calls s s' now h hclock hpurges ih =>
    obtain ⟨answers, left, hcell, hrest⟩ := ih hcalls
    refine ⟨answers, left, ?_, hrest⟩
    exact (Cell.Lapses.eq (hpurges.cell (i, k)) (hcell ▸ hdeadline left)).trans hcell
  | @call calls s id db now args ω h hclock ih =>
    obtain ⟨answers, left, hcell, hreplies, hpushed⟩ :=
      ih fun c hc => hcalls c (mem_append_left _ hc)
    have hlast := hcalls _ (mem_append_right _ mem_cons_self)
    generalize hc : (⟨id, db, now, args, (s.perform ω now db args).reply⟩ : Call) = c at hlast
    rw [HandsOut, pushedBy_concat, popReplies_concat, ← hpushed, hreplies]
    cases hop : c.queueOp F k i with
    | none =>
      rw [hop] at hlast
      have hsame := hlast.resolve_left Bool.false_ne_true ω (s.updateTime c.now)
      subst hc
      refine ⟨answers, left, (Cell.Lapses.eq hsame (hcell ▸ hdeadline left)).trans hcell, ?_, ?_⟩
      · rw [if_neg (by rintro ⟨⟩), append_nil]
      · exact (append_nil _).symm
    | some o =>
      obtain ⟨hreply, hafter⟩ := perform_queueOp hop hcell ω
      subst hc
      cases o with
      | push values =>
        refine ⟨answers, left ++ values, hafter, ?_, (append_assoc ..).symm⟩
        rw [if_neg (by rintro ⟨⟩), append_nil]
      | pop =>
        refine ⟨answers ++ [left.head?], left.tail, hafter, ?_, ?_⟩
        · rw [if_pos rfl, map_append]
          exact congrArg (fun r => _ ++ [r]) hreply
        · rw [filterMap_append, append_assoc]
          cases left <;> simp [QueueOp.values]

end Calls

/-- Clients use a list as a queue, and no other command writes its key. Then the answers to the
`LPOP`s, in the order in which the shard of the key ran them, followed by what is left in the
list, are the values of the `RPUSH`es in the order in which it ran those. -/
theorem Server.queue_hands_out {F C : Type} {n : Nat} [F64 F] [HashOrder] [CaseTable] [NeZero n]
    [DecidableEq C] {steady : Prop} {cluster : Cluster F n} {τ : List (Event C n)}
    {σ : Server F C n} (hrun : (Server.serving cluster).Runs steady τ σ) {k : Bytes} {i : DbIndex}
    (hempty : (cluster (shard k n)).dbSlice.cell (i, k) = Cell.empty)
    (hcalls : ∀ call ∈ callsOn (shard k n) τ,
      (call.queueOp F k i).isSome = true ∨ Avoids F (i, k) call.db call.args) :
    HandsOut F k i (callsOn (shard k n) τ) ((σ.shards (shard k n)).dbSlice.cell (i, k)) :=
  (hrun.serial (shard k n)).handsOut hempty hcalls

section Fixed

attribute [local instance] F64.whole CaseTable.identity HashOrder.arbitrary neZeroTwo

def pushLine : List RespExpr := command ["RPUSH", "a", "x", "y"]

def popLine : List RespExpr := command ["LPOP", "a"]

theorem resolve_pushLine : resolve pushLine = .run ⟨ascii "RPUSH", cmdRpush (F := Int), -3, 1⟩ :=
  resolve_string find_rpush (by decide)

theorem resolve_popLine : resolve popLine = .run ⟨ascii "LPOP", cmdLpop (F := Int), -2, 1⟩ :=
  resolve_string find_lpop (by decide)

theorem queueOp_pushLine (id : Nat) (now : UInt64) (reply : Option Bytes) :
    Call.queueOp Int (ascii "a") 0 ⟨id, 0, now, pushLine, reply⟩ =
    some (.push [ascii "x", ascii "y"]) := by
  rw [Call.queueOp, if_pos ⟨rfl, rfl⟩, resolve_pushLine]
  rfl

theorem queueOp_popLine (id : Nat) (now : UInt64) (reply : Option Bytes) :
    Call.queueOp Int (ascii "a") 0 ⟨id, 0, now, popLine, reply⟩ = some .pop := by
  rw [Call.queueOp, if_pos ⟨rfl, rfl⟩, resolve_popLine]
  rfl

theorem dispatchCommand_line {args : List RespExpr} {e : CommandEntry Int}
    (hres : resolve args = .run e) (hkey : keyAt args 1 = ascii "a")
    (hclass : classifyCommand e.name e.firstKey = .singleKey ∧ keySpec e.name e.firstKey ≠ .all)
    (home : Fin 2) :
    ShardThread.dispatchCommand Int home args = .run (shard (ascii "a") 2) args := by
  refine dispatchCommand_of_singleKey ?_ home
  rw [singleKey, hres, ← hkey]
  exact if_pos ⟨hclass.1, fun hall => absurd hall hclass.2⟩

/-- Two values are pushed and the first of them is popped, by a client of the other shard. -/
theorem Server.queue_hands_out_first : ∃ (τ : List (Event Bool 2)) (σ : Server Int Bool 2),
    (Server.serving fun _ => .new).Runs True τ σ ∧
      pushedBy Int (ascii "a") 0 (callsOn (shard (ascii "a") 2) τ) = [ascii "x", ascii "y"] ∧
      popReplies Int (ascii "a") 0 (callsOn (shard (ascii "a") 2) τ) =
        [some (sendBulkString (ascii "x"))] ∧
      HandsOut Int (ascii "a") 0 (callsOn (shard (ascii "a") 2) τ)
        ((σ.shards (shard (ascii "a") 2)).dbSlice.cell (0, ascii "a")) := by
  have hnew : (EngineShard.new : EngineShard Int).dbSlice.cell (0, ascii "a") = queueCell [] := rfl
  obtain ⟨hpushed, hcell⟩ := perform_queueOp (queueOp_pushLine 0 0 none) hnew (.arbitrary Bytes)
  have hfirst := runs_line .new 0 (dispatchCommand_line resolve_pushLine rfl (by decide) _) hpushed
  obtain ⟨hpopped, -⟩ := perform_queueOp (queueOp_popLine 1 _ none) hcell (.arbitrary Bytes)
  have hsecond := runs_line _ 1 (dispatchCommand_line resolve_popLine rfl (by decide) _) hpopped
  have hrun := (runs_serving.trans hfirst).trans hsecond
  refine ⟨_, _, hrun, ?_, ?_, Server.queue_hands_out hrun rfl ?_⟩
  · simp [callsOn, pushedBy, queueOp_pushLine, queueOp_popLine, QueueOp.values]
  · have hreply : QueueOp.reply (QueueOp.next [] (.push [ascii "x", ascii "y"])) .pop =
        sendBulkString (ascii "x") := rfl
    simp [callsOn, popReplies, queueOp_pushLine, queueOp_popLine, hreply]
  · simp [callsOn, queueOp_pushLine, queueOp_popLine]

end Fixed

end ShrikeDb
