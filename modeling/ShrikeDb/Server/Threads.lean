import ShrikeDb.Server.Expiry
import ShrikeDb.Server.Loading

/-! The server as a system of processes: the main thread that hands out the dump and then
listens, the shard threads that take their next message by a biased `select!`
(`run_shard_thread`), and the connections on them, which carry out one command after another
(`handle_connection`, `dispatch_command`). A command is run in parts, each next to the
connection if its shard is the connection's own, and otherwise by a task in the queue of the
other shard. A thread that panics takes its queues and its connections with it. -/

namespace ShrikeDb

open CommandRegistry Sharding ReplyBuilder Function ShardThread List

variable {F C : Type} {n : Nat}

/-! ## States -/

/-- A task for another shard. `client`, `id` and `index` stand for the channel of the reply:
the part of the command that waits for it. -/
structure CrossShardTask (C : Type) where
  args : List RespExpr
  dbIndex : DbIndex
  client : C
  id : Nat
  index : Nat

def CrossShardTask.ticket (task : CrossShardTask C) : C × Nat := (task.client, task.index)

inductive Progress
  | unsent
  | sent
  | answered (reply : Option Bytes)

/-- A command for one shard, and how far it has got. -/
structure Part (n : Nat) where
  sub : Sub n
  progress : Progress

/-- A connection lives on its `home` shard; a busy one carries out the command `args`, the
`id`-th of all. -/
inductive Connection (n : Nat)
  | absent
  | queued
  | idle (home : Fin n) (db : DbIndex)
  | busy (home : Fin n) (db : DbIndex) (id : Nat) (args : List RespExpr) (parts : List (Part n))
  | closed

/-- The reply to a part arrives; nobody may be there to take it. -/
def Connection.answer (id index : Nat) (reply : Option Bytes) : Connection n → Connection n
  | .busy home db id' args parts =>
    if id' = id then .busy home db id' args (parts.modify index fun part =>
      ⟨part.sub, .answered reply⟩)
    else .busy home db id' args parts
  | conn => conn

/-- `unsent` are the entries of the dump that the main thread has not sent yet. -/
structure Server (F C : Type) (n : Nat) where
  shards : Cluster F n
  stopped : Fin n → Bool
  cross : Fin n → List (CrossShardTask C)
  control : Fin n → List (List (LoadEntry F))
  incoming : Fin n → List C
  conns : C → Connection n
  unsent : Fin n → List (LoadEntry F)
  listening : Bool
  issued : Nat

/-- What the clients and the shards see: a command arrives, one of its parts was run, and the
reply goes out. -/
inductive Event (C : Type) (n : Nat)
  | issued (client : C) (id : Nat) (db : DbIndex) (args : List RespExpr)
  | ran (shard : Fin n) (id : Nat) (db : DbIndex) (now : UInt64) (args : List RespExpr)
      (reply : Option Bytes)
  | delivered (client : C) (id : Nat) (args : List RespExpr) (reply : Bytes)

variable (entries : List (Persistence.RdbEntry F))

def Server.start [NeZero n] : Server F C n where
  shards _ := .new
  stopped _ := false
  cross _ := []
  control _ := []
  incoming _ := []
  conns _ := .absent
  unsent := EngineShardSet.distribute n entries
  listening := false
  issued := 0

/-! ## Steps -/

/-- The reply to a command whose parts have been answered, and the database the connection is
on afterwards; `none` closes it. The parts run on the connection's own thread have left it on
`db`. -/
inductive Plan.Replies : Plan n → List (Sub n × Option Bytes) → DbIndex → Bytes → Option DbIndex →
    Prop
  | reply {data : Bytes} {keepAlive : Bool} {db : DbIndex} :
      Replies (.reply data keepAlive) [] db data (if keepAlive then some db else none)
  | select {i db : DbIndex} : Replies (.select i) [] db sendOk (some i)
  | run {target : Fin n} {args : List RespExpr} {sub : Sub n} {reply : Option Bytes}
      {db : DbIndex} : Replies (.run target args) [(sub, reply)] db
        (reply.getD (sendErr (ascii "shard unavailable"))) (some db)
  /-- The replies are awaited in the order `awaited`. -/
  | fan {subs : List (Sub n)} {merge : Merge n} {parts awaited : List (Sub n × Option Bytes)}
      {db : DbIndex} (h : awaited.Perm parts) :
      Replies (.fan subs merge) parts db (merge.apply awaited) (some db)

section Steps

variable [F64 F] [HashOrder] [CaseTable]

/-- A command of a shard at time `now`. -/
def EngineShard.perform (sh : EngineShard F) (ω : Listing Bytes) (now : UInt64) (db : DbIndex)
    (args : List RespExpr) : Dispatched F :=
  dispatch ω args ⟨db⟩ (sh.updateTime now)

/-- The background task after 100 ms: every database that is not empty is swept. -/
def EngineShard.expiryTick (sh : EngineShard F) (ω : DbIndex → Listing Bytes) (now : UInt64) :
    EngineShard F :=
  (finRange 16).foldl (fun sh i => if sh.dbSlice.dbSize i > 0 then sh.expireSweep (ω i) i 20
    else sh) (sh.updateTime now)

variable [NeZero n] [DecidableEq C]

/-- One step. If `steady` holds, no shard sees the clock go back. -/
inductive Server.Step (steady : Prop) (σ : Server F C n) : List (Event C n) → Server F C n → Prop
  -- the main thread
  | sendLoad {s : Fin n} (hunsent : σ.unsent s ≠ []) (hup : σ.stopped s = false) :
      Step steady σ [] { σ with
        unsent := update σ.unsent s []
        control := update σ.control s (σ.control s ++ [σ.unsent s]) }
  | listen (hsent : ∀ s, σ.unsent s = []) : Step steady σ [] { σ with listening := true }
  | connect {s : Fin n} {c : C} (hlisten : σ.listening = true) (hup : σ.stopped s = false)
      (hconn : σ.conns c = .absent) :
      Step steady σ [] { σ with
        conns := update σ.conns c .queued
        incoming := update σ.incoming s (σ.incoming s ++ [c]) }
  -- the loop of a shard, in the order of its `select!`
  | take {s : Fin n} {task : CrossShardTask C} {tasks : List (CrossShardTask C)} {now : UInt64}
      {ω : Listing Bytes} {data : Bytes} (hup : σ.stopped s = false)
      (hcross : σ.cross s = task :: tasks) (hclock : steady → (σ.shards s).dbSlice.nowMs ≤ now)
      (hreply : ((σ.shards s).perform ω now task.dbIndex task.args).reply = some data) :
      Step steady σ [.ran s task.id task.dbIndex now task.args (some data)] { σ with
        cross := update σ.cross s tasks
        shards := update σ.shards s ((σ.shards s).perform ω now task.dbIndex task.args).shard
        conns := update σ.conns task.client
          ((σ.conns task.client).answer task.id task.index (some data)) }
  | load {s : Fin n} {entries : List (LoadEntry F)} {loads : List (List (LoadEntry F))}
      {now : UInt64} {sh : EngineShard F} (hup : σ.stopped s = false) (hcross : σ.cross s = [])
      (hcontrol : σ.control s = entries :: loads)
      (hclock : steady → (σ.shards s).dbSlice.nowMs ≤ now)
      (hload : (σ.shards s).loadEntries now entries = some sh) :
      Step steady σ [] { σ with
        control := update σ.control s loads
        shards := update σ.shards s sh }
  | accept {s : Fin n} {c : C} {clients : List C} (hup : σ.stopped s = false)
      (hcross : σ.cross s = []) (hcontrol : σ.control s = [])
      (hincoming : σ.incoming s = c :: clients) (hconn : σ.conns c = .queued) :
      Step steady σ [] { σ with
        incoming := update σ.incoming s clients
        conns := update σ.conns c (.idle s 0) }
  -- a task or a load that panics ends the thread
  | stop {s : Fin n} {now : UInt64} (hup : σ.stopped s = false)
      (hpanic : (∃ task tasks ω, σ.cross s = task :: tasks ∧
          ((σ.shards s).perform ω now task.dbIndex task.args).reply = none) ∨
        ∃ entries loads, σ.cross s = [] ∧ σ.control s = entries :: loads ∧
          (σ.shards s).loadEntries now entries = none) :
      Step steady σ [] { σ with
        stopped := update σ.stopped s true
        cross := update σ.cross s [] }
  -- the background task of a shard
  | tick {s : Fin n} {now : UInt64} (hup : σ.stopped s = false)
      (hclock : steady → (σ.shards s).dbSlice.nowMs ≤ now) :
      Step steady σ [] { σ with shards := update σ.shards s ((σ.shards s).updateTime now) }
  | expiry {s : Fin n} {now : UInt64} {ω : DbIndex → Listing Bytes} (hup : σ.stopped s = false)
      (hclock : steady → (σ.shards s).dbSlice.nowMs ≤ now) :
      Step steady σ [] { σ with shards := update σ.shards s ((σ.shards s).expiryTick ω now) }
  -- a connection
  | issue {c : C} {home : Fin n} {db : DbIndex} {args : List RespExpr}
      (hup : σ.stopped home = false) (hconn : σ.conns c = .idle home db) :
      Step steady σ [.issued c σ.issued db args] { σ with
        conns := update σ.conns c (.busy home db σ.issued args
          ((dispatchCommand F home args).commands.map fun sub => ⟨sub, .unsent⟩))
        issued := σ.issued + 1 }
  -- the handler is given the connection itself, and may select another database
  | runLocal {c : C} {home : Fin n} {db : DbIndex} {id : Nat} {args : List RespExpr}
      {parts : List (Part n)} {index : Nat} {sub : Sub n} {now : UInt64} {ω : Listing Bytes}
      {data : Bytes} (hup : σ.stopped home = false)
      (hconn : σ.conns c = .busy home db id args parts)
      (hpart : parts[index]? = some ⟨sub, .unsent⟩) (hlocal : sub.target = home)
      (hclock : steady → (σ.shards home).dbSlice.nowMs ≤ now)
      (hreply : ((σ.shards home).perform ω now db sub.args).reply = some data) :
      Step steady σ [.ran home id db now sub.args (some data)] { σ with
        shards := update σ.shards home ((σ.shards home).perform ω now db sub.args).shard
        conns := update σ.conns c
          (.busy home ((σ.shards home).perform ω now db sub.args).conn.dbIndex id args
            (parts.set index ⟨sub, .answered (some data)⟩)) }
  -- only the connection is lost if a part panics next to it
  | drop {c : C} {home : Fin n} {db : DbIndex} {id : Nat} {args : List RespExpr}
      {parts : List (Part n)} {index : Nat} {sub : Sub n} {now : UInt64} {ω : Listing Bytes}
      (hup : σ.stopped home = false) (hconn : σ.conns c = .busy home db id args parts)
      (hpart : parts[index]? = some ⟨sub, .unsent⟩) (hlocal : sub.target = home)
      (hclock : steady → (σ.shards home).dbSlice.nowMs ≤ now)
      (hreply : ((σ.shards home).perform ω now db sub.args).reply = none) :
      Step steady σ [.ran home id db now sub.args none] { σ with
        shards := update σ.shards home ((σ.shards home).perform ω now db sub.args).shard
        conns := update σ.conns c .closed }
  -- the part of the own shard comes first
  | send {c : C} {home : Fin n} {db : DbIndex} {id : Nat} {args : List RespExpr}
      {parts : List (Part n)} {index : Nat} {sub : Sub n} (hup : σ.stopped home = false)
      (hconn : σ.conns c = .busy home db id args parts)
      (hpart : parts[index]? = some ⟨sub, .unsent⟩) (hremote : sub.target ≠ home)
      (htarget : σ.stopped sub.target = false)
      (hlocals : ∀ part ∈ parts, part.sub.target = home → ∃ reply,
      part.progress = .answered reply) :
      Step steady σ [] { σ with
        cross := update σ.cross sub.target (σ.cross sub.target ++ [⟨sub.args, db, c, id, index⟩])
        conns := update σ.conns c (.busy home db id args (parts.set index ⟨sub, .sent⟩)) }
  | unavailable {c : C} {home : Fin n} {db : DbIndex} {id : Nat} {args : List RespExpr}
      {parts : List (Part n)} {index : Nat} {sub : Sub n} {progress : Progress}
      (hup : σ.stopped home = false) (hconn : σ.conns c = .busy home db id args parts)
      (hpart : parts[index]? = some ⟨sub, progress⟩)
      (hprogress : progress = .unsent ∨ progress = .sent) (htarget : σ.stopped sub.target = true) :
      Step steady σ [] { σ with
        conns := update σ.conns c (.busy home db id args (parts.set index ⟨sub, .answered none⟩)) }
  | deliver {c : C} {home : Fin n} {db : DbIndex} {id : Nat} {args : List RespExpr}
      {answers : List (Sub n × Option Bytes)} {reply : Bytes} {next : Option DbIndex}
      (hup : σ.stopped home = false)
      (hconn : σ.conns c = .busy home db id args (answers.map fun a => ⟨a.1, .answered a.2⟩))
      (hreply : (dispatchCommand F home args).Replies answers db reply next) :
      Step steady σ [.delivered c id args reply] { σ with
        conns := update σ.conns c ((next.map (.idle home)).getD .closed) }

/-- A run of the server and what is seen of it. -/
inductive Server.Runs (steady : Prop) (σ : Server F C n) : List (Event C n) → Server F C n → Prop
  | refl : Runs steady σ [] σ
  | step {τ events : List (Event C n)} {σ' σ'' : Server F C n} (h : Runs steady σ τ σ')
      (hstep : σ'.Step steady events σ'') : Runs steady σ (τ ++ events) σ''

end Steps

/-! ## Tasks and the parts that wait for them -/

theorem Part.map_sub_set {parts : List (Part n)} {index : Nat} {sub : Sub n} {p : Progress}
    (h : parts[index]? = some ⟨sub, p⟩) (p' : Progress) :
    (parts.set index ⟨sub, p'⟩).map Part.sub = parts.map Part.sub := by
  refine ext_getElem? fun i => ?_
  rw [getElem?_map, getElem?_map, getElem?_set]
  by_cases hi : index = i
  · subst hi
    obtain ⟨hlt, -⟩ := List.getElem?_eq_some_iff.mp h
    rw [if_pos rfl, if_pos hlt, h]
    rfl
  · rw [if_neg hi]

theorem Connection.answer_busy {home : Fin n} {db : DbIndex} {id index : Nat} {args : List RespExpr}
    {parts : List (Part n)} {sub : Sub n} {p : Progress} (h : parts[index]? = some ⟨sub, p⟩)
    (reply : Option Bytes) :
    (Connection.busy home db id args parts).answer id index reply =
      .busy home db id args (parts.set index ⟨sub, .answered reply⟩) := by
  rw [answer, if_pos rfl]
  refine congrArg _ (ext_getElem? fun i => ?_)
  rw [getElem?_modify, getElem?_set]
  by_cases hi : index = i
  · subst hi
    obtain ⟨hlt, -⟩ := List.getElem?_eq_some_iff.mp h
    rw [if_pos rfl, if_pos hlt, h, Option.map_eq_map, Option.map_some, if_pos rfl]
  · simp only [if_neg hi, Option.map_eq_map, Option.map_id']

section Consistent

variable [F64 F] [HashOrder] [CaseTable] [NeZero n]

/-- Every task in a queue belongs to one part of a busy connection that waits for it. -/
structure Server.Consistent (σ : Server F C n) : Prop where
  parts : ∀ {c home db id args parts}, σ.conns c = .busy home db id args parts →
    parts.map Part.sub = (dispatchCommand F home args).commands
  order : ∀ {c home db id args parts}, σ.conns c = .busy home db id args parts →
    ∀ waiting ∈ parts, waiting.progress = .sent →
      ∀ part ∈ parts, part.sub.target = home → ∃ reply, part.progress = .answered reply
  tasks : ∀ {s task}, task ∈ σ.cross s → ∃ home args parts sub,
    σ.conns task.client = .busy home task.dbIndex task.id args parts ∧
      parts[task.index]? = some ⟨sub, .sent⟩ ∧ sub.target = s ∧ sub.args = task.args
  tickets : ∀ s, ((σ.cross s).map CrossShardTask.ticket).Nodup
  stopped : ∀ {s}, σ.stopped s = true → σ.cross s = []

theorem Server.consistent_start :
    (Server.start entries : Server F C n).Consistent where
  parts h := nomatch h
  order h := nomatch h
  tasks h := nomatch h
  tickets _ := nodup_nil
  stopped _ := rfl

namespace Server.Consistent

variable {σ σ' : Server F C n} {c : C} {s home : Fin n} {db : DbIndex} {id index : Nat}
  {args : List RespExpr} {parts : List (Part n)} {sub : Sub n} {p : Progress}
  {task : CrossShardTask C}

/-- Nothing is in the queues for a client of which no part waits. -/
theorem client_ne (h : σ.Consistent)
    (hc : ∀ home db id args parts, σ.conns c = .busy home db id args parts →
      ∀ part ∈ parts, part.progress ≠ .sent) (ht : task ∈ σ.cross s) : task.client ≠ c := by
  rintro rfl
  obtain ⟨home, args, parts, sub, hconn, hpart, -⟩ := h.tasks ht
  exact hc _ _ _ _ _ hconn _ (mem_of_getElem? hpart) rfl

variable [DecidableEq C]

/-- A connection of which no part waits goes over to another state in which none does. -/
theorem setConn (h : σ.Consistent) {conn : Connection n}
    (hc : ∀ home db id args parts, σ.conns c = .busy home db id args parts →
      ∀ part ∈ parts, part.progress ≠ .sent)
    (hconn : ∀ home db id args parts, conn = .busy home db id args parts →
      parts.map Part.sub = (dispatchCommand F home args).commands ∧
        ∀ part ∈ parts, part.progress ≠ .sent) (hconns : σ'.conns = update σ.conns c conn)
    (hcross : σ'.cross = σ.cross) (hstopped : σ'.stopped = σ.stopped) : σ'.Consistent where
  parts := by
    intro c' home db id args parts hbusy
    rw [hconns] at hbusy
    by_cases hcc : c' = c
    · rw [hcc, update_self] at hbusy
      exact (hconn _ _ _ _ _ hbusy).1
    · rw [update_of_ne hcc] at hbusy
      exact h.parts hbusy
  order := by
    intro c' home db id args parts hbusy waiting hwaiting hsent
    rw [hconns] at hbusy
    by_cases hcc : c' = c
    · rw [hcc, update_self] at hbusy
      exact absurd hsent ((hconn _ _ _ _ _ hbusy).2 waiting hwaiting)
    · rw [update_of_ne hcc] at hbusy
      exact h.order hbusy waiting hwaiting hsent
  tasks := by
    intro s task ht
    rw [hcross] at ht
    rw [hconns, update_of_ne (h.client_ne hc ht)]
    exact h.tasks ht
  tickets := by
    intro s
    rw [hcross]
    exact h.tickets s
  stopped := by
    intro s hs
    rw [hstopped] at hs
    rw [hcross]
    exact h.stopped hs

/-- One part of a command is sent or answered. -/
theorem setPart (h : σ.Consistent) {p' : Progress} (hconn : σ.conns c = .busy home db id args parts)
    (hpart : parts[index]? = some ⟨sub, p⟩)
    (hsent : (p' = .sent ∧ sub.target ≠ home ∧ ∀ part ∈ parts, part.sub.target = home →
      ∃ reply, part.progress = .answered reply) ∨ ∃ reply, p' = .answered reply)
    (hconns : σ'.conns = update σ.conns c (.busy home db id args (parts.set index ⟨sub, p'⟩)))
    (hcross : ∀ s task, task ∈ σ'.cross s → (task ∈ σ.cross s ∧ task.ticket ≠ (c, index)) ∨
      (p' = .sent ∧ s = sub.target ∧ task = ⟨sub.args, db, c, id, index⟩))
    (htickets : ∀ s, ((σ'.cross s).map CrossShardTask.ticket).Nodup)
    (hstopped : ∀ s, σ'.stopped s = true → σ'.cross s = []) : σ'.Consistent where
  parts := by
    intro c' home' db' id' args' parts' hbusy
    rw [hconns] at hbusy
    by_cases hcc : c' = c
    · rw [hcc, update_self] at hbusy
      cases hbusy
      rw [Part.map_sub_set hpart]
      exact h.parts hconn
    · rw [update_of_ne hcc] at hbusy
      exact h.parts hbusy
  order := by
    intro c' home' db' id' args' parts' hbusy waiting hwaiting hwaits part hmem hlocal
    rw [hconns] at hbusy
    by_cases hcc : c' = c
    · rw [hcc, update_self] at hbusy
      cases hbusy
      have hall : ∀ part ∈ parts, part.sub.target = home → ∃ reply,
          part.progress = .answered reply := by
        rcases mem_or_eq_of_mem_set hwaiting with hold | rfl
        · exact h.order hconn waiting hold hwaits
        · rcases hsent with ⟨-, -, hlocals⟩ | ⟨reply, rfl⟩
          · exact hlocals
          · cases hwaits
      rcases mem_or_eq_of_mem_set hmem with hold | rfl
      · exact hall part hold hlocal
      · exact hsent.elim (fun hs => absurd hlocal hs.2.1) fun ha => ha
    · rw [update_of_ne hcc] at hbusy
      exact h.order hbusy waiting hwaiting hwaits part hmem hlocal
  tasks := by
    intro s task ht
    rw [hconns]
    rcases hcross s task ht with ⟨hold, hne⟩ | ⟨rfl, rfl, rfl⟩
    · obtain ⟨home', args', parts', sub', hconn', hpart', htarget, hargs⟩ := h.tasks hold
      by_cases hcc : task.client = c
      · rw [hcc] at hconn' ⊢
        rw [hconn] at hconn'
        cases hconn'
        rw [update_self]
        have hindex : index ≠ task.index := fun hi => hne (Prod.ext hcc hi.symm)
        exact ⟨_, _, _, sub', rfl, by rw [getElem?_set_ne hindex, hpart'], htarget, hargs⟩
      · rw [update_of_ne hcc]
        exact ⟨_, _, _, sub', hconn', hpart', htarget, hargs⟩
    · rw [update_self]
      obtain ⟨hlt, -⟩ := List.getElem?_eq_some_iff.mp hpart
      exact ⟨_, _, _, sub, rfl, getElem?_set_self hlt, rfl, rfl⟩
  tickets := htickets
  stopped := by
    intro s hs
    exact hstopped s hs

omit [DecidableEq C] in
/-- No task waits for a part that is not sent, and none in the queue of another shard. -/
theorem ticket_ne (h : σ.Consistent) (hconn : σ.conns c = .busy home db id args parts)
    (hpart : parts[index]? = some ⟨sub, p⟩) (ht : task ∈ σ.cross s)
    (hp : p ≠ .sent ∨ sub.target ≠ s) : task.ticket ≠ (c, index) := by
  intro hticket
  obtain ⟨hclient, hindex⟩ := Prod.mk.inj hticket
  obtain ⟨home', args', parts', sub', hconn', hpart', htarget, -⟩ := h.tasks ht
  rw [hclient, hconn] at hconn'
  cases hconn'
  rw [hindex, hpart] at hpart'
  cases hpart'
  exact hp.elim (fun hp => hp rfl) fun hne => hne htarget

omit [DecidableEq C] in
/-- Nothing has been sent as long as a part of the own shard is left. -/
theorem progress_ne_sent (h : σ.Consistent) (hconn : σ.conns c = .busy home db id args parts)
    (hpart : parts[index]? = some ⟨sub, .unsent⟩) (hlocal : sub.target = home) :
    ∀ part ∈ parts, part.progress ≠ .sent := by
  intro part hmem hsent
  obtain ⟨reply, hanswered⟩ := h.order hconn part hmem hsent _ (mem_of_getElem? hpart) hlocal
  cases hanswered

theorem step {steady : Prop} {events : List (Event C n)} (h : σ.Consistent)
    (hstep : σ.Step steady events σ') : σ'.Consistent := by
  cases hstep with
  | sendLoad | listen | load | tick | expiry =>
    exact ⟨h.parts, h.order, h.tasks, h.tickets, h.stopped⟩
  | connect hlisten hup hconn =>
    refine h.setConn (fun home db id args parts hbusy => ?_) (fun _ _ _ _ _ hbusy => ?_) rfl rfl rfl
    · rw [hconn] at hbusy
      cases hbusy
    · cases hbusy
  | accept hup hcross hcontrol hincoming hconn =>
    refine h.setConn (fun home db id args parts hbusy => ?_) (fun _ _ _ _ _ hbusy => ?_) rfl rfl rfl
    · rw [hconn] at hbusy
      cases hbusy
    · cases hbusy
  | @take s task tasks now ω data hup hcross hclock hreply =>
    have hmem : task ∈ σ.cross s := hcross ▸ mem_cons_self
    have htickets := h.tickets s
    rw [hcross, map_cons, nodup_cons] at htickets
    obtain ⟨home, args, parts, sub, hconn, hpart, rfl, hargs⟩ := h.tasks hmem
    refine h.setPart hconn hpart (.inr ⟨_, rfl⟩) (by rw [hconn, Connection.answer_busy hpart])
      (fun s' task' ht' => .inl ?_) ?_ ?_
    · revert ht'
      refine (forall_update_iff σ.cross (p := fun s' q => task' ∈ q → task' ∈ σ.cross s' ∧
        task'.ticket ≠ task.ticket)).mpr ⟨fun ht' => ?_, fun s' hs ht' => ?_⟩ s'
      · refine ⟨hcross ▸ mem_cons_of_mem _ ht', fun hticket => htickets.1 ?_⟩
        exact mem_map.mpr ⟨task', ht', hticket⟩
      · exact ⟨ht', h.ticket_ne hconn hpart ht' (.inr hs.symm)⟩
    · exact (forall_update_iff σ.cross (p := fun _ q =>
        (q.map CrossShardTask.ticket).Nodup)).mpr ⟨htickets.2, fun s' _ => h.tickets s'⟩
    · refine (forall_update_iff σ.cross (p := fun s' q => σ.stopped s' = true → q = [])).mpr
        ⟨fun hstopped => ?_, fun s' _ => h.stopped⟩
      rw [hup] at hstopped
      cases hstopped
  | @stop s now hup hpanic =>
    refine ⟨h.parts, h.order, fun {s' task} => ?_, ?_, fun {s'} hstopped => ?_⟩
    · exact (forall_update_iff σ.cross (p := fun s' q => task ∈ q → ∃ home args parts sub,
        σ.conns task.client = .busy home task.dbIndex task.id args parts ∧
          parts[task.index]? = some ⟨sub, .sent⟩ ∧ sub.target = s' ∧ sub.args = task.args)).mpr
        ⟨(fun ht => absurd ht not_mem_nil), fun s' _ => h.tasks⟩ s'
    · exact (forall_update_iff σ.cross (p := fun _ q =>
        (q.map CrossShardTask.ticket).Nodup)).mpr ⟨nodup_nil, fun s' _ => h.tickets s'⟩
    · by_cases hs : s' = s
      · rw [hs]
        exact update_self ..
      · change update σ.stopped s true s' = true at hstopped
        rw [update_of_ne hs] at hstopped
        exact (update_of_ne hs ..).trans (h.stopped hstopped)
  | issue hup hconn =>
    refine h.setConn (fun home db id args parts hbusy => ?_) (fun _ _ _ _ _ hbusy => ?_) rfl rfl rfl
    · rw [hconn] at hbusy
      cases hbusy
    · cases hbusy
      refine ⟨?_, fun part hpart => ?_⟩
      · rw [map_map]
        exact map_id _
      · obtain ⟨sub, -, rfl⟩ := mem_map.mp hpart
        exact Progress.noConfusion
  | runLocal hup hconn hpart hlocal hclock hreply =>
    have hnone := h.progress_ne_sent hconn hpart hlocal
    refine h.setConn (fun home db id args parts hbusy => ?_) (fun _ _ _ _ _ hbusy => ?_) rfl rfl rfl
    · rw [hconn] at hbusy
      cases hbusy
      exact hnone
    · cases hbusy
      refine ⟨(Part.map_sub_set hpart _).trans (h.parts hconn), fun part hmem => ?_⟩
      rcases mem_or_eq_of_mem_set hmem with hold | rfl
      · exact hnone part hold
      · exact Progress.noConfusion
  | drop hup hconn hpart hlocal hclock hreply =>
    refine h.setConn (fun home db id args parts hbusy => ?_) (fun _ _ _ _ _ hbusy => ?_) rfl rfl rfl
    · rw [hconn] at hbusy
      cases hbusy
      exact h.progress_ne_sent hconn hpart hlocal
    · cases hbusy
  | @send c home db id args parts index sub hup hconn hpart hremote htarget hlocals =>
    have hfresh :=
      fun {s task} (ht : task ∈ σ.cross s) => h.ticket_ne hconn hpart ht (.inl Progress.noConfusion)
    refine h.setPart hconn hpart (.inl ⟨rfl, hremote, hlocals⟩) rfl (fun s task ht => ?_)
      (fun s => ?_) fun s hstopped => ?_
    · revert ht
      refine (forall_update_iff σ.cross (p := fun s q => task ∈ q →
        (task ∈ σ.cross s ∧ task.ticket ≠ (c, index)) ∨
          (Progress.sent = .sent ∧ s = sub.target ∧ task = ⟨sub.args, db, c, id, index⟩))).mpr
        ⟨fun ht => ?_, fun s' _ ht => .inl ⟨ht, hfresh ht⟩⟩ s
      rw [mem_append, mem_singleton] at ht
      exact ht.imp (fun ht => ⟨ht, hfresh ht⟩) fun ht => ⟨rfl, rfl, ht⟩
    · refine (forall_update_iff σ.cross (p := fun _ q =>
        (q.map CrossShardTask.ticket).Nodup)).mpr ⟨?_, fun s' _ => h.tickets s'⟩ s
      rw [map_append, map_singleton]
      refine nodup_append.mpr ⟨h.tickets _, nodup_singleton _,
        fun ticket hticket ticket' hnew => ?_⟩
      obtain ⟨task, ht, rfl⟩ := mem_map.mp hticket
      rw [mem_singleton.mp hnew]
      exact hfresh ht
    · revert hstopped
      refine (forall_update_iff σ.cross (p := fun s' q => σ.stopped s' = true → q = [])).mpr
        ⟨fun hstopped => ?_, fun s' _ => h.stopped⟩ s
      rw [htarget] at hstopped
      cases hstopped
  | @unavailable c home db id args parts index sub progress hup hconn hpart hprogress htarget =>
    refine h.setPart hconn hpart (.inr ⟨_, rfl⟩) rfl (fun s task ht => .inl ⟨ht, ?_⟩) h.tickets
      fun _ => h.stopped
    refine h.ticket_ne hconn hpart ht (.inr ?_)
    rintro rfl
    rw [h.stopped htarget] at ht
    cases ht
  | @deliver c home db id args answers reply next hup hconn hreply =>
    refine h.setConn (fun home db id args parts hbusy part hmem => ?_)
      (fun _ _ _ _ _ hbusy => ?_) rfl rfl rfl
    · rw [hconn] at hbusy
      cases hbusy
      obtain ⟨answer, -, rfl⟩ := mem_map.mp hmem
      exact Progress.noConfusion
    · cases next <;> cases hbusy

end Server.Consistent

theorem Server.Consistent.runs [DecidableEq C] {steady : Prop} {σ σ' : Server F C n}
    {τ : List (Event C n)} (h : σ.Consistent) (hrun : σ.Runs steady τ σ') : σ'.Consistent := by
  induction hrun with
  | refl => exact h
  | step _ hstep ih => exact ih.step hstep

/-! ## What a step does to one shard -/

/-- A shard stays as it is, sees the clock and loses lapsed keys, loads entries, or runs a part
of a command that was sent to it. -/
inductive ShardChange (steady : Prop) (σ : Server F C n) (s : Fin n) : List (Event C n) →
    EngineShard F → Prop
  | same {events : List (Event C n)}
      (h : ∀ id db now args reply, .ran s id db now args reply ∉ events) :
      ShardChange steady σ s events (σ.shards s)
  | purged {now : UInt64} {sh : EngineShard F} (hclock : steady → (σ.shards s).dbSlice.nowMs ≤ now)
      (hpurges : DbSlice.Purges ((σ.shards s).updateTime now).dbSlice sh.dbSlice) :
      ShardChange steady σ s [] sh
  | loaded {entries : List (LoadEntry F)} {loads : List (List (LoadEntry F))} {now : UInt64}
      {sh : EngineShard F} (hcontrol : σ.control s = entries :: loads)
      (hload : (σ.shards s).loadEntries now entries = some sh) :
      ShardChange steady σ s [] sh
  | ran {home : Fin n} {args : List RespExpr} {sub : Sub n} {id : Nat} {db : DbIndex} {now : UInt64}
      {ω : Listing Bytes} (hroute : sub ∈ (dispatchCommand F home args).commands)
      (htarget : sub.target = s) (hclock : steady → (σ.shards s).dbSlice.nowMs ≤ now) :
      ShardChange steady σ s
      [.ran s id db now sub.args ((σ.shards s).perform ω now db sub.args).reply]
        ((σ.shards s).perform ω now db sub.args).shard

omit [F64 F] [HashOrder] [CaseTable] in
theorem EngineShard.purges_expiryTick (sh : EngineShard F) (ω : DbIndex → Listing Bytes)
    (now : UInt64) : DbSlice.Purges (sh.updateTime now).dbSlice (sh.expiryTick ω now).dbSlice := by
  rw [expiryTick]
  generalize sh.updateTime now = sh
  induction finRange 16 generalizing sh with
  | nil => exact .refl _
  | cons i rest ih =>
    rw [foldl_cons]
    split
    · exact (sh.dbSlice.purges_expireSweep i (ω i) 20).trans (ih (sh.expireSweep (ω i) i 20))
    · exact ih sh

namespace Server

variable {steady : Prop} {σ σ' : Server F C n} {events : List (Event C n)}

theorem change_update {s₀ : Fin n} {sh : EngineShard F} (hself : ShardChange steady σ s₀ events sh)
    (hother : ∀ s id db now args reply, .ran s id db now args reply ∈ events → s = s₀) (s : Fin n) :
    ShardChange steady σ s events (update σ.shards s₀ sh s) := by
  refine (forall_update_iff σ.shards (p := fun s sh => ShardChange steady σ s events sh)).mpr
    ⟨hself, fun s hs => .same fun id db now args reply hmem => ?_⟩ s
  exact hs (hother s id db now args reply hmem)

theorem Consistent.sub_mem (h : σ.Consistent) {c : C} {home : Fin n} {db : DbIndex} {id : Nat}
    {args : List RespExpr} {parts : List (Part n)} {part : Part n} {index : Nat}
    (hconn : σ.conns c = .busy home db id args parts) (hpart : parts[index]? = some part) :
    part.sub ∈ (dispatchCommand F home args).commands := by
  rw [← h.parts hconn]
  exact mem_map_of_mem (mem_of_getElem? hpart)

theorem Step.change [DecidableEq C] (h : σ.Consistent) (hstep : σ.Step steady events σ')
    (s : Fin n) : ShardChange steady σ s events (σ'.shards s) := by
  have hone : ∀ {s₀ : Fin n} {id db now args reply} (s : Fin n) (id' : Nat) (db' : DbIndex)
      (now' : UInt64) (args' : List RespExpr) (reply' : Option Bytes),
      Event.ran s id' db' now' args' reply' ∈ ([.ran s₀ id db now args reply] : List (Event C n)) →
      s = s₀ := by
    intro s₀ id db now args reply s id' db' now' args' reply' hmem
    cases mem_singleton.mp hmem
    rfl
  cases hstep with
  | sendLoad | listen | connect | accept | stop | send | unavailable =>
    exact .same fun _ _ _ _ _ hmem => absurd hmem not_mem_nil
  | issue | deliver =>
    refine .same fun _ _ _ _ _ hmem => ?_
    cases mem_singleton.mp hmem
  | load hup hcross hcontrol hclock hload =>
    exact change_update (.loaded hcontrol hload) (fun _ _ _ _ _ _ hmem => absurd hmem not_mem_nil) s
  | tick hup hclock =>
    exact change_update (.purged hclock (.refl _)) (fun _ _ _ _ _ _ hmem => absurd hmem not_mem_nil)
      s
  | expiry hup hclock =>
    exact change_update (.purged hclock ((σ.shards _).purges_expiryTick _ _))
      (fun _ _ _ _ _ _ hmem => absurd hmem not_mem_nil) s
  | take hup hcross hclock hreply =>
    obtain ⟨home, args, parts, sub, hconn, hpart, htarget, hargs⟩ :=
      h.tasks (hcross ▸ mem_cons_self)
    refine change_update ?_ hone s
    rw [← hreply, ← hargs]
    exact .ran (h.sub_mem hconn hpart) htarget hclock
  | runLocal hup hconn hpart hlocal hclock hreply | drop hup hconn hpart hlocal hclock hreply =>
    refine change_update ?_ hone s
    rw [← hreply]
    exact .ran (h.sub_mem hconn hpart) hlocal hclock

end Server

end Consistent

end ShrikeDb
