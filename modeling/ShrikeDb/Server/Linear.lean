import ShrikeDb.Lib.Service
import ShrikeDb.Server.Serial
import ShrikeDb.Server.Startup

/-! Commands on one key, issued by any number of connections. Those next to the shard of the key
run on it at once and the others wait in its queue; either way a command is run by this shard, at
most once, between its issue and its reply. The shard is one store that carries them out one
after another, in an order that extends the order of each connection and of the commands that
were answered before others were issued. -/

namespace ShrikeDb

open CommandRegistry Sharding ReplyBuilder Function ShardThread StringFamily List

variable {F C : Type} {n : Nat}

/-! ## What a run did -/

/-- What a shard ran, in this order. -/
def callsOn (s : Fin n) (τ : List (Event C n)) : List Call :=
  τ.filterMap fun
    | .ran s' id db now args reply => if s' = s then some ⟨id, db, now, args, reply⟩ else none
    | _ => none

theorem callsOn_append (s : Fin n) (τ τ' : List (Event C n)) :
    callsOn s (τ ++ τ') = callsOn s τ ++ callsOn s τ' :=
  filterMap_append

theorem mem_callsOn {s : Fin n} {τ : List (Event C n)} {call : Call} :
    call ∈ callsOn s τ ↔ .ran s call.id call.db call.now call.args call.reply ∈ τ := by
  rw [callsOn, mem_filterMap]
  constructor
  · rintro ⟨e, hmem, heq⟩
    cases e with
    | ran s' id db now args reply =>
      dsimp only at heq
      split at heq
      · next hs =>
        cases heq
        exact hs ▸ hmem
      · cases heq
    | _ => cases heq
  · exact fun hmem => ⟨_, hmem, if_pos rfl⟩

theorem callsOn_ran (s : Fin n) (id : Nat) (db : DbIndex) (now : UInt64) (args : List RespExpr)
    (reply : Option Bytes) :
    callsOn s [(.ran s id db now args reply : Event C n)] = [⟨id, db, now, args, reply⟩] := by
  simp [callsOn]

section SingleKey

variable (F) [F64 F] [HashOrder] [CaseTable] [NeZero n]

/-- The commands on the key alone, in the order its shard ran them. -/
def callsOf (k : Bytes) (τ : List (Event C n)) : List Call :=
  (callsOn (shard k n) τ).filter fun call => singleKey F call.args = some k

/-- What is seen of a command on the key alone. -/
def Event.moment (k : Bytes) :
    Event C n → Option (Nat × Service.Moment C (DbIndex × List RespExpr) (Option Bytes))
  | .issued c id db args =>
    if singleKey F args = some k then some (id, .invoked c (db, args)) else none
  | .ran s id db _ args reply =>
    if s = shard k n ∧ singleKey F args = some k then some (id, .performed (db, args) reply)
      else none
  | .delivered c id args reply =>
    if singleKey F args = some k then some (id, .returned c (some reply)) else none

/-- The course of the commands on the key alone. -/
def trace (k : Bytes) (τ : List (Event C n)) :
    Service.Trace Nat C (DbIndex × List RespExpr) (Option Bytes) :=
  τ.filterMap (Event.moment F k)

variable {F} {k : Bytes} {τ : List (Event C n)}

theorem performances_trace : Service.performances (trace F k τ) = (callsOf F k τ).map Call.id := by
  rw [Service.performances, trace, filterMap_filterMap, callsOf, callsOn, filter_filterMap,
    map_filterMap]
  refine filterMap_congr fun e _ => ?_
  cases e with
  | issued c id db args =>
    rw [Event.moment]
    split <;> rfl
  | delivered c id args reply =>
    rw [Event.moment]
    split <;> rfl
  | ran s id db now args reply =>
    rw [Event.moment]
    by_cases hs : s = shard k n
    · by_cases hk : singleKey F args = some k
      · simp [hs, hk, Option.filter]
      · simp [hs, hk, Option.filter]
    · simp [hs]

theorem mem_trace {id : Nat} {q : DbIndex × List RespExpr} {r : Option Bytes}
    (h : (id, .performed q r) ∈ trace F k τ) :
    ∃ call ∈ callsOf F k τ, call.id = id ∧ (call.db, call.args) = q ∧ call.reply = r := by
  obtain ⟨e, hmem, heq⟩ := mem_filterMap.mp h
  cases e with
  | ran s id' db now args reply =>
    rw [Event.moment] at heq
    split at heq
    · next hcond =>
      cases heq
      refine ⟨⟨id, db, now, args, r⟩, mem_filter.mpr ⟨mem_callsOn.mpr ?_, decide_eq_true hcond.2⟩,
        rfl, rfl, rfl⟩
      exact hcond.1 ▸ hmem
    · cases heq
  | _ =>
    rw [Event.moment] at heq
    split at heq <;> cases heq

theorem issued_of_trace {id : Nat} {c : C} {q : DbIndex × List RespExpr}
    (h : (id, .invoked c q) ∈ trace F k τ) : .issued c id q.1 q.2 ∈ τ := by
  obtain ⟨e, hmem, heq⟩ := mem_filterMap.mp h
  cases e with
  | issued c' id' db args =>
    rw [Event.moment] at heq
    split at heq
    · cases heq
      exact hmem
    · cases heq
  | _ =>
    rw [Event.moment] at heq
    split at heq <;> cases heq

end SingleKey

/-! ## The states of a command on the key -/

section Serves

variable [F64 F] [HashOrder] [CaseTable] [NeZero n]

/-- How far a command has got, if it is one on the key alone. -/
inductive Stage (F : Type) [F64 F] [HashOrder] [CaseTable] (k : Bytes) (halted : Bool) (c : C)
    (db : DbIndex) (args : List RespExpr) : List (Part n) →
    Service.Phase C (DbIndex × List RespExpr) (Option Bytes) → Prop
  | other {parts : List (Part n)} (h : singleKey F args ≠ some k) :
      Stage F k halted c db args parts .new
  | pending {progress : Progress} (h : singleKey F args = some k)
      (hprogress : progress = .unsent ∨ progress = .sent) :
      Stage F k halted c db args [⟨⟨shard k n, args, []⟩, progress⟩] (.waiting c (db, args))
  | refused (h : singleKey F args = some k) (hhalted : halted = true) :
      Stage F k halted c db args [⟨⟨shard k n, args, []⟩, .answered none⟩] (.waiting c (db, args))
  /-- The connection may have gone over to another database since. -/
  | served {data : Bytes} {ranOn : DbIndex} (h : singleKey F args = some k) :
      Stage F k halted c db args [⟨⟨shard k n, args, []⟩, .answered (some data)⟩]
        (.served c (ranOn, args) (some data))

/-- The connections and the calls of the commands on the key alone. -/
structure Server.Serves (k : Bytes) (σ : Server F C n)
    (φ : Nat → Service.Phase C (DbIndex × List RespExpr) (Option Bytes)) : Prop where
  fresh : ∀ id, σ.issued ≤ id → φ id = .new
  busy : ∀ {c home db id args parts}, σ.conns c = .busy home db id args parts →
    id < σ.issued ∧ Stage F k (σ.stopped (shard k n)) c db args parts (φ id)
  waiting : ∀ {c id q}, φ id = .waiting c q → ∃ home parts, σ.conns c = .busy home q.1 id q.2 parts

/-- The command a connection carries out. -/
def Connection.command : Connection n → Option Nat
  | .busy _ _ id _ _ => some id
  | _ => none

namespace Stage

variable {k : Bytes} {halted halted' : Bool} {c c' : C} {db db' : DbIndex}
  {args args' : List RespExpr}
  {parts parts' : List (Part n)} {p : Service.Phase C (DbIndex × List RespExpr) (Option Bytes)}

theorem mono (h : Stage F k halted c db args parts p) (himp : halted = true → halted' = true) :
    Stage F k halted' c db args parts p := by
  cases h with
  | other h => exact .other h
  | pending h hprogress => exact .pending h hprogress
  | refused h hhalted => exact .refused h (himp hhalted)
  | served h => exact .served h

/-- Two connections do not carry out the same command on the key. -/
theorem client_eq (h : Stage F k halted c db args parts p)
    (h' : Stage F k halted c' db' args' parts' p) (hkey : singleKey F args = some k) : c' = c := by
  cases h with
  | other h => exact absurd hkey h
  | pending | refused | served =>
    cases h'
    all_goals rfl

theorem of_waiting {q : DbIndex × List RespExpr}
    (h : Stage F k halted c db args parts (.waiting c' q)) : c' = c ∧ q = (db, args) := by
  cases h with
  | pending | refused => exact ⟨rfl, rfl⟩

end Stage

omit [F64 F] [HashOrder] [CaseTable] [NeZero n] in
theorem Part.eq_of_singleton {part part' : Part n} {index : Nat} (h : [part][index]? = some part') :
    index = 0 ∧ part' = part := by
  cases index with
  | zero =>
    cases h
    exact ⟨rfl, rfl⟩
  | succ index => cases h

/-- One connection goes over to another state. Commands are neither issued nor cut off. -/
structure Server.Sets [DecidableEq C] (σ : Server F C n) (c : C) (conn : Connection n)
    (σ' : Server F C n) : Prop where
  conns : σ'.conns = update σ.conns c conn
  issued : σ'.issued = σ.issued
  stopped : σ'.stopped = σ.stopped

/-- What a command on the key is refused with where the thread of its shard is gone. -/
def Server.Refuses (σ : Server F C n) (k : Bytes) (reply : Option Bytes) : Prop :=
  reply = some (sendErr (ascii "shard unavailable")) ∧ σ.stopped (shard k n) = true

namespace Server.Serves

variable {k : Bytes} {σ σ' : Server F C n}
  {φ : Nat → Service.Phase C (DbIndex × List RespExpr) (Option Bytes)}

/-- The connections stay as they are. -/
theorem keep (h : σ.Serves k φ) (hconns : σ'.conns = σ.conns) (hissued : σ'.issued = σ.issued)
    (hstopped : σ.stopped (shard k n) = true → σ'.stopped (shard k n) = true) : σ'.Serves k φ where
  fresh := hissued ▸ h.fresh
  busy := by
    intro c home db id args parts hconn
    rw [hconns] at hconn
    exact ⟨hissued ▸ (h.busy hconn).1, (h.busy hconn).2.mono hstopped⟩
  waiting := by
    rw [hconns]
    exact h.waiting

variable [DecidableEq C] {c : C} {conn : Connection n}

/-- A connection without a command goes over to another state without one. -/
theorem setIdle (h : σ.Serves k φ) (hidle : (σ.conns c).command = none)
    (hconn : conn.command = none) (hset : σ.Sets c conn σ') : σ'.Serves k φ where
  fresh := hset.issued ▸ h.fresh
  busy := by
    intro c' home db id args parts hbusy
    rw [hset.conns] at hbusy
    by_cases hc : c' = c
    · rw [hc, update_self] at hbusy
      rw [hbusy] at hconn
      cases hconn
    · rw [update_of_ne hc] at hbusy
      rw [hset.issued, hset.stopped]
      exact h.busy hbusy
  waiting := by
    intro c' id q hphase
    obtain ⟨home, parts, hbusy⟩ := h.waiting hphase
    refine ⟨home, parts, ?_⟩
    rw [hset.conns, update_of_ne, hbusy]
    rintro rfl
    rw [hbusy] at hidle
    cases hidle

variable {home : Fin n} {db : DbIndex} {args : List RespExpr} {parts : List (Part n)} {id : Nat}

/-- The next command is issued. -/
theorem setIssued (h : σ.Serves k φ) (hidle : (σ.conns c).command = none)
    {p : Service.Phase C (DbIndex × List RespExpr) (Option Bytes)}
    (hstage : Stage F k (σ.stopped (shard k n)) c db args parts p)
    (hconns : σ'.conns = update σ.conns c (.busy home db σ.issued args parts))
    (hissued : σ'.issued = σ.issued + 1) (hstopped : σ'.stopped = σ.stopped) :
    σ'.Serves k (update φ σ.issued p) where
  fresh := by
    intro id hid
    rw [hissued] at hid
    rw [update_of_ne (by omega)]
    exact h.fresh id (by omega)
  busy := by
    intro c' home' db' id args' parts' hbusy
    rw [hconns] at hbusy
    rw [hissued, hstopped]
    by_cases hc : c' = c
    · rw [hc, update_self] at hbusy
      cases hbusy
      rw [hc, update_self]
      exact ⟨Nat.lt_succ_self _, hstage⟩
    · rw [update_of_ne hc] at hbusy
      obtain ⟨hlt, hold⟩ := h.busy hbusy
      rw [update_of_ne (by omega)]
      exact ⟨by omega, hold⟩
  waiting := by
    intro c' id q hphase
    rw [hconns]
    by_cases hid : id = σ.issued
    · rw [hid, update_self] at hphase
      obtain ⟨rfl, rfl⟩ := (hphase ▸ hstage).of_waiting
      exact ⟨home, parts, by rw [update_self, hid]⟩
    · rw [update_of_ne hid] at hphase
      obtain ⟨home', parts', hbusy⟩ := h.waiting hphase
      refine ⟨home', parts', ?_⟩
      rw [update_of_ne, hbusy]
      rintro rfl
      rw [hbusy] at hidle
      cases hidle

/-- A connection gets on with its command, or is through with it. -/
theorem setBusy (h : σ.Serves k φ) (hbusy : σ.conns c = .busy home db id args parts)
    {p : Service.Phase C (DbIndex × List RespExpr) (Option Bytes)}
    (hp : p = φ id ∨ singleKey F args = some k)
    (hconn : (∃ db' parts', conn = .busy home db' id args parts' ∧
        Stage F k (σ.stopped (shard k n)) c db' args parts' p) ∨
      (conn.command = none ∧ ∀ c' q, p ≠ .waiting c' q)) (hset : σ.Sets c conn σ') :
    σ'.Serves k (update φ id p) := by
  obtain ⟨hlt, hold⟩ := h.busy hbusy
  refine ⟨fun id' hid => ?_, fun {c' home' db' id' args' parts'} hbusy' => ?_,
    fun {c' id' q} hphase => ?_⟩
  · rw [hset.issued] at hid
    rw [update_of_ne (by omega)]
    exact h.fresh id' hid
  · rw [hset.conns] at hbusy'
    rw [hset.issued, hset.stopped]
    by_cases hc : c' = c
    · rw [hc, update_self] at hbusy'
      rcases hconn with ⟨db₁, parts₁, rfl, hstage⟩ | ⟨hnone, -⟩
      · cases hbusy'
        rw [hc, update_self]
        exact ⟨hlt, hstage⟩
      · rw [hbusy'] at hnone
        cases hnone
    · rw [update_of_ne hc] at hbusy'
      obtain ⟨hlt', hold'⟩ := h.busy hbusy'
      refine ⟨hlt', ?_⟩
      by_cases hid : id' = id
      · subst hid
        rcases hp with rfl | hkey
        · rwa [update_self]
        · exact absurd (hold.client_eq hold' hkey) hc
      · rwa [update_of_ne hid]
  · rw [hset.conns]
    by_cases hid : id' = id
    · rw [hid, update_self] at hphase
      rcases hconn with ⟨db', parts', rfl, hstage⟩ | ⟨-, hover⟩
      · obtain ⟨rfl, rfl⟩ := (hphase ▸ hstage).of_waiting
        exact ⟨home, parts', by rw [update_self, hid]⟩
      · exact absurd hphase (hover c' q)
    · rw [update_of_ne hid] at hphase
      obtain ⟨home', parts', hbusy'⟩ := h.waiting hphase
      refine ⟨home', parts', ?_⟩
      rw [update_of_ne, hbusy']
      rintro rfl
      rw [hbusy] at hbusy'
      cases hbusy'
      exact hid rfl

/-- A part of a command is run. -/
theorem ran (h : σ.Serves k φ) {index : Nat} {sub : Sub n} {progress : Progress}
    (hbusy : σ.conns c = .busy home db id args parts) (hpart : parts[index]? = some ⟨sub, progress⟩)
    (hprogress : ∀ reply, progress ≠ .answered reply)
    (hsub : singleKey F sub.args = some k → sub.args = args) {now : UInt64} {reply : Option Bytes}
    (hconn : (∃ data db', reply = some data ∧
        conn = .busy home db' id args (parts.set index ⟨sub, .answered (some data)⟩)) ∨
      (reply = none ∧ conn = .closed)) (hset : σ.Sets c conn σ') (refusal : Option Bytes → Prop) :
    ∃ φ', Service.Step refusal φ
      (trace F k [(.ran sub.target id db now sub.args reply : Event C n)]) φ' ∧
      σ'.Serves k φ' := by
  have hstage := (h.busy hbusy).2
  generalize hphase : φ id = p at hstage
  cases hstage with
  | other hne =>
    -- its parts are none on the key either
    have hquiet : trace F k [(.ran sub.target id db now sub.args reply : Event C n)] = [] := by
      have hsub' : ¬ (sub.target = shard k n ∧ singleKey F sub.args = some k) := fun hkey =>
        hne (hsub hkey.2 ▸ hkey.2)
      rw [trace, filterMap_cons, Event.moment, if_neg hsub', filterMap_nil]
    refine ⟨φ, hquiet ▸ .quiet, ?_⟩
    rw [← update_eq_self id φ]
    refine h.setBusy hbusy (.inl rfl) ?_ hset
    rcases hconn with ⟨data, db', -, rfl⟩ | ⟨-, rfl⟩
    · exact .inl ⟨_, _, rfl, hphase ▸ .other hne⟩
    · refine .inr ⟨rfl, fun c' q => ?_⟩
      rw [hphase]
      rintro ⟨⟩
  | pending hkey _ =>
    obtain ⟨rfl, ⟨⟩⟩ := Part.eq_of_singleton hpart
    change ∃ φ', Service.Step refusal φ (trace F k [.ran (shard k n) id db now args reply]) φ' ∧ _
    have hperformed : trace F k [(.ran (shard k n) id db now args reply : Event C n)] =
        [(id, .performed (db, args) reply)] := by
      rw [trace, filterMap_cons, Event.moment, if_pos ⟨rfl, hkey⟩, filterMap_nil]
    rw [hperformed]
    refine ⟨_, .perform hphase, h.setBusy hbusy (.inr hkey) ?_ hset⟩
    rcases hconn with ⟨data, db', rfl, rfl⟩ | ⟨rfl, rfl⟩
    · exact .inl ⟨_, _, rfl, .served hkey⟩
    · exact .inr ⟨rfl, by rintro c' q ⟨⟩⟩
  | refused | served =>
    obtain ⟨rfl, ⟨⟩⟩ := Part.eq_of_singleton hpart
    exact absurd rfl (hprogress _)

/-- A part of a command is sent or refused. -/
theorem setPart (h : σ.Serves k φ) {index : Nat} {sub : Sub n} {progress progress' : Progress}
    (hbusy : σ.conns c = .busy home db id args parts) (hpart : parts[index]? = some ⟨sub, progress⟩)
    (hprogress : ∀ reply, progress ≠ .answered reply)
    (hprogress' : progress' = .sent ∨ (progress' = .answered none ∧ σ.stopped sub.target = true))
    (hset : σ.Sets c (.busy home db id args (parts.set index ⟨sub, progress'⟩)) σ') :
    σ'.Serves k φ := by
  have hstage := (h.busy hbusy).2
  rw [← update_eq_self id φ]
  refine h.setBusy hbusy (.inl rfl) (.inl ⟨_, _, rfl, ?_⟩) hset
  generalize φ id = p at hstage ⊢
  cases hstage with
  | other hne => exact .other hne
  | pending hkey _ =>
    obtain ⟨rfl, ⟨⟩⟩ := Part.eq_of_singleton hpart
    rcases hprogress' with rfl | ⟨rfl, hhalted⟩
    · exact .pending hkey (.inr rfl)
    · exact .refused hkey hhalted
  | refused | served =>
    obtain ⟨rfl, ⟨⟩⟩ := Part.eq_of_singleton hpart
    exact absurd rfl (hprogress _)

/-- The reply goes out. -/
theorem delivered (h : σ.Serves k φ) {answers : List (Sub n × Option Bytes)} {reply : Bytes}
    {next : Option DbIndex}
    (hbusy : σ.conns c = .busy home db id args (answers.map fun a => ⟨a.1, .answered a.2⟩))
    (hreply : (dispatchCommand F home args).Replies answers db reply next)
    (hconn : conn.command = none) (hset : σ.Sets c conn σ') :
    ∃ φ', Service.Step (σ.Refuses k) φ (trace F k [(.delivered c id args reply : Event C n)]) φ' ∧
      σ'.Serves k φ' := by
  have hstage := (h.busy hbusy).2
  have hreturned : singleKey F args = some k →
      trace F k [(.delivered c id args reply : Event C n)] = [(id, .returned c (some reply))] := by
    intro hkey
    rw [trace, filterMap_cons, Event.moment, if_pos hkey, filterMap_nil]
  have hanswer : ∀ {sub answer}, singleKey F args = some k →
      answers.map (fun a => (⟨a.1, .answered a.2⟩ : Part n)) = [⟨sub, .answered answer⟩] →
      reply = answer.getD (sendErr (ascii "shard unavailable")) := by
    intro sub answer hkey hanswers
    rw [dispatchCommand_of_singleKey hkey] at hreply
    cases hreply with
    | run =>
      cases hanswers
      rfl
  generalize hphase : φ id = p at hstage
  generalize hparts : answers.map (fun a => (⟨a.1, .answered a.2⟩ : Part n)) = parts at hstage
  cases hstage with
  | other hne =>
    refine ⟨φ, ?_, ?_⟩
    · rw [trace, filterMap_cons, Event.moment, if_neg hne, filterMap_nil]
      exact .quiet
    · rw [← update_eq_self id φ]
      refine h.setBusy hbusy (.inl rfl) (.inr ⟨hconn, fun c' q => ?_⟩) hset
      rw [hphase]
      rintro ⟨⟩
  | @pending progress hkey hprogress =>
    have hmem : ⟨⟨shard k n, args, []⟩, progress⟩ ∈ answers.map fun a =>
        (⟨a.1, .answered a.2⟩ : Part n) :=
      hparts ▸ mem_cons_self
    obtain ⟨a, -, heq⟩ := mem_map.mp hmem
    obtain ⟨-, rfl⟩ := Part.mk.inj heq
    rcases hprogress with hp | hp <;> cases hp
  | refused hkey hhalted =>
    rw [hreturned hkey, hanswer hkey hparts]
    refine ⟨_, .refuse hphase ⟨rfl, hhalted⟩, h.setBusy hbusy (.inr hkey) (.inr ⟨hconn, ?_⟩) hset⟩
    rintro c' q ⟨⟩
  | served hkey =>
    rw [hreturned hkey, hanswer hkey hparts]
    refine ⟨_, .answer hphase, h.setBusy hbusy (.inr hkey) (.inr ⟨hconn, ?_⟩) hset⟩
    rintro c' q ⟨⟩

end Server.Serves

/-! ## Steps of the server as steps of the service -/

namespace Server

variable {k : Bytes} {σ σ' : Server F C n}
  {φ : Nat → Service.Phase C (DbIndex × List RespExpr) (Option Bytes)}
  {steady : Prop} {events τ : List (Event C n)}

theorem Step.stopped_mono [DecidableEq C] (hstep : σ.Step steady events σ') {s : Fin n}
    (h : σ.stopped s = true) : σ'.stopped s = true := by
  cases hstep with
  | @stop s' now hup hpanic =>
    change update σ.stopped s' true s = true
    by_cases hs : s = s'
    · rw [hs, update_self]
    · rw [update_of_ne hs, h]
  | _ => exact h

theorem Serves.step [DecidableEq C] (hc : σ.Consistent) (h : σ.Serves k φ)
    (hstep : σ.Step steady events σ') :
    ∃ φ', Service.Step (σ.Refuses k) φ (trace F k events) φ' ∧ σ'.Serves k φ' := by
  have hsub : ∀ {c home db id args parts index sub progress},
      σ.conns c = .busy home db id args parts →
      parts[index]? = some (⟨sub, progress⟩ : Part n) → singleKey F sub.args = some k →
      sub.args = args :=
    fun hbusy hpart => args_of_singleKey (hc.sub_mem hbusy hpart)
  have hstopped : σ.stopped (shard k n) = true → σ'.stopped (shard k n) = true := hstep.stopped_mono
  cases hstep with
  | sendLoad | listen | load | stop | tick | expiry => exact ⟨φ, .quiet, h.keep rfl rfl hstopped⟩
  | connect hlisten hup hconn =>
    exact ⟨φ, .quiet, h.setIdle (by rw [hconn]; rfl) rfl ⟨rfl, rfl, rfl⟩⟩
  | accept hup hcross hcontrol hincoming hconn =>
    exact ⟨φ, .quiet, h.setIdle (by rw [hconn]; rfl) rfl ⟨rfl, rfl, rfl⟩⟩
  | @take s task tasks now ω data hup hcross hclock hreply =>
    obtain ⟨home, args, parts, sub, hbusy, hpart, rfl, hargs⟩ := hc.tasks (hcross ▸ mem_cons_self)
    rw [← hargs]
    refine h.ran hbusy hpart (by rintro reply ⟨⟩) (hsub hbusy hpart)
      (.inl ⟨data, task.dbIndex, rfl, rfl⟩) ?_ _
    refine ⟨?_, rfl, rfl⟩
    dsimp only
    rw [hbusy, Connection.answer_busy hpart]
  | @issue c home db args hup hconn =>
    have hidle : (σ.conns c).command = none := by
      rw [hconn]
      rfl
    by_cases hkey : singleKey F args = some k
    · have hparts : ((dispatchCommand F home args).commands.map fun sub =>
          (⟨sub, .unsent⟩ : Part n)) = [⟨⟨shard k n, args, []⟩, .unsent⟩] := by
        rw [dispatchCommand_of_singleKey hkey]
        rfl
      refine ⟨update φ σ.issued (.waiting c (db, args)), ?_, ?_⟩
      · rw [trace, filterMap_cons, Event.moment, if_pos hkey, filterMap_nil]
        refine .invoke (h.fresh _ (Nat.le_refl _)) fun id' q' hwaits => ?_
        obtain ⟨home', parts', hbusy⟩ := h.waiting hwaits
        rw [hconn] at hbusy
        cases hbusy
      · refine h.setIssued hidle ?_ rfl rfl rfl
        rw [hparts]
        exact .pending hkey (.inl rfl)
    · refine ⟨φ, ?_, ?_⟩
      · rw [trace, filterMap_cons, Event.moment, if_neg hkey, filterMap_nil]
        exact .quiet
      · rw [← update_eq_self σ.issued φ, h.fresh _ (Nat.le_refl _)]
        exact h.setIssued hidle (.other hkey) rfl rfl rfl
  | @runLocal c home db id args parts index sub now ω data hup hbusy hpart hlocal hclock hreply =>
    subst hlocal
    refine h.ran hbusy hpart (by rintro reply ⟨⟩) (hsub hbusy hpart)
      (.inl ⟨data, ((σ.shards sub.target).perform ω now db sub.args).conn.dbIndex, rfl, rfl⟩) ?_ _
    exact ⟨rfl, rfl, rfl⟩
  | drop hup hbusy hpart hlocal hclock hreply =>
    subst hlocal
    refine h.ran hbusy hpart (by rintro reply ⟨⟩) (hsub hbusy hpart) (.inr ⟨rfl, rfl⟩) ?_ _
    exact ⟨rfl, rfl, rfl⟩
  | send hup hbusy hpart =>
    exact ⟨φ, .quiet, h.setPart hbusy hpart (by rintro reply ⟨⟩) (.inl rfl) ⟨rfl, rfl, rfl⟩⟩
  | unavailable hup hbusy hpart hprogress htarget =>
    refine ⟨φ, .quiet, h.setPart hbusy hpart ?_ (.inr ⟨rfl, htarget⟩) ⟨rfl, rfl, rfl⟩⟩
    rcases hprogress with rfl | rfl <;> rintro reply ⟨⟩
  | @deliver c home db id args answers reply next hup hbusy hreply =>
    refine h.delivered hbusy hreply ?_ ⟨rfl, rfl, rfl⟩
    cases next <;> rfl

variable (cluster : Cluster F n)

/-- The server with nothing to load, before the first connection. -/
def serving : Server F C n where
  shards := cluster
  stopped _ := false
  cross _ := []
  control _ := []
  incoming _ := []
  conns _ := .absent
  unsent _ := []
  listening := true
  issued := 0

theorem consistent_serving : (serving cluster : Server F C n).Consistent where
  parts := by rintro c home db id args parts ⟨⟩
  order := by rintro c home db id args parts ⟨⟩
  tasks := by rintro s task ⟨⟩
  tickets _ := nodup_nil
  stopped _ := rfl

theorem serves_serving (k : Bytes) :
    (serving cluster : Server F C n).Serves k fun _ => .new where
  fresh _ _ := rfl
  busy := by rintro c home db id args parts ⟨⟩
  waiting := by rintro c id q ⟨⟩

variable {cluster : Cluster F n}

/-- What is seen of the commands on the key is a run of the service. -/
theorem Runs.serves [DecidableEq C] (hrun : (serving cluster).Runs steady τ σ) (k : Bytes) :
    ∃ φ, Service.Runs (σ.Refuses k) (trace F k τ) φ ∧ σ.Serves k φ := by
  induction hrun with
  | refl => exact ⟨_, .start, serves_serving cluster k⟩
  | @step τ events σ₁ σ₂ hrun hstep ih =>
    obtain ⟨φ, hservice, hserves⟩ := ih
    obtain ⟨φ', hnext, hserves'⟩ := hserves.step ((consistent_serving cluster).runs hrun) hstep
    have himp : ∀ r, σ₁.Refuses k r → σ₂.Refuses k r :=
      fun r hr => ⟨hr.1, hstep.stopped_mono hr.2⟩
    refine ⟨φ', ?_, hserves'⟩
    rw [trace, filterMap_append]
    exact (hservice.mono himp).step (hnext.mono himp)

/-! ## One store -/

/-- No load is left. -/
structure Quiet (σ : Server F C n) : Prop where
  unsent : ∀ s, σ.unsent s = []
  control : ∀ s, σ.control s = []

theorem Quiet.step [DecidableEq C] (h : σ.Quiet) (hstep : σ.Step steady events σ') : σ'.Quiet := by
  cases hstep with
  | sendLoad hunsent => exact absurd (h.unsent _) hunsent
  | load hup hcross hcontrol =>
    rw [h.control] at hcontrol
    cases hcontrol
  | _ => exact ⟨h.unsent, h.control⟩

theorem Quiet.runs [DecidableEq C] (h : σ.Quiet) (hrun : σ.Runs steady τ σ') : σ'.Quiet := by
  induction hrun with
  | refl => exact h
  | step _ hstep ih => exact ih.step hstep

/-- What holds of a shard at the start, when it sees the clock and loses lapsed keys, and when it
runs a part of a command, holds of what it ran in every run. -/
theorem Runs.shard_induction [DecidableEq C] {s : Fin n} {P : List Call → EngineShard F → Prop}
    (hstart : P [] (cluster s))
    (hpurged : ∀ {calls sh sh' now}, P calls sh → (steady → sh.dbSlice.nowMs ≤ now) →
      DbSlice.Purges (sh.updateTime now).dbSlice sh'.dbSlice → P calls sh')
    (hran : ∀ {calls sh home args sub id db now ω}, P calls sh →
      sub ∈ (dispatchCommand F home args).commands → sub.target = s →
      (steady → sh.dbSlice.nowMs ≤ now) →
      P (calls ++ [⟨id, db, now, sub.args, (sh.perform ω now db sub.args).reply⟩])
        (sh.perform ω now db sub.args).shard)
    (hrun : (serving cluster).Runs steady τ σ) : P (callsOn s τ) (σ.shards s) := by
  induction hrun with
  | refl => exact hstart
  | @step τ events σ₁ σ₂ hrun hstep ih =>
    have hchange := hstep.change ((consistent_serving cluster).runs hrun) s
    have hquiet : σ₁.Quiet := Quiet.runs ⟨fun _ => rfl, fun _ => rfl⟩ hrun
    rw [callsOn_append]
    generalize σ₂.shards s = sh at hchange
    cases hchange with
    | same hnone =>
      have hnil : callsOn s events = [] :=
        eq_nil_iff_forall_not_mem.mpr fun call hmem => hnone _ _ _ _ _ (mem_callsOn.mp hmem)
      rw [hnil, append_nil]
      exact ih
    | purged hclock hpurges => exact (append_nil _).symm ▸ hpurged ih hclock hpurges
    | loaded hcontrol =>
      rw [hquiet.control] at hcontrol
      cases hcontrol
    | ran hroute htarget hclock =>
      rw [callsOn_ran]
      exact hran ih hroute htarget hclock

/-- A shard carries out what it runs one after another. -/
theorem Runs.serial [DecidableEq C] (hrun : (serving cluster).Runs steady τ σ) (s : Fin n) :
    Serial steady (cluster s) (callsOn s τ) (σ.shards s) :=
  hrun.shard_induction .start (fun h hclock hpurges => h.idle hclock hpurges) fun h _ _ hclock =>
    h.call hclock

/-- The commands on the key alone are carried out as on a store that sees no others, if those do
not write the key. -/
theorem Runs.serial_key [DecidableEq C] (hrun : (serving cluster).Runs steady τ σ) :
    (∀ call ∈ callsOn (shard k n) τ, singleKey F call.args ≠ some k → ∀ i,
      Avoids F (i, k) call.db call.args) →
      ∃ store, Serial steady (cluster (shard k n)) (callsOf F k τ) store ∧
        (σ.shards (shard k n)).SameKey k store := by
  refine hrun.shard_induction (P := fun calls sh =>
    (∀ call ∈ calls, singleKey F call.args ≠ some k → ∀ i, Avoids F (i, k) call.db call.args) →
      ∃ store, Serial steady (cluster (shard k n)) (calls.filter fun call => singleKey F call.args =
        some k) store ∧ sh.SameKey k store) (fun _ => ⟨_, .start, .refl k _⟩) ?_ ?_
  · intro calls sh sh' now ih hclock hpurges havoid
    obtain ⟨store, hserial, hsame⟩ := ih havoid
    obtain ⟨store', hpurges', hsame'⟩ := hsame.purge hpurges.nowMs fun i => hpurges.cell (i, k)
    exact ⟨store', hserial.idle (fun hs => hsame.nowMs ▸ hclock hs) hpurges', hsame'⟩
  · intro calls sh home args sub id db now ω ih hroute htarget hclock havoid
    obtain ⟨store, hserial, hsame⟩ := ih fun call hmem => havoid call (mem_append_left _ hmem)
    rw [filter_append]
    by_cases hkey : singleKey F sub.args = some k
    · obtain ⟨hreply, hsame'⟩ := hsame.perform hkey ω ω now db
      rw [filter_cons_of_pos (by simpa using hkey), filter_nil, hreply]
      exact ⟨_, hserial.call fun hs => hsame.nowMs ▸ hclock hs, hsame'⟩
    · have hlapses :=
        fun i => havoid _ (mem_append_right _ mem_cons_self) hkey i ω (sh.updateTime now)
      have hnow : (sh.perform ω now db sub.args).shard.dbSlice.nowMs = now :=
        (dispatch_touches ω _ (meets_everywhere sub.args db)).1
      obtain ⟨store', hpurges', hsame'⟩ := hsame.purge hnow hlapses
      rw [filter_cons_of_neg (by simpa using hkey), filter_nil, append_nil]
      exact ⟨store', hserial.idle (fun hs => hsame.nowMs ▸ hclock hs) hpurges', hsame'⟩

/-- Only the shard of the key runs commands on it alone. -/
theorem Runs.owner [DecidableEq C] (hrun : (serving cluster).Runs steady τ σ) {s : Fin n} :
    ∀ call ∈ callsOn s τ, singleKey F call.args = some k → s = shard k n := by
  refine hrun.shard_induction (P := fun calls _ => ∀ call ∈ calls, singleKey F call.args = some k →
    s = shard k n) (fun _ hmem => absurd hmem not_mem_nil) (fun ih _ _ => ih) ?_
  intro calls sh home args sub id db now ω ih hroute htarget hclock call hmem hkey
  rcases mem_append.mp hmem with hold | hnew
  · exact ih call hold hkey
  · obtain rfl := mem_singleton.mp hnew
    have hargs := args_of_singleKey hroute hkey
    dsimp only at hkey
    rw [hargs] at hkey
    rw [dispatchCommand_of_singleKey hkey] at hroute
    rw [← htarget, mem_singleton.mp hroute]

/-! ## Linearizability -/

/-- The commands on the key alone, each run at most once between its issue and its reply. The
order in which they are run extends the order of each connection and of the replies that were
there before other commands were issued. -/
structure Linear (k : Bytes) (σ : Server F C n) (τ : List (Event C n)) : Prop where
  owner : ∀ {s call}, call ∈ callsOn s τ → singleKey F call.args = some k → s = shard k n
  once : ((callsOf F k τ).map Call.id).Nodup
  issued : ∀ {τ₁ τ₂ id db now args reply}, τ = τ₁ ++ .ran (shard k n) id db now args reply :: τ₂ →
    singleKey F args = some k → ∃ c, .issued c id db args ∈ τ₁
  /-- A thread that has panicked refuses what is sent to it. -/
  replied : ∀ {τ₁ τ₂ c id args reply}, τ = τ₁ ++ .delivered c id args reply :: τ₂ →
    singleKey F args = some k →
    (∃ call ∈ callsOf F k τ₁, call.id = id ∧ call.reply = some reply ∧
      .issued c id call.db call.args ∈ τ₁) ∨
      (reply = sendErr (ascii "shard unavailable") ∧ σ.stopped (shard k n) = true ∧
        id ∉ (callsOf F k τ).map Call.id)
  connection_order : ∀ {c a b db db' args args'},
    [.issued c a db args, .issued c b db' args'].Sublist τ →
    singleKey F args = some k → singleKey F args' = some k →
    a ∈ (callsOf F k τ).map Call.id → b ∈ (callsOf F k τ).map Call.id →
    [a, b].Sublist ((callsOf F k τ).map Call.id)
  real_time : ∀ {c c' a b db args args' reply},
    [.delivered c a args reply, .issued c' b db args'].Sublist τ →
    singleKey F args = some k → singleKey F args' = some k →
    a ∈ (callsOf F k τ).map Call.id → b ∈ (callsOf F k τ).map Call.id →
    [a, b].Sublist ((callsOf F k τ).map Call.id)

theorem Runs.linear [DecidableEq C] (hrun : (serving cluster).Runs steady τ σ) (k : Bytes) :
    σ.Linear k τ := by
  obtain ⟨φ, hservice, -⟩ := hrun.serves k
  have hids : Service.performances (trace F k τ) = (callsOf F k τ).map Call.id := performances_trace
  refine ⟨fun hmem hkey => hrun.owner _ hmem hkey, hids ▸ hservice.nodup_performances, ?_, ?_, ?_,
    ?_⟩
  · rintro τ₁ τ₂ id db now args reply rfl hkey
    rw [trace, filterMap_append, filterMap_cons, Event.moment, if_pos ⟨rfl, hkey⟩] at hservice
    obtain ⟨c, hmem⟩ := hservice.invoked_before
    exact ⟨c, issued_of_trace hmem⟩
  · rintro τ₁ τ₂ c id args reply rfl hkey
    rw [← hids]
    rw [trace, filterMap_append, filterMap_cons, Event.moment, if_pos hkey] at hservice ⊢
    rcases hservice.returned_after with ⟨q, hissued, hperformed⟩ | ⟨⟨hr, hstopped⟩, hnone⟩
    · obtain ⟨call, hcall, rfl, rfl, hreply⟩ := mem_trace hperformed
      exact .inl ⟨call, hcall, rfl, hreply, issued_of_trace hissued⟩
    · exact .inr ⟨Option.some.inj hr, hstopped, hnone⟩
  · intro c a b db db' args args' hbefore hkey hkey' ha hb
    rw [← hids] at ha hb ⊢
    have hsub := hbefore.filterMap (Event.moment F k)
    simp only [filterMap_cons, filterMap_nil, Event.moment, if_pos hkey, if_pos hkey'] at hsub
    exact hservice.client_order hsub ha hb
  · intro c c' a b db args args' reply hbefore hkey hkey' ha hb
    rw [← hids] at ha hb ⊢
    have hsub := hbefore.filterMap (Event.moment F k)
    simp only [filterMap_cons, filterMap_nil, Event.moment, if_pos hkey, if_pos hkey'] at hsub
    exact hservice.real_time hsub ha hb

/-- The commands on one key are linearizable: the shard of the key carries out what it runs one
after another, and the commands on the key reply as on a store that sees no others, if those do
not write the key. -/
theorem single_key_linearizable [DecidableEq C] (steady : Prop) (cluster : Cluster F n)
    (τ : List (Event C n)) (σ : Server F C n) (hrun : (serving cluster).Runs steady τ σ)
    (k : Bytes) :
    σ.Linear k τ ∧
    Serial steady (cluster (shard k n)) (callsOn (shard k n) τ) (σ.shards (shard k n)) ∧
      ((∀ call ∈ callsOn (shard k n) τ, singleKey F call.args ≠ some k →
        ∀ i, Avoids F (i, k) call.db call.args) →
        (∃ store, Serial steady (cluster (shard k n)) (callsOf F k τ) store) ∧
        (steady → ∀ ω, (replay ω (cluster (shard k n)) (callsOf F k τ)).2 =
          (callsOf F k τ).map Call.reply) ∧
        ∀ (i : DbIndex) (v : Int64), ((cluster (shard k n)).dbSlice.cell (i, k)).2 = none →
          counterOf ((cluster (shard k n)).dbSlice.cell (i, k)).1 = some v →
          (∀ call ∈ callsOf F k τ, call.IsIncr k i ∨ Avoids F (i, k) call.db call.args) →
          v.toInt + ((callsOf F k τ).filter (Call.IsIncr k i)).length < 2 ^ 63 →
          ((callsOf F k τ).filter (Call.IsIncr k i)).map Call.reply =
            (range ((callsOf F k τ).filter (Call.IsIncr k i)).length).map
              (fun j : Nat => some (sendInteger (.ofInt (v.toInt + (j + 1)))))) := by
  have hkeys : ∀ call ∈ callsOf F k τ, singleKey F call.args = some k :=
    fun call hmem => of_decide_eq_true (mem_filter.mp hmem).2
  refine ⟨hrun.linear k, hrun.serial _, fun havoid => ?_⟩
  obtain ⟨store, hserial, -⟩ := hrun.serial_key havoid
  exact ⟨⟨store, hserial⟩, fun hsteady ω => (hserial.replay_eq hsteady hkeys ω).1,
    fun i v hdeadline hold hcalls hfits =>
      (hserial.incr_replies hdeadline hold hkeys hcalls hfits).1⟩

end Server

end Serves

section Fixed

attribute [local instance] F64.whole CaseTable.identity HashOrder.arbitrary neZeroTwo

/-- The command line of an `INCR`. -/
def incrLine (key : String) : List RespExpr := [.string (ascii "INCR"), .string (ascii key)]

theorem find_incr : find (F := Int) (ascii "INCR") = some ⟨ascii "INCR", cmdIncr, 2, 1⟩ :=
  find_of_getElem (n := 11) stringTable (by simp [tables]) rfl rfl

theorem resolve_incrLine (key : String) :
    resolve (incrLine key) = .run ⟨ascii "INCR", cmdIncr (F := Int), 2, 1⟩ :=
  resolve_string find_incr rfl

theorem singleKey_incrLine (key : String) : singleKey Int (incrLine key) = some (ascii key) := by
  have hclass : classifyCommand (ascii "INCR") 1 = .singleKey := by decide
  have hspec : keySpec (ascii "INCR") 1 ≠ .all := by decide
  rw [singleKey, resolve_incrLine]
  dsimp only
  rw [if_pos ⟨hclass, fun hall => absurd hall hspec⟩]
  rfl

theorem dispatchCommand_incrLine : dispatchCommand Int (shard (ascii "a") 2 + 1) (incrLine "a") =
    .run (shard (ascii "a") 2) (incrLine "a") :=
  dispatchCommand_of_singleKey (singleKey_incrLine "a") _

/-- The client has connected to the shard that is not the one of `a`. -/
theorem runs_serving : (Server.serving fun _ => .new : Server Int Bool 2).Runs True []
    (waitingLoad .new [] [] [] (.idle (shard (ascii "a") 2 + 1) 0) 0) := by
  have hserving : (Server.serving fun _ => .new : Server Int Bool 2) =
      waitingLoad .new [] [] [] .absent 0 := by
    simp only [Server.serving, waitingLoad, update_eq_self]
  rw [hserving]
  exact runs_accept .new []

variable (sh : EngineShard Int)

/-- The client has a command run by the shard of `a`. -/
theorem runs_line {args : List RespExpr} (id : Nat) {data : Bytes}
    (hplan : dispatchCommand Int (shard (ascii "a") 2 + 1) args = .run (shard (ascii "a") 2) args)
    (hreply : (sh.perform (.arbitrary Bytes) sh.dbSlice.nowMs 0 args).reply = some data) :
    (waitingLoad sh [] [] [] (.idle (shard (ascii "a") 2 + 1) 0) id).Runs True
      [.issued true id 0 args, .ran (shard (ascii "a") 2) id 0 sh.dbSlice.nowMs args (some data),
        .delivered true id args data]
      (waitingLoad (sh.perform (.arbitrary Bytes) sh.dbSlice.nowMs 0 args).shard [] [] []
        (.idle (shard (ascii "a") 2 + 1) 0) (id + 1)) := by
  have hissue := step_issue sh [] id hplan
  have hsend := step_send sh [] id args
  have htake := step_take sh [] id (UInt64.le_refl _) hreply
  have hdeliver :=
    step_deliver (sh.perform (.arbitrary Bytes) sh.dbSlice.nowMs 0 args).shard [] id
      (some data) hplan
  exact (((Server.Runs.refl.step hissue).step hsend).step htake).step hdeliver

/-- The client increments `a`. -/
theorem runs_incrLine {v : Int64} (id : Nat) (hdeadline : (sh.dbSlice.cell (0, ascii "a")).2 = none)
    (hold : counterOf (sh.dbSlice.cell (0, ascii "a")).1 = some v) (hfits : v.toInt + 1 < 2 ^ 63) :
    ∃ (w : Int64) (now : UInt64) (sh' : EngineShard Int), w.toInt = v.toInt + 1 ∧
      (waitingLoad sh [] [] [] (.idle (shard (ascii "a") 2 + 1) 0) id).Runs True
        [.issued true id 0 (incrLine "a"),
          .ran (shard (ascii "a") 2) id 0 now (incrLine "a") (some (sendInteger w)),
          .delivered true id (incrLine "a") (sendInteger w)]
        (waitingLoad sh' [] [] [] (.idle (shard (ascii "a") 2 + 1) 0) (id + 1)) ∧
      sh'.dbSlice.cell (0, ascii "a") = (some (.integer w), none) := by
  obtain ⟨w, hw, hreply, hcell⟩ :=
    perform_incr ⟨commandName_of_find find_incr _, _, resolve_incrLine "a"⟩ rfl
    hdeadline hold hfits (.arbitrary Bytes) sh.dbSlice.nowMs
  exact ⟨w, _, _, hw, runs_line sh id dispatchCommand_incrLine hreply, hcell⟩

/-- Two increments of a new key. -/
theorem single_key_linearizable_incr : ∃ (τ : List (Event Bool 2)) (σ : Server Int Bool 2),
    (Server.serving fun _ => .new).Runs True τ σ ∧ σ.Linear (ascii "a") τ ∧
      ((callsOf Int (ascii "a") τ).filter (Call.IsIncr (ascii "a") 0)).map Call.reply =
        [some (sendInteger 1), some (sendInteger 2)] := by
  obtain ⟨w, now, sh, hw, hfirst, hcell⟩ := runs_incrLine .new (v := 0) 0 rfl rfl (by decide)
  obtain ⟨w', now', sh', hw', hsecond, -⟩ :=
    runs_incrLine sh (v := w) 1 (by rw [hcell]) (by rw [hcell]; rfl) (by rw [hw]; decide)
  have hrun := (runs_serving.trans hfirst).trans hsecond
  generalize hτ : [] ++ _ ++ _ = τ at hrun
  have hon : callsOn (shard (ascii "a") 2) τ = [⟨0, 0, now, incrLine "a", some (sendInteger w)⟩,
      ⟨1, 0, now', incrLine "a", some (sendInteger w')⟩] := by
    rw [← hτ]
    simp [callsOn]
  have hall : ∀ call ∈ callsOn (shard (ascii "a") 2) τ, call.db = 0 ∧ call.args = incrLine "a" := by
    rw [hon]
    simp
  have hkeys : ∀ call ∈ callsOn (shard (ascii "a") 2) τ,
      singleKey Int call.args = some (ascii "a") :=
    fun call hmem => (hall call hmem).2 ▸ singleKey_incrLine "a"
  have hincrs : ∀ call ∈ callsOf Int (ascii "a") τ, call.IsIncr (ascii "a") 0 := by
    intro call hmem
    obtain ⟨hdb, hargs⟩ := hall call (mem_filter.mp hmem).1
    rw [Call.IsIncr, hargs]
    exact ⟨hdb, commandName_of_find find_incr _, rfl⟩
  have hlength : ((callsOf Int (ascii "a") τ).filter (Call.IsIncr (ascii "a") 0)).length = 2 := by
    rw [filter_eq_self.mpr fun call hmem => decide_eq_true (hincrs call hmem), callsOf,
      filter_eq_self.mpr fun call hmem => decide_eq_true (hkeys call hmem), hon]
    rfl
  obtain ⟨hlinear, -, halone⟩ :=
    Server.single_key_linearizable True (fun _ => .new) τ _ hrun (ascii "a")
  obtain ⟨-, -, hincr⟩ := halone fun call hmem hne => absurd (hkeys call hmem) hne
  have hreplies :=
    hincr 0 0 rfl rfl (fun call hmem => .inl (hincrs call hmem)) (by rw [hlength]; decide)
  rw [hlength] at hreplies
  exact ⟨τ, _, hrun, hlinear, hreplies⟩

/-! ## Increments that fail -/

/-- At the last number an increment replies an error, and leaves the number. -/
theorem perform_incrLine_max {sh : EngineShard Int}
    (hcell : sh.dbSlice.cell (0, ascii "a") = (some (.integer Int64.maxValue), none))
    (ω : Listing Bytes) (now : UInt64) :
    (sh.perform ω now 0 (incrLine "a")).reply =
    some (sendErr (ascii "increment or decrement would overflow")) ∧
      (sh.perform ω now 0 (incrLine "a")).shard.dbSlice.cell (0, ascii "a") =
        (some (.integer Int64.maxValue), none) := by
  have hlive : ((sh.updateTime now).dbSlice.cell (0, ascii "a")).live now =
      (some (.integer Int64.maxValue), none) := by
    change (sh.dbSlice.cell (0, ascii "a")).live now = _
    rw [hcell]
    rfl
  have hadd : checkedAdd Int64.maxValue 1 = none := by decide
  have hleaves : Leaves ω (incrBy ⟨incrLine "a", 0⟩ 1) ⟨(sh.updateTime now).dbSlice, ⟨0⟩⟩ _ _ :=
    incrBy_leaves 1 ω rfl hlive rfl
  rw [bumped, hadd] at hleaves
  obtain ⟨hreply, hcells⟩ := dispatch_leaves (resolve_incrLine "a") hleaves
  refine ⟨hreply, ?_⟩
  rw [EngineShard.perform, hcells, update_self]

theorem runs_overflow : ∃ (τ : List (Event Bool 2)) (σ : Server Int Bool 2),
    (Server.serving fun _ => .new).Runs True τ σ ∧
      [.delivered true 1 (incrLine "a") (sendErr (ascii "increment or decrement would overflow")),
        .delivered true 2 (incrLine "a")
          (sendErr (ascii "increment or decrement would overflow"))].Sublist τ := by
  obtain ⟨hset, -, hcells⟩ :=
    perform_setLine .new (.arbitrary Bytes) (EngineShard.new : EngineShard Int).dbSlice.nowMs
    "a" "9223372036854775807"
  have hmax := congrFun hcells (0, ascii "a")
  have hvalue : (PrimeValue.fromBytes (ascii "9223372036854775807") : PrimeValue Int) =
      .integer Int64.maxValue := by
    have hparse : ((fromUtf8 (ascii "9223372036854775807")).bind fun s => parseI64 (Utf8.trim s)) =
        some Int64.maxValue := by decide +kernel
    have htext : i64ToString Int64.maxValue = ascii "9223372036854775807" := by decide
    rw [PrimeValue.fromBytes, hparse]
    exact if_pos htext
  rw [update_self, hvalue] at hmax
  have hfirst := runs_line .new 0 (dispatchCommand_setLine _ "a" "9223372036854775807") hset
  generalize (EngineShard.perform (F := Int) _ _ _ _ _).shard = sh at hfirst hmax
  have hincr := perform_incrLine_max hmax (.arbitrary Bytes) sh.dbSlice.nowMs
  have hsecond := runs_line sh 1 dispatchCommand_incrLine hincr.1
  have hthird :=
    runs_line _ 2 dispatchCommand_incrLine (perform_incrLine_max hincr.2 (.arbitrary Bytes) _).1
  refine ⟨_, _, ((runs_serving.trans hfirst).trans hsecond).trans hthird, ?_⟩
  exact .cons _
    (.cons _ (.cons _ (.cons _ (.cons _ (.cons_cons _ (.cons _ (.cons _ (.cons_cons _ .slnil))))))))

/-- The server after the thread of `a` has panicked. -/
def panicked (conn : Connection 2) (issued : Nat) : Server Int Bool 2 :=
  { waitingLoad .new [] []
    [] conn issued with stopped := update (fun _ => false) (shard (ascii "a") 2) true }

theorem stopped_panicked (conn : Connection 2) (issued : Nat) :
    (panicked conn issued).stopped (shard (ascii "a") 2 + 1) = false ∧
      (panicked conn issued).stopped (shard (ascii "a") 2) = true := by
  simp only [panicked, update_of_ne next_ne_shard, update_self, and_self]

/-- What is sent to it is refused. -/
theorem runs_panicked {args : List RespExpr} {progress : Progress} (id : Nat)
    (hplan : dispatchCommand Int (shard (ascii "a") 2 + 1) args = .run (shard (ascii "a") 2) args)
    (hprogress : progress = .unsent ∨ progress = .sent) :
    (panicked (remoteCommand id args progress) (id + 1)).Runs True
      [.delivered true id args (sendErr (ascii "shard unavailable"))]
      (panicked (.idle (shard (ascii "a") 2 + 1) 0) (id + 1)) := by
  have hunavailable : (panicked (remoteCommand id args progress) (id + 1)).Step True []
      (panicked (remoteCommand id args (.answered none)) (id + 1)) := by
    have h : (panicked (remoteCommand id args progress) (id + 1)).Step True [] _ :=
      .unavailable (c := true) (stopped_panicked _ _).1 rfl (getElem?_cons_zero ..) hprogress
        (stopped_panicked _ _).2
    simp only [panicked, waitingLoad, update_idem] at h ⊢
    exact h
  have hbusy : (panicked (remoteCommand id args (.answered none)) (id + 1)).conns true =
      .busy (shard (ascii "a") 2 + 1) 0 id args
        ([(⟨shard (ascii "a") 2, args, []⟩, none)].map fun a => ⟨a.1, .answered a.2⟩) := rfl
  have hdeliver : (panicked (remoteCommand id args (.answered none)) (id + 1)).Step True
      [.delivered true id args (sendErr (ascii "shard unavailable"))]
      (panicked (.idle (shard (ascii "a") 2 + 1) 0) (id + 1)) := by
    have h : (panicked (remoteCommand id args (.answered none)) (id + 1)).Step True
        [.delivered true id args (sendErr (ascii "shard unavailable"))] _ :=
      .deliver (stopped_panicked _ _).1 hbusy (by rw [hplan]; exact .run)
    simp only [panicked, waitingLoad, update_idem] at h ⊢
    exact h
  exact (Server.Runs.refl.step hunavailable).step hdeliver

theorem runs_panicked_incrLine (id : Nat) :
    (panicked (.idle (shard (ascii "a") 2 + 1) 0) id).Runs True
    [.issued true id 0 (incrLine "a"),
      .delivered true id (incrLine "a") (sendErr (ascii "shard unavailable"))]
    (panicked (.idle (shard (ascii "a") 2 + 1) 0) (id + 1)) := by
  have hissue : (panicked (.idle (shard (ascii "a") 2 + 1) 0) id).Step True
      [.issued true id 0 (incrLine "a")]
      (panicked (remoteCommand id (incrLine "a") .unsent) (id + 1)) := by
    have h : (panicked (.idle (shard (ascii "a") 2 + 1) 0) id).Step
        True [.issued true id 0 (incrLine "a")] _ :=
      .issue (stopped_panicked _ _).1 rfl
    rw [dispatchCommand_incrLine] at h
    simp only [panicked, waitingLoad, update_idem] at h ⊢
    exact h
  exact (Server.Runs.refl.step hissue).trans (runs_panicked id dispatchCommand_incrLine (.inl rfl))

/-- A `SET` of `a` to what is no bulk string. -/
def brokenLine : List RespExpr := [.string (ascii "SET"), .string (ascii "a"), .int 1]

theorem runs_brokenLine :
    (waitingLoad .new [] [] [] (.idle (shard (ascii "a") 2 + 1) 0) 0).Runs True
    [.issued true 0 0 brokenLine,
      .delivered true 0 brokenLine (sendErr (ascii "shard unavailable"))]
    (panicked (.idle (shard (ascii "a") 2 + 1) 0) 1) := by
  have hplan : dispatchCommand Int (shard (ascii "a") 2 + 1) brokenLine =
      .run (shard (ascii "a") 2) brokenLine := by
    have hclass : classifyCommand (ascii "SET") 1 = .singleKey := by decide
    have hkey : keyAt brokenLine 1 = ascii "a" := rfl
    have hname : commandName brokenLine = .ok (ascii "SET") :=
      commandName_of_find (F := Int) find_set _
    have hroute :=
      dispatchCommand_singleKey (F := Int) (shard (ascii "a") 2 + 1) find_set hname hclass rfl
    dsimp only at hroute
    rwa [hkey] at hroute
  have hpanics : ((EngineShard.new (F := Int)).perform (.arbitrary Bytes) 0 0 brokenLine).reply =
    none := by
    have hres : resolve brokenLine = .run ⟨ascii "SET", cmdSet (F := Int), -3, 1⟩ :=
      resolve_string find_set rfl
    rw [EngineShard.perform, (dispatch_eq ..).1, program, hres]
    rfl
  have hstop :
      (waitingLoad .new [⟨brokenLine, 0, true, 0, 0⟩] [] [] (remoteCommand 0 brokenLine .sent)
      1).Step True [] (panicked (remoteCommand 0 brokenLine .sent) 1) := by
    have h : (waitingLoad .new [⟨brokenLine, 0, true, 0, 0⟩] [] []
        (remoteCommand 0 brokenLine .sent) 1).Step True []
        _ := .stop (s := shard (ascii "a") 2) rfl
          (.inl ⟨_, _, .arbitrary Bytes, cross_waitingLoad, by
          rw [shards_waitingLoad]; exact hpanics⟩)
    simp only [panicked, waitingLoad, update_idem] at h ⊢
    exact h
  have hissue := step_issue .new [] 0 hplan
  have hsend := step_send .new [] 0 brokenLine
  exact (((Server.Runs.refl.step hissue).step hsend).step hstop).trans
    (runs_panicked 0 hplan (.inr rfl))

/-- No shard replies to an increment as if there were no shard. -/
theorem perform_incrLine_ne (ω : Listing Bytes) (now : UInt64) (db : DbIndex) :
    (sh.perform ω now db (incrLine "a")).reply ≠ some (sendErr (ascii "shard unavailable")) := by
  have hyields : Program.Yields True (fun reply => reply ≠ sendErr (ascii "shard unavailable"))
      (incrBy (F := Int) ⟨incrLine "a", db⟩ 1) := by
    refine .ofOption (fun _ => trivial) fun key _ => yields_find fun r => ?_
    dsimp only
    split
    · exact .ret (by decide)
    · split
      · exact .ret (by decide)
      · refine .invoke (.ret fun heq => ?_)
        cases congrArg head? heq
  intro hreply
  rw [EngineShard.perform, (dispatch_eq ..).1, program, resolve_incrLine] at hreply
  exact (hyields.run (step ω) _).1 _ hreply rfl

/-- Increments at the last number fail, and after a panic they are refused without being run. -/
theorem increments_fail :
    (∃ (τ : List (Event Bool 2)) (σ : Server Int Bool 2),
      (Server.serving fun _ => .new).Runs True τ σ ∧
      [.delivered true 1 (incrLine "a") (sendErr (ascii "increment or decrement would overflow")),
        .delivered true 2 (incrLine "a")
          (sendErr (ascii "increment or decrement would overflow"))].Sublist τ) ∧
    (∃ (τ : List (Event Bool 2)) (σ : Server Int Bool 2),
      (Server.serving fun _ => .new).Runs True τ σ ∧
      [.delivered true 1 (incrLine "a") (sendErr (ascii "shard unavailable")),
        .delivered true 2 (incrLine "a") (sendErr (ascii "shard unavailable"))].Sublist τ ∧
      ∀ s, callsOn s τ = []) ∧
    singleKey Int (incrLine "a") = some (ascii "a") ∧
    ∀ (sh : EngineShard Int) (ω : Listing Bytes) (now : UInt64) (db : DbIndex),
      (sh.perform ω now db (incrLine "a")).reply ≠ some (sendErr (ascii "shard unavailable")) := by
  have hrun :=
    ((runs_serving.trans runs_brokenLine).trans (runs_panicked_incrLine 1)).trans
      (runs_panicked_incrLine 2)
  refine ⟨runs_overflow, ⟨_, _, hrun, ?_, fun s => rfl⟩, singleKey_incrLine "a",
    perform_incrLine_ne⟩
  exact .cons _ (.cons _ (.cons _ (.cons_cons _ (.cons _ (.cons_cons _ .slnil)))))

end Fixed

end ShrikeDb
