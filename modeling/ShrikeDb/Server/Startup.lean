import ShrikeDb.Server.Arity
import ShrikeDb.Server.Encoding
import ShrikeDb.Server.Ownership

/-! The start of the server. The entries of a dump are only handed to the shards before the
main thread listens, and a shard that is still to load its own runs the tasks of the others
first: a write that a client has the reply to can be lost to a load. A shard accepts its own
connections after it has loaded, so no load is left behind a write that was made next to it. -/

namespace ShrikeDb

open CommandRegistry Sharding ReplyBuilder Function ShardThread

/-! ## Cells over time -/

/-- As before, or gone because the deadline had passed at some time. -/
def Cell.Endures {F : Type} (c c' : Cell F) : Prop := ∃ now, Cell.Lapses now c c'

namespace Cell.Endures

variable {F : Type} {c c' c'' : Cell F}

theorem refl : Cell.Endures c c := ⟨0, .refl⟩

theorem trans (h : Cell.Endures c c') (h' : Cell.Endures c' c'') : Cell.Endures c c'' := by
  obtain ⟨now, rfl | ⟨hl, rfl⟩⟩ := h
  · exact h'
  · obtain ⟨now', h'⟩ := h'
    refine ⟨now, .inr ⟨hl, ?_⟩⟩
    rcases h' with rfl | ⟨-, rfl⟩ <;> rfl

end Cell.Endures

/-! ## Loads and connections -/

variable {F C : Type} {n : Nat}

/-- The shard a connection is on. -/
def Connection.home : Connection n → Option (Fin n)
  | .idle home _ => some home
  | .busy home _ _ _ _ => some home
  | _ => none

theorem Connection.home_answer (id index : Nat) (reply : Option Bytes) (conn : Connection n) :
    (conn.answer id index reply).home = conn.home := by
  cases conn with
  | busy home db id' args parts =>
    rw [answer]
    split <;> rfl
  | _ => rfl

namespace Server

/-- The main thread listens after it has handed out the dump, and a shard accepts after it
has loaded. -/
structure Launched (σ : Server F C n) : Prop where
  unsent : σ.listening = true → ∀ s, σ.unsent s = []
  listening : ∀ c, σ.conns c ≠ .absent → σ.listening = true
  control : ∀ {c home}, (σ.conns c).home = some home → σ.control home = []

theorem launched_start [NeZero n] (entries : List (Persistence.RdbEntry F)) :
    (Server.start entries : Server F C n).Launched where
  unsent := by rintro ⟨⟩
  listening := fun c h => absurd rfl h
  control := by rintro c home ⟨⟩

/-- No load with an entry for the cell is left for the shard. -/
structure Loaded (σ : Server F C n) (s : Fin n) (a : Addr) : Prop where
  unsent : ∀ e ∈ σ.unsent s, e.addr ≠ a
  control : ∀ entries ∈ σ.control s, ∀ e ∈ entries, e.addr ≠ a

variable [DecidableEq C] {σ σ' : Server F C n}

/-- A connection is replaced by one that is on the same shard, or on none. -/
theorem Launched.setConn (h : σ.Launched) {c : C} {conn : Connection n} (hold : σ.conns c ≠ .absent)
    (hconn : conn.home = none ∨ conn.home = (σ.conns c).home)
    (hconns : σ'.conns = update σ.conns c conn) (hcontrol : σ'.control = σ.control)
    (hunsent : σ'.unsent = σ.unsent) (hlistening : σ'.listening = σ.listening) : σ'.Launched where
  unsent := by
    rw [hlistening, hunsent]
    exact h.unsent
  listening := fun _ _ => hlistening ▸ h.listening c hold
  control := by
    intro c' home hhome
    rw [hconns] at hhome
    rw [hcontrol]
    by_cases hc : c' = c
    · rw [hc, update_self] at hhome
      rcases hconn with hnone | hsame
      · rw [hnone] at hhome
        cases hhome
      · exact h.control (hsame.symm.trans hhome)
    · rw [update_of_ne hc] at hhome
      exact h.control hhome

variable [F64 F] [HashOrder] [CaseTable] [NeZero n] {steady : Prop} {events τ : List (Event C n)}

theorem Launched.step (hc : σ.Consistent) (h : σ.Launched) (hstep : σ.Step steady events σ') :
    σ'.Launched := by
  have hbusy : ∀ {c home db id args parts}, σ.conns c = .busy home db id args parts →
      σ.conns c ≠ .absent := by
    intro c home db id args parts hconn habsent
    rw [hconn] at habsent
    cases habsent
  cases hstep with
  | @sendLoad s hunsent hup =>
    -- the main thread is not listening yet, so nothing is accepted
    have hquiet : σ.listening ≠ true := fun hl => hunsent (h.unsent hl s)
    refine ⟨fun hl => absurd hl hquiet, h.listening, fun {c home} hhome => ?_⟩
    refine absurd (h.listening c ?_) hquiet
    intro habsent
    rw [habsent] at hhome
    cases hhome
  | listen hsent => exact ⟨fun _ => hsent, fun _ _ => rfl, h.control⟩
  | @connect s c hlisten hup hconn =>
    refine ⟨h.unsent, fun _ _ => hlisten, fun {c' home} hhome => ?_⟩
    change (update σ.conns c .queued c').home = some home at hhome
    by_cases hcc : c' = c
    · rw [hcc, update_self] at hhome
      cases hhome
    · rw [update_of_ne hcc] at hhome
      exact h.control hhome
  | @take s task tasks now ω data hup hcross hclock hreply =>
    obtain ⟨home, args, parts, sub, hconn, -⟩ := hc.tasks (hcross ▸ List.mem_cons_self)
    exact h.setConn (hbusy hconn) (.inr (Connection.home_answer ..)) rfl rfl rfl rfl
  | @load s entries loads now sh hup hcross hcontrol hclock hload =>
    refine ⟨h.unsent, h.listening, fun {c home} hhome => ?_⟩
    have hempty := h.control hhome
    refine (update_of_ne ?_ ..).trans hempty
    rintro rfl
    rw [hcontrol] at hempty
    cases hempty
  | @accept s c clients hup hcross hcontrol hincoming hconn =>
    have hold : σ.conns c ≠ .absent := by
      rw [hconn]
      rintro ⟨⟩
    refine ⟨h.unsent, fun _ _ => h.listening c hold, fun {c' home} hhome => ?_⟩
    change (update σ.conns c (.idle s 0) c').home = some home at hhome
    by_cases hcc : c' = c
    · rw [hcc, update_self] at hhome
      cases hhome
      exact hcontrol
    · rw [update_of_ne hcc] at hhome
      exact h.control hhome
  | stop | tick | expiry => exact ⟨h.unsent, h.listening, h.control⟩
  | @issue c home db args hup hconn =>
    refine h.setConn (c := c) ?_ (.inr (by rw [hconn]; rfl)) rfl rfl rfl rfl
    rw [hconn]
    rintro ⟨⟩
  | runLocal hup hconn => exact h.setConn (hbusy hconn) (.inr (by rw [hconn]; rfl)) rfl rfl rfl rfl
  | drop hup hconn => exact h.setConn (hbusy hconn) (.inl rfl) rfl rfl rfl rfl
  | send hup hconn => exact h.setConn (hbusy hconn) (.inr (by rw [hconn]; rfl)) rfl rfl rfl rfl
  | unavailable hup hconn =>
    exact h.setConn (hbusy hconn) (.inr (by rw [hconn]; rfl)) rfl rfl rfl rfl
  | @deliver c home db id args answers reply next hup hconn hreply =>
    refine h.setConn (hbusy hconn) ?_ rfl rfl rfl rfl
    cases next with
    | none => exact .inl rfl
    | some i => exact .inr (by rw [hconn]; rfl)

theorem Runs.trans {σ₁ σ₂ : Server F C n} {τ' : List (Event C n)} (h : σ.Runs steady τ σ₁)
    (h' : σ₁.Runs steady τ' σ₂) : σ.Runs steady (τ ++ τ') σ₂ := by
  induction h' with
  | refl => rwa [List.append_nil]
  | step _ hstep ih => exact List.append_assoc .. ▸ ih.step hstep

theorem Launched.runs (hc : σ.Consistent) (h : σ.Launched) (hrun : σ.Runs steady τ σ') :
    σ'.Launched := by
  induction hrun with
  | refl => exact h
  | step hrun hstep ih => exact ih.step (hc.runs hrun) hstep

/-! ## What is left to load -/

theorem Loaded.step {s : Fin n} {a : Addr} (h : σ.Loaded s a) (hstep : σ.Step steady events σ') :
    σ'.Loaded s a := by
  cases hstep with
  | @sendLoad s' hunsent hup =>
    refine ⟨?_, ?_⟩
    · intro e he
      change e ∈ update σ.unsent s' [] s at he
      by_cases hs : s = s'
      · rw [hs, update_self] at he
        cases he
      · rw [update_of_ne hs] at he
        exact h.unsent e he
    · intro entries hmem
      change entries ∈ update σ.control s' (σ.control s' ++ [σ.unsent s']) s at hmem
      by_cases hs : s = s'
      · subst hs
        rw [update_self, List.mem_append, List.mem_singleton] at hmem
        rcases hmem with hmem | rfl
        · exact h.control entries hmem
        · exact h.unsent
      · rw [update_of_ne hs] at hmem
        exact h.control entries hmem
  | @load s' entries loads now sh hup hcross hcontrol hclock hload =>
    refine ⟨h.unsent, fun entries' hmem => h.control entries' ?_⟩
    change entries' ∈ update σ.control s' loads s at hmem
    by_cases hs : s = s'
    · subst hs
      rw [update_self] at hmem
      exact hcontrol ▸ List.mem_cons_of_mem _ hmem
    · rwa [update_of_ne hs] at hmem
  | _ => exact ⟨h.unsent, h.control⟩

/-- A step changes a loaded cell only if it runs a command that writes to it. -/
theorem Loaded.endures_step (hc : σ.Consistent) {s : Fin n} {a : Addr} (h : σ.Loaded s a)
    (hstep : σ.Step steady events σ')
    (havoid : ∀ id db now args reply, .ran s id db now args reply ∈ events → Avoids F a db args) :
    ((σ.shards s).dbSlice.cell a).Endures ((σ'.shards s).dbSlice.cell a) := by
  have hchange := hstep.change hc s
  generalize σ'.shards s = sh at hchange
  cases hchange with
  | same => exact .refl
  | @purged now sh hclock hpurges => exact ⟨_, hpurges.cell a⟩
  | @loaded entries loads now sh hcontrol hload =>
    rw [EngineShard.loadEntries_frame hload (h.control entries (hcontrol ▸ List.mem_cons_self))]
    exact .refl
  | @ran home args sub id db now ω hroute htarget hclock =>
    exact ⟨_, havoid id db now sub.args _ List.mem_cons_self ω ((σ.shards s).updateTime now)⟩

theorem Loaded.endures (hc : σ.Consistent) {s : Fin n} {a : Addr} (h : σ.Loaded s a)
    (hrun : σ.Runs steady τ σ')
    (havoid : ∀ id db now args reply, .ran s id db now args reply ∈ τ → Avoids F a db args) :
    σ'.Loaded s a ∧ ((σ.shards s).dbSlice.cell a).Endures ((σ'.shards s).dbSlice.cell a) := by
  induction hrun with
  | refl => exact ⟨h, .refl⟩
  | step hrun hstep ih =>
    obtain ⟨hl, he⟩ :=
      ih fun id db now args reply hmem => havoid id db now args reply (List.mem_append_left _ hmem)
    refine ⟨hl.step hstep, he.trans (hl.endures_step (hc.runs hrun) hstep ?_)⟩
    exact fun id db now args reply hmem =>
      havoid id db now args reply (List.mem_append_right _ hmem)

/-! ## Acknowledged writes -/

/-- The client has got the `OK` of a `SET` of the key on a connection on `home`. -/
inductive Acknowledges (steady : Prop) (σ : Server F C n) (c : C) (home : Fin n) (a : Addr) :
    Server F C n → Prop
  | mk {σ' : Server F C n} {id : Nat} {args : List RespExpr} {parts : List (Part n)}
      (hconn : σ.conns c = .busy home a.1 id args parts)
      (hname : commandName args = .ok (ascii "SET")) (hkey : keyAt args 1 = a.2)
      (hstep : σ.Step steady [.delivered c id args sendOk] σ') :
      Acknowledges steady σ c home a σ'

/-- A write that is acknowledged while no load with an entry for the key is waiting, or next to
the shard of the key, is there until a later command writes the key. -/
theorem acknowledged_write_endures (entries : List (Persistence.RdbEntry F)) {σ₁ σ₂ : Server F C n}
    {τ' : List (Event C n)} (hrun : (Server.start entries).Runs steady τ σ) {c : C} {home : Fin n}
    {a : Addr} (hok : σ.Acknowledges steady c home a σ₁)
    (hloaded : home = shard a.2 n ∨ ∀ load ∈ σ.control (shard a.2 n), ∀ e ∈ load, e.addr ≠ a)
    (hlater : σ₁.Runs steady τ' σ₂)
    (havoid : ∀ id db now args reply, .ran (shard a.2 n) id db now args reply ∈ τ' →
      Avoids F a db args) :
    ((σ₁.shards (shard a.2 n)).dbSlice.cell a).Endures
      ((σ₂.shards (shard a.2 n)).dbSlice.cell a) := by
  obtain ⟨hconn, hname, hkey, hstep⟩ := hok
  have hc := (consistent_start entries).runs hrun
  have hlaunch := (launched_start entries).runs (consistent_start entries) hrun
  have hunsent : σ.unsent (shard a.2 n) = [] := by
    refine hlaunch.unsent (hlaunch.listening c ?_) _
    rw [hconn]
    rintro ⟨⟩
  have hl : σ.Loaded (shard a.2 n) a := by
    refine ⟨fun e he => ?_, ?_⟩
    · rw [hunsent] at he
      cases he
    · rcases hloaded with rfl | hloads
      · have hempty : σ.control (shard a.2 n) = [] := hlaunch.control (c := c) (by rw [hconn]; rfl)
        intro load hmem
        rw [hempty] at hmem
        cases hmem
      · exact hloads
  exact ((hl.step hstep).endures (hc.step hstep) hlater havoid).2

end Server

section Fixed

attribute [local instance] F64.whole CaseTable.identity HashOrder.arbitrary neZeroTwo

/-- The command line of a plain `SET`. -/
def setLine (key value : String) :
    List RespExpr := [.string (ascii "SET"), .string (ascii key), .string (ascii value)]

theorem dispatchCommand_setLine (home : Fin 2) (key value : String) :
    dispatchCommand Int home (setLine key value) =
      .run (shard (ascii key) 2) (setLine key value) := by
  have hname : commandName (setLine key value) = .ok (ascii "SET") :=
    commandName_of_find (F := Int) find_set _
  have hclass : classifyCommand (ascii "SET") 1 = .singleKey := by decide
  have hkey : keyAt (setLine key value) 1 = ascii key := rfl
  have hplan := dispatchCommand_singleKey (F := Int) home find_set hname hclass rfl
  dsimp only at hplan
  rw [hplan, hkey]

theorem perform_setLine (sh : EngineShard Int) (ω : Listing Bytes) (now : UInt64)
    (key value : String) :
    (sh.perform ω now 0 (setLine key value)).reply = some sendOk ∧
      (sh.perform ω now 0 (setLine key value)).shard.dbSlice.nowMs = now ∧
      (sh.perform ω now 0 (setLine key value)).shard.dbSlice.cell =
        update sh.dbSlice.cell (0, ascii key) (some (.fromBytes (ascii value)), none) := by
  have hkey : (⟨setLine key value, 0⟩ : CommandContext).argBytes 1 = some (ascii key) := rfl
  have hleaves := cmdSet_plain hkey rfl rfl ω ⟨(sh.updateTime now).dbSlice, ⟨0⟩⟩
  have hres : resolve (setLine key value) = .run ⟨ascii "SET", StringFamily.cmdSet (F := Int), -3,
    1⟩ :=
    resolve_string find_set rfl
  exact ⟨(dispatch_leaves hres hleaves).1, dispatch_nowMs hres hleaves,
    (dispatch_leaves hres hleaves).2⟩

/-- A server of two that listens, with a client of the other shard, while the load of the shard
of `a` is waiting. -/
def waitingLoad (sh : EngineShard Int) (tasks : List (CrossShardTask Bool))
    (loads : List (List (LoadEntry Int))) (clients : List Bool) (conn : Connection 2)
    (issued : Nat) : Server Int Bool 2 where
  shards := update (fun _ => .new) (shard (ascii "a") 2) sh
  stopped _ := false
  cross := update (fun _ => []) (shard (ascii "a") 2) tasks
  control := update (fun _ => []) (shard (ascii "a") 2) loads
  incoming := update (fun _ => []) (shard (ascii "a") 2 + 1) clients
  conns := update (fun _ => .absent) true conn
  unsent _ := []
  listening := true
  issued := issued

theorem next_ne_shard : shard (ascii "a") 2 + 1 ≠ shard (ascii "a") 2 := by
  generalize shard (ascii "a") 2 = s
  revert s
  decide

section

variable {sh : EngineShard Int} {tasks : List (CrossShardTask Bool)}
  {loads : List (List (LoadEntry Int))}
  {clients : List Bool} {conn : Connection 2} {issued : Nat}

theorem shards_waitingLoad :
    (waitingLoad sh tasks loads clients conn issued).shards (shard (ascii "a") 2) = sh := by
  simp only [waitingLoad, update_self]

theorem cross_waitingLoad :
    (waitingLoad sh tasks loads clients conn issued).cross (shard (ascii "a") 2) = tasks := by
  simp only [waitingLoad, update_self]

theorem control_waitingLoad :
    (waitingLoad sh tasks loads clients conn issued).control (shard (ascii "a") 2) = loads := by
  simp only [waitingLoad, update_self]

/-- The other shard has nothing to do but to accept the client. -/
theorem waitingLoad_next :
    (waitingLoad sh tasks loads clients conn issued).cross (shard (ascii "a") 2 + 1) = [] ∧
    (waitingLoad sh tasks loads clients conn issued).control (shard (ascii "a") 2 + 1) = [] ∧
    (waitingLoad sh tasks loads clients conn issued).incoming (shard (ascii "a") 2 + 1) =
    clients := by
  simp only [waitingLoad, update_of_ne next_ne_shard, update_self, and_self]

end

theorem unsent_others :
    update (Server.start [oneEntry] : Server Int Bool 2).unsent (shard (ascii "a") 2)
    [] = fun _ => [] := by
  funext s
  by_cases hs : s = shard (ascii "a") 2
  · rw [hs, update_self]
  · rw [update_of_ne hs]
    change EngineShardSet.distribute 2 [oneEntry] s = []
    rw [EngineShardSet.distribute, List.foldl_cons, List.foldl_nil]
    exact update_of_ne hs ..

/-- The client is accepted by the other shard, whatever is left to load. -/
theorem runs_accept (sh : EngineShard Int) (loads : List (List (LoadEntry Int))) :
    (waitingLoad sh [] loads [] .absent 0).Runs True []
      (waitingLoad sh [] loads [] (.idle (shard (ascii "a") 2 + 1) 0) 0) := by
  have hconnect :
      (waitingLoad sh [] loads [] .absent 0).Step True []
        (waitingLoad sh [] loads [true] .queued 0) := by
    have h : (waitingLoad sh [] loads [] .absent 0).Step True [] _ :=
      .connect (s := shard (ascii "a") 2 + 1) (c := true) rfl rfl rfl
    simpa only [waitingLoad, update_idem, update_self, List.nil_append] using h
  have haccept : (waitingLoad sh [] loads [true] .queued 0).Step True []
      (waitingLoad sh [] loads [] (.idle (shard (ascii "a") 2 + 1) 0) 0) := by
    have h : (waitingLoad sh [] loads [true] .queued 0).Step True [] _ :=
      .accept (c := true) rfl waitingLoad_next.1 waitingLoad_next.2.1 waitingLoad_next.2.2 rfl
    simpa only [waitingLoad, update_idem] using h
  exact (Server.Runs.refl.step hconnect).step haccept

/-- The entries are handed out and the client is accepted by the other shard. -/
theorem runs_waitingLoad : (Server.start [oneEntry] : Server Int Bool 2).Runs True []
    (waitingLoad .new [] [[.ofRdb oneEntry]] [] (.idle (shard (ascii "a") 2 + 1) 0) 0) := by
  have hsend : (Server.start [oneEntry] : Server Int Bool 2).Step True []
      { waitingLoad .new [] [[.ofRdb oneEntry]] [] .absent 0 with listening := false } := by
    have h : (Server.start [oneEntry] : Server Int Bool 2).Step True [] _ :=
      .sendLoad (s := shard (ascii "a") 2) (unsent_oneEntry ▸ List.cons_ne_nil _ _) rfl
    rw [unsent_oneEntry, unsent_others] at h
    simp only [waitingLoad, update_eq_self]
    exact h
  have hlisten :
      Server.Step True { waitingLoad .new [] [[.ofRdb oneEntry]] [] .absent 0 with listening :=
      false } [] (waitingLoad .new [] [[.ofRdb oneEntry]] [] .absent 0) := .listen fun _ => rfl
  exact ((Server.Runs.refl.step hsend).step hlisten).trans (runs_accept .new [[.ofRdb oneEntry]])

/-- The shard of `a` loads its entry. -/
theorem step_waitingLoad (sh : EngineShard Int) (hnow : sh.dbSlice.nowMs = 0) (conn : Connection 2)
    (issued : Nat) :
    ∃ sh', (waitingLoad sh [] [[.ofRdb oneEntry]] [] conn issued).Step True
    [] (waitingLoad sh' [] [] [] conn issued) ∧
      sh'.dbSlice.cell = update sh.dbSlice.cell (0, ascii "a")
        (some (.string (ascii "1")), (sh.dbSlice.cell (0, ascii "a")).2) := by
  obtain ⟨sh', hload, hcell⟩ := load_oneEntry sh
  have h : (waitingLoad sh [] [[.ofRdb oneEntry]] [] conn issued).Step True [] _ :=
    .load rfl cross_waitingLoad control_waitingLoad
      (fun _ => by rw [shards_waitingLoad, hnow]; exact UInt64.le_refl 0)
      (by rw [shards_waitingLoad]; exact hload)
  simp only [waitingLoad, update_idem] at h
  exact ⟨sh', h, hcell⟩

/-- A command of the client for the shard of `a` on its way. -/
def remoteCommand (id : Nat) (args : List RespExpr) (progress : Progress) : Connection 2 :=
  .busy (shard (ascii "a") 2 + 1) 0 id args [⟨⟨shard (ascii "a") 2, args, []⟩, progress⟩]

section

variable {args : List RespExpr} (sh : EngineShard Int) (loads : List (List (LoadEntry Int)))
  (id : Nat)

theorem step_issue
    (hplan : dispatchCommand Int (shard (ascii "a") 2 + 1) args = .run (shard (ascii "a") 2) args) :
    (waitingLoad sh [] loads [] (.idle (shard (ascii "a") 2 + 1) 0) id).Step True
    [.issued true id 0 args]
      (waitingLoad sh [] loads [] (remoteCommand id args .unsent) (id + 1)) := by
  have h : (waitingLoad sh [] loads [] (.idle (shard (ascii "a") 2 + 1) 0) id).Step True
      [.issued true id 0 args] _ := .issue rfl rfl
  rw [hplan] at h
  simp only [waitingLoad, update_idem] at h ⊢
  exact h

theorem step_send (args : List RespExpr) :
    (waitingLoad sh [] loads [] (remoteCommand id args .unsent) (id + 1)).Step True []
    (waitingLoad sh [⟨args, 0, true, id, 0⟩] loads [] (remoteCommand id args .sent) (id + 1)) := by
  have hlocals : ∀ part ∈ [(⟨⟨shard (ascii "a") 2, args, []⟩, .unsent⟩ : Part 2)],
      part.sub.target = shard (ascii "a") 2 + 1 → ∃ reply, part.progress = .answered reply := by
    rintro part (_ | ⟨_, ⟨⟩⟩) htarget
    exact absurd htarget next_ne_shard.symm
  have h : (waitingLoad sh [] loads [] (remoteCommand id args .unsent) (id + 1)).Step True [] _ :=
    .send (c := true) rfl rfl (List.getElem?_cons_zero ..) next_ne_shard.symm rfl hlocals
  simp only [waitingLoad, update_idem, update_self] at h ⊢
  exact h

theorem step_take {ω : Listing Bytes} {now : UInt64} {data : Bytes}
    (hclock : sh.dbSlice.nowMs ≤ now) (hreply : (sh.perform ω now 0 args).reply = some data) :
    (waitingLoad sh [⟨args, 0, true, id, 0⟩] loads [] (remoteCommand id args .sent) (id + 1)).Step
      True [.ran (shard (ascii "a") 2) id 0 now args (some data)]
      (waitingLoad (sh.perform ω now 0 args).shard [] loads []
        (remoteCommand id args (.answered (some data))) (id + 1)) := by
  have h : (waitingLoad sh [⟨args, 0, true, id, 0⟩] loads [] (remoteCommand id args .sent)
      (id + 1)).Step True _ _ :=
    .take rfl cross_waitingLoad (fun _ => by rw [shards_waitingLoad]; exact hclock)
      (by rw [shards_waitingLoad]; exact hreply)
  have hanswer : (remoteCommand id args .sent).answer id 0 (some data) =
      remoteCommand id args (.answered (some data)) :=
    Connection.answer_busy (List.getElem?_cons_zero ..) _
  simp only [waitingLoad, update_idem, update_self, hanswer] at h ⊢
  exact h

theorem step_deliver (reply : Option Bytes)
    (hplan : dispatchCommand Int (shard (ascii "a") 2 + 1) args = .run (shard (ascii "a") 2) args) :
    (waitingLoad sh [] loads [] (remoteCommand id args (.answered reply)) (id + 1)).Step True
      [.delivered true id args (reply.getD (sendErr (ascii "shard unavailable")))]
      (waitingLoad sh [] loads [] (.idle (shard (ascii "a") 2 + 1) 0) (id + 1)) := by
  have hbusy : (waitingLoad sh [] loads [] (remoteCommand id args (.answered reply)) (id + 1)).conns
      true = .busy (shard (ascii "a") 2 + 1) 0 id args
        ([(⟨shard (ascii "a") 2, args, []⟩, reply)].map fun a => ⟨a.1, .answered a.2⟩) := rfl
  have h : (waitingLoad sh [] loads [] (remoteCommand id args (.answered reply)) (id + 1)).Step True
      [.delivered true id args (reply.getD (sendErr (ascii "shard unavailable")))] _ :=
    .deliver rfl hbusy (by rw [hplan]; exact .run)
  simp only [waitingLoad, update_idem] at h
  exact h

end

/-- The shard of `a` runs the task of the client, whatever is left to load. -/
theorem runs_setLine (sh : EngineShard Int) (loads : List (List (LoadEntry Int))) : ∃ τ,
    (waitingLoad sh [] loads [] (.idle (shard (ascii "a") 2 + 1) 0) 0).Runs True τ
      (waitingLoad (sh.perform (.arbitrary Bytes) sh.dbSlice.nowMs 0 (setLine "a" "2")).shard
        [] loads [] (remoteCommand 0 (setLine "a" "2") (.answered (some sendOk))) 1) := by
  have hissue := step_issue sh loads 0 (dispatchCommand_setLine _ "a" "2")
  have hsend := step_send sh loads 0 (setLine "a" "2")
  have htake := step_take sh loads 0 (UInt64.le_refl _)
    (perform_setLine sh (.arbitrary Bytes) sh.dbSlice.nowMs "a" "2").1
  exact ⟨_, ((Server.Runs.refl.step hissue).step hsend).step htake⟩

theorem acknowledges_setLine (sh : EngineShard Int) (loads : List (List (LoadEntry Int))) :
    (waitingLoad sh [] loads [] (remoteCommand 0 (setLine "a" "2") (.answered (some sendOk)))
      1).Acknowledges True true
      (shard (ascii "a") 2 + 1) (0, ascii "a")
        (waitingLoad sh [] loads [] (.idle (shard (ascii "a") 2 + 1) 0) 1) := by
  have hdeliver := step_deliver sh loads 0 (some sendOk) (dispatchCommand_setLine _ "a" "2")
  exact .mk rfl (commandName_of_find (F := Int) find_set _) rfl hdeliver

/-- The entry of the dump is loaded after the write of the client. -/
theorem load_overwrites_acknowledged :
    ∃ (τ : List (Event Bool 2)) (home : Fin 2) (σ σ₁ σ₂ : Server Int Bool 2),
    (Server.start [oneEntry]).Runs True τ σ ∧ σ.Acknowledges True true home (0, ascii "a") σ₁ ∧
      σ₁.Runs True [] σ₂ ∧
      (σ₁.shards (shard (ascii "a") 2)).dbSlice.cell (0, ascii "a") = (some (.integer 2), none) ∧
      (σ₂.shards (shard (ascii "a") 2)).dbSlice.cell (0, ascii "a") =
      (some (.string (ascii "1")), none) := by
  obtain ⟨τ, hset⟩ := runs_setLine .new [[.ofRdb oneEntry]]
  obtain ⟨-, hnow, hcell⟩ :=
    perform_setLine .new (.arbitrary Bytes) (EngineShard.new : EngineShard Int).dbSlice.nowMs "a"
      "2"
  have hvalue := congrFun hcell (0, ascii "a")
  rw [update_self] at hvalue
  generalize (EngineShard.perform (F := Int) _ _ _ _ _).shard = sh at hset hnow hvalue
  obtain ⟨sh', hload, hcell'⟩ := step_waitingLoad sh hnow (.idle (shard (ascii "a") 2 + 1) 0) 1
  refine ⟨_, _, _, _, _, runs_waitingLoad.trans hset, acknowledges_setLine _ _,
    Server.Runs.refl.step hload, ?_, ?_⟩
  · rw [shards_waitingLoad, hvalue]
    rfl
  · rw [shards_waitingLoad, hcell', update_self, hvalue]

/-- Where the entry was loaded before, the write stays. -/
theorem acknowledged_write_endures_loaded :
    ∃ (τ : List (Event Bool 2)) (home : Fin 2) (σ σ₁ σ₂ : Server Int Bool 2),
    (Server.start [oneEntry]).Runs True τ σ ∧ σ.Acknowledges True true home (0, ascii "a") σ₁ ∧
      σ₁.Runs True [] σ₂ ∧ ((σ₁.shards (shard (ascii "a") 2)).dbSlice.cell (0, ascii "a")).Endures
        ((σ₂.shards (shard (ascii "a") 2)).dbSlice.cell (0, ascii "a")) := by
  obtain ⟨sh, hload, -⟩ := step_waitingLoad .new rfl (.idle (shard (ascii "a") 2 + 1) 0) 0
  obtain ⟨τ, hset⟩ := runs_setLine sh []
  generalize (sh.perform (.arbitrary Bytes) sh.dbSlice.nowMs 0 (setLine "a" "2")).shard =
    sh1 at hset
  have hrun := (runs_waitingLoad.step hload).trans hset
  have hok := acknowledges_setLine sh1 []
  have htick : (waitingLoad sh1 [] [] [] (.idle (shard (ascii "a") 2 + 1) 0) 1).Runs True [] _ :=
    Server.Runs.refl.step (.tick (s := shard (ascii "a") 2) rfl fun _ => UInt64.le_refl _)
  have hloaded :
      ∀ load ∈ (waitingLoad sh1 [] [] []
        (remoteCommand 0 (setLine "a" "2") (.answered (some sendOk))) 1).control
      (shard (ascii "a") 2), ∀ e ∈ load, e.addr ≠ (0, ascii "a") := by
    intro load hmem
    rw [control_waitingLoad] at hmem
    cases hmem
  have hkept := Server.acknowledged_write_endures [oneEntry] hrun hok (.inr hloaded) htick
    fun _ _ _ _ _ hmem => absurd hmem List.not_mem_nil
  exact ⟨_, _, _, _, _, hrun, hok, htick, hkept⟩

end Fixed

end ShrikeDb
