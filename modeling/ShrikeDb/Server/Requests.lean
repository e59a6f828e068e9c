import ShrikeDb.Server.Loops
import ShrikeDb.Server.Registry

/-! One command on one key. Most handlers look their key up and answer from the value, or
edit it in place; the key's cell after the command, and the reply, are functions of the
cell before it and of the clock. -/

namespace ShrikeDb

open Program Command ReplyBuilder CommandRegistry Function

variable {F : Type}

/-- The cell of a key as a client sees it. -/
def EngineShard.found (s : EngineShard F) (conn : ConnContext) (key : Bytes) : Cell F :=
  (s.dbSlice.cell (conn.dbIndex, key)).live s.dbSlice.nowMs

/-- The value a client finds under a key. -/
def EngineShard.held (s : EngineShard F) (conn : ConnContext) (key : Bytes) :
    Option (PrimeValue F) :=
  ((s.dbSlice.cell (conn.dbIndex, key)).live s.dbSlice.nowMs).1

/-- An accepted call of the named command. -/
def Calls (F : Type) [F64 F] [HashOrder] [CaseTable] (args : List RespExpr) (name : Bytes) : Prop :=
  commandName args = .ok name ∧ ∃ e : CommandEntry F, resolve args = .run e

section Dispatch

variable [F64 F] [HashOrder] [CaseTable] {args : List RespExpr} {entry : CommandEntry F}

variable {ω : Listing Bytes} {conn : ConnContext} {sh : EngineShard F} {reply name : Bytes}
  {cells : Addr → Cell F}

theorem dispatch_leaves (hres : resolve args = .run entry)
    (h : Leaves ω (entry.handler ⟨args, conn.dbIndex⟩) ⟨sh.dbSlice, conn⟩ reply cells) :
    (dispatch ω args conn sh).reply = some reply ∧
    (dispatch ω args conn sh).shard.dbSlice.cell = cells := by
  obtain ⟨y, hrun, hcell, -⟩ := h
  rw [dispatch, hres]
  dsimp only
  rw [hrun]
  exact ⟨rfl, hcell⟩

theorem dispatch_nowMs (hres : resolve args = .run entry)
    (h : Leaves ω (entry.handler ⟨args, conn.dbIndex⟩) ⟨sh.dbSlice, conn⟩ reply cells) :
    (dispatch ω args conn sh).shard.dbSlice.nowMs = sh.dbSlice.nowMs := by
  obtain ⟨y, hrun, -, hnow, -⟩ := h
  rw [dispatch, hres]
  dsimp only
  rw [hrun]
  exact hnow

/-- What a command leaves under its key, as a client finds it. -/
theorem dispatch_held (hres : resolve args = .run entry) {key : Bytes} {c : Cell F}
    (h : Leaves ω (entry.handler ⟨args, conn.dbIndex⟩) ⟨sh.dbSlice, conn⟩ reply
      (update sh.dbSlice.cell (conn.dbIndex, key) c)) :
    (dispatch ω args conn sh).reply = some reply ∧
      (dispatch ω args conn sh).shard.held conn key = (c.live sh.dbSlice.nowMs).1 := by
  obtain ⟨hreply, hcells⟩ := dispatch_leaves hres h
  refine ⟨hreply, ?_⟩
  rw [EngineShard.held, hcells, dispatch_nowMs hres h, update_self]

theorem Calls.resolve (h : Calls F args name) (hfind : find name = some entry) :
    resolve args = .run entry := by
  obtain ⟨hname, e, he⟩ := h
  obtain ⟨hfind', hname'⟩ := resolve_run he
  have hsame : e.name = name := Except.ok.inj (hname'.symm.trans hname)
  rw [hsame, hfind] at hfind'
  rw [he, Option.some.inj hfind']

theorem Calls.of_find (hname : commandName args = .ok name) (hfind : find name = some entry)
    (harity : arityOk entry.arity args.length = true) : Calls F args name := by
  refine ⟨hname, entry, ?_⟩
  rw [resolve_of_find hname hfind, if_pos harity]

/-- The reply to a command with one key. -/
def asked (ω : Listing Bytes) (conn : ConnContext) (s : EngineShard F) (key name : Bytes) :
    Option Bytes :=
  (dispatch ω [.string name, .string key] conn s).reply

theorem asked_eq {s : EngineShard F} {key : Bytes} (hfind : find name = some entry)
    (harity : arityOk entry.arity 2 = true)
    (h : Leaves ω (entry.handler ⟨[.string name, .string key], conn.dbIndex⟩)
      ⟨s.dbSlice, conn⟩ reply cells) :
    asked ω conn s key name = some reply := by
  have hres : resolve [.string name, .string key] = .run entry :=
    resolve_string hfind harity
  exact (dispatch_leaves hres h).1

end Dispatch

/-! ## Handlers that read -/

/-- What a handler that reads one value replies to it. -/
def viewed {κ : Type} (kind : PrimeValue F → Option κ) (present : κ → Bytes) (absent : Bytes) :
    Option (PrimeValue F) → Bytes
  | none => absent
  | some v => ((kind v).map present).getD (sendWrongType [])

theorem view_leaves {κ : Type} (kind : PrimeValue F → Option κ) (i : DbIndex) (key : Bytes)
    (present : κ → Bytes) (absent : Bytes) (ω : Listing Bytes) (x : Exec F) :
    Leaves ω (view kind i key present absent) x
      (viewed kind present absent ((x.slice.cell (i, key)).live x.slice.nowMs).1)
      (update x.slice.cell (i, key) ((x.slice.cell (i, key)).live x.slice.nowMs)) := by
  refine (Leaves.perform (o := .find i key) rfl ω x).bind fun y hy _ => ?_
  have hpure := fun reply : Bytes => Leaves.pure ω y reply
  rw [hy] at hpure
  dsimp only [DbOp.answer, DbOp.found]
  cases ((x.slice.cell (i, key)).live x.slice.nowMs).1 with
  | none => exact hpure absent
  | some v =>
    dsimp only [Option.map_some, viewed]
    cases kind v with
    | none => exact hpure _
    | some c => exact hpure _

/-- The cells after a key was looked up. -/
def Exec.lookedUp (x : Exec F) (a : Addr) : Addr → Cell F :=
  update x.slice.cell a ((x.slice.cell a).live x.slice.nowMs)

variable {ω : Listing Bytes} {x : Exec F}

theorem find_leaves (i : DbIndex) (key : Bytes) :
    Leaves ω (Command.find i key) x (DbOp.found ((x.slice.cell (i, key)).live x.slice.nowMs))
      (x.lookedUp (i, key)) :=
  Leaves.perform (o := .find i key) rfl ω x

variable {ctx : CommandContext} {key : Bytes}

theorem Leaves.nowMs (ω : Listing Bytes) (x : Exec F) :
    Leaves ω Command.nowMs x x.slice.nowMs x.slice.cell := ⟨x, rfl, rfl, rfl, rfl⟩

theorem Leaves.nowMs_bind {β : Type} {f : UInt64 → Command F β} {b : β} {cells : Addr → Cell F}
    (h : Leaves ω (f x.slice.nowMs) x b cells) : Leaves ω (Command.nowMs >>= f) x b cells := h

theorem Leaves.arg_bind {β : Type} {n : Nat} {a : Bytes} (ha : ctx.argBytes n = some a)
    {f : Bytes → Command F β} {b : β} {cells : Addr → Cell F} (h : Leaves ω (f a) x b cells) :
    Leaves ω (arg ctx n >>= f) x b cells := by
  rw [arg, ha]
  exact h

theorem read_leaves {κ : Type} (hkey : ctx.argBytes 1 = some key) (kind : PrimeValue F → Option κ)
    (present : κ → Bytes) (absent : Bytes) (ω : Listing Bytes) (x : Exec F) :
    Leaves ω (arg ctx 1 >>= fun key => view kind ctx.dbIndex key present absent) x
      (viewed kind present absent ((x.slice.cell (ctx.dbIndex, key)).live x.slice.nowMs).1)
      (x.lookedUp (ctx.dbIndex, key)) :=
  .arg_bind hkey (view_leaves kind ctx.dbIndex key present absent ω x)

/-! ## Handlers that edit -/

namespace Command.Edit

def reply : Edit F → Bytes
  | .keep reply => reply
  | .put _ _ reply => reply

/-- What an edit makes of the cell whose value it holds. -/
def onCell : Edit F → Cell F → Cell F
  | .keep _, c => c
  | .put value empty _, c => if empty then Cell.empty else (some value, c.2)

/-- What it leaves under a key with the value `v`. -/
def left : Edit F → PrimeValue F → Option (PrimeValue F)
  | .keep _, v => some v
  | .put value empty _, _ => if empty then none else some value

end Command.Edit

/-- A value written over a live one lives as long. -/
theorem Cell.live_overwrite (now : UInt64) (c : Cell F) (v : PrimeValue F) :
    Cell.live now (some v, (c.live now).2) = (some v, (c.live now).2) := by
  rcases Cell.live_cases now c with ⟨-, h⟩ | ⟨hlapsed, h⟩
  · rw [h]
    rfl
  · rw [h]
    exact Cell.live_of_not_lapsed hlapsed

theorem Command.Edit.onCell_live {v : PrimeValue F} (e : Edit F) (now : UInt64) {c : Cell F}
    (hv : (c.live now).1 = some v) : ((e.onCell (c.live now)).live now).1 = e.left v := by
  cases e with
  | keep reply => rw [onCell, Cell.live_live, hv, left]
  | put value empty reply =>
    cases empty with
    | true => rfl
    | false =>
      rw [onCell, if_neg Bool.false_ne_true, Cell.live_overwrite]
      rfl

/-- An operation whose answer is not looked at, and a reply. -/
theorem Leaves.invoke_pure {α : Type} {o : DbOp F} {a : Addr} (h : o.target = some a)
    (ω : Listing Bytes) (x : Exec F) (reply : α) :
    Leaves ω (Program.invoke (S := dbOps F) o >>= fun _ => Pure.pure reply) x reply
      (update x.slice.cell a (o.onCell x.slice.nowMs (x.slice.cell a))) :=
  (Leaves.invoke h ω x).bind fun y hy _ => hy ▸ Leaves.pure ω y reply

/-- A handler that goes on only if its key is there. -/
theorem Leaves.existsKey_bind {β : Type} {i : DbIndex} {key : Bytes} {v : PrimeValue F}
    (hv : ((x.slice.cell (i, key)).live x.slice.nowMs).1 = some v) {f : Bool → Command F β} {b : β}
    {c : Cell F}
    (h : ∀ y : Exec F, y.slice.cell (i, key) = (x.slice.cell (i, key)).live x.slice.nowMs →
      y.slice.nowMs = x.slice.nowMs → Leaves ω (f true) y b (update y.slice.cell (i, key) c)) :
    Leaves ω (existsKey i key >>= f) x b (update x.slice.cell (i, key) c) := by
  refine (existsKey_leaves i key).bind fun y hy hnow => ?_
  rw [hv, Option.isSome_some]
  have hrest := h y (by rw [hy, update_self]) hnow
  rw [hy, update_idem] at hrest
  exact hrest

/-- The value is stored over one that is there. -/
theorem editValue_leaves (i : DbIndex) (key : Bytes) (h : (x.slice.cell (i, key)).1.isSome = true)
    (e : Edit F) (ω : Listing Bytes) :
    Leaves ω (editValue i key e) x e.reply
      (update x.slice.cell (i, key) (e.onCell (x.slice.cell (i, key)))) := by
  cases e with
  | keep reply =>
    rw [Edit.onCell, update_eq_self]
    exact .pure ω x reply
  | put value empty reply =>
    refine (Leaves.invoke (o := .store i key value) rfl ω x).bind fun y hy _ => ?_
    rw [DbOp.onCell, if_pos h] at hy
    cases empty with
    | false =>
      have hpure := Leaves.pure ω y reply
      rw [hy] at hpure
      exact hpure
    | true =>
      refine (Leaves.invoke (o := .del i key) rfl ω y).bind fun z hz _ => ?_
      have hpure := Leaves.pure ω z reply
      rw [hz, hy, update_idem] at hpure
      exact hpure

section Edits

variable {κ : Type} {kind : PrimeValue F → Option κ} {i : DbIndex} {present : κ → Edit F}
  {absent : Command F Bytes} {x : Exec F} {v : PrimeValue F}

theorem tryEdit_leaves_some {present : κ → Except (PrimeValue F) (Edit F)} {c : κ} {e : Edit F}
    (hv : ((x.slice.cell (i, key)).live x.slice.nowMs).1 = some v) (hc : kind v = some c)
    (he : present c = .ok e) (ω : Listing Bytes) :
    Leaves ω (tryEdit kind i key present absent) x e.reply
      (update x.slice.cell (i, key)
        (e.onCell ((x.slice.cell (i, key)).live x.slice.nowMs))) := by
  refine (Leaves.perform (o := .findMut i key) rfl ω x).bind fun y hy hnow => ?_
  dsimp only [DbOp.answer, DbOp.found, DbOp.onCell] at hy ⊢
  rw [hv]
  dsimp only [Option.map_some]
  rw [hc]
  dsimp only
  rw [he]
  have hcell : y.slice.cell (i, key) = (x.slice.cell (i, key)).live x.slice.nowMs := by
    rw [hy, update_self]
  have hedit := editValue_leaves i key (x := y) (by rw [hcell, hv]; rfl) e ω
  rw [hcell, hy, update_idem] at hedit
  exact hedit

theorem edit_leaves_some {c : κ} (hv : ((x.slice.cell (i, key)).live x.slice.nowMs).1 = some v)
    (hc : kind v = some c) (ω : Listing Bytes) :
    Leaves ω (edit kind i key present absent) x (present c).reply
      (update x.slice.cell (i, key)
        ((present c).onCell ((x.slice.cell (i, key)).live x.slice.nowMs))) :=
  tryEdit_leaves_some hv hc rfl ω

theorem edit_leaves_none (hv : ((x.slice.cell (i, key)).live x.slice.nowMs).1 = none)
    {ω : Listing Bytes} {reply : Bytes} {cells : Addr → Cell F}
    (h : ∀ y : Exec F, y.slice.cell = x.lookedUp (i, key) → y.slice.nowMs = x.slice.nowMs →
      Leaves ω absent y reply cells) : Leaves ω (edit kind i key present absent) x reply cells := by
  refine (Leaves.perform (o := .findMut i key) rfl ω x).bind fun y hy hnow => ?_
  dsimp only [DbOp.answer, DbOp.found, DbOp.onCell] at hy ⊢
  rw [hv]
  exact h y hy hnow

theorem create_leaves (i : DbIndex) (key : Bytes) (value : PrimeValue F) (reply : Bytes)
    (ω : Listing Bytes) :
    Leaves ω (create i key value reply) x reply
      (update x.slice.cell (i, key) (some value, (x.slice.cell (i, key)).2)) := by
  refine (Leaves.invoke (o := .addOrUpdate i key value) rfl ω x).bind fun y hy _ => ?_
  exact hy ▸ Leaves.pure ω y reply

theorem edit_leaves_create (hv : ((x.slice.cell (i, key)).live x.slice.nowMs).1 = none)
    (value : PrimeValue F) (reply : Bytes) (ω : Listing Bytes) :
    Leaves ω (edit kind i key present (create i key value reply)) x reply
      (update x.slice.cell (i, key)
        (some value, ((x.slice.cell (i, key)).live x.slice.nowMs).2)) := by
  refine edit_leaves_none hv fun y hy _ => ?_
  have hcreate := create_leaves i key (x := y) value reply ω
  rw [hy, Exec.lookedUp, update_idem, update_self] at hcreate
  exact hcreate

end Edits

section Held

variable [F64 F] [HashOrder] [CaseTable] {args : List RespExpr} {entry : CommandEntry F}
  {conn : ConnContext}
  {sh : EngineShard F} {κ : Type} (kind : PrimeValue F → Option κ) {v : PrimeValue F} {c : κ}
  {ω : Listing Bytes} (hres : resolve args = .run entry) (hv : sh.held conn key = some v)
  (hc : kind v = some c)

include hres hv hc

/-- A command that comes down to a look at the value of its key. -/
theorem view_held {present : κ → Bytes} {absent : Bytes}
    (h : ∀ {reply cells},
      Leaves ω (view kind conn.dbIndex key present absent) ⟨sh.dbSlice, conn⟩ reply cells →
      Leaves ω (entry.handler ⟨args, conn.dbIndex⟩) ⟨sh.dbSlice, conn⟩ reply cells) :
    (dispatch ω args conn sh).reply = some (present c) ∧
      (dispatch ω args conn sh).shard.held conn key = some v := by
  have hlive : ((sh.dbSlice.cell (conn.dbIndex, key)).live sh.dbSlice.nowMs).1 = some v := hv
  obtain ⟨hreply, hheld⟩ :=
    dispatch_held hres (h (view_leaves kind conn.dbIndex key present absent ω ⟨sh.dbSlice, conn⟩))
  rw [hlive, viewed, hc] at hreply
  rw [Cell.live_live, hlive] at hheld
  exact ⟨hreply, hheld⟩

/-- A command that comes down to an edit of the value of its key. -/
theorem tryEdit_held {present : κ → Except (PrimeValue F) (Edit F)} {absent : Command F Bytes}
    {e : Edit F} (he : present c = .ok e) (h : ∀ {reply cells},
      Leaves ω (tryEdit kind conn.dbIndex key present absent) ⟨sh.dbSlice, conn⟩ reply cells →
        Leaves ω (entry.handler ⟨args, conn.dbIndex⟩) ⟨sh.dbSlice, conn⟩ reply cells) :
    (dispatch ω args conn sh).reply = some e.reply ∧
      (dispatch ω args conn sh).shard.held conn key = e.left v := by
  obtain ⟨hreply, hheld⟩ :=
    dispatch_held hres (h (tryEdit_leaves_some (x := ⟨sh.dbSlice, conn⟩) hv hc he ω))
  exact ⟨hreply, hheld.trans (e.onCell_live _ hv)⟩

theorem edit_held {present : κ → Edit F} {absent : Command F Bytes} (h : ∀ {reply cells},
      Leaves ω (edit kind conn.dbIndex key present absent) ⟨sh.dbSlice, conn⟩ reply cells →
        Leaves ω (entry.handler ⟨args, conn.dbIndex⟩) ⟨sh.dbSlice, conn⟩ reply cells) :
    (dispatch ω args conn sh).reply = some (present c).reply ∧
      (dispatch ω args conn sh).shard.held conn key = (present c).left v :=
  tryEdit_held kind hres hv hc rfl h

end Held

end ShrikeDb
