import ShrikeDb.Lib.Walk
import ShrikeDb.Server.Cells
import ShrikeDb.Server.GenericFamily
import ShrikeDb.Server.StringFamily

/-! The handlers that take a list of keys, as walks over the cells of the keys. -/

namespace ShrikeDb

open Program Command ReplyBuilder Walk Function GenericFamily StringFamily

variable {F α β ι : Type}

/-- The program returns `a`, leaves these cells, and changes neither clock nor
connection. -/
def Leaves (ω : Listing Bytes) (p : Command F α) (x : Exec F) (a : α) (cells : Addr → Cell F) :
    Prop :=
  ∃ y, run (step ω) p x = (some a, y) ∧ y.slice.cell = cells ∧ y.slice.nowMs = x.slice.nowMs ∧
    y.conn = x.conn

namespace Leaves

variable {ω : Listing Bytes} {x : Exec F} {a : α} {cells : Addr → Cell F}

theorem pure (ω : Listing Bytes) (x : Exec F) (a : α) :
    Leaves ω (pure a : Command F α) x a x.slice.cell := ⟨x, rfl, rfl, rfl, rfl⟩

theorem bind {p : Command F α} {f : α → Command F β} {b : β} {cells' : Addr → Cell F}
    (h : Leaves ω p x a cells)
    (hf : ∀ y : Exec F, y.slice.cell = cells → y.slice.nowMs = x.slice.nowMs →
      Leaves ω (f a) y b cells') : Leaves ω (p >>= f) x b cells' := by
  obtain ⟨y, hrun, hcell, hnow, hconn⟩ := h
  obtain ⟨z, hrun', hcell', hnow', hconn'⟩ := hf y hcell hnow
  exact ⟨z, (run_bind_of (step ω) f hrun).trans hrun', hcell', hnow'.trans hnow, hconn'.trans hconn⟩

/-- An operation on one cell. -/
theorem perform {o : DbOp F} {b : Addr} (h : o.target = some b) (ω : Listing Bytes) (x : Exec F) :
    Leaves ω (perform (S := dbOps F) o) x (o.answer x.slice.nowMs (x.slice.cell b))
      (update x.slice.cell b (o.onCell x.slice.nowMs (x.slice.cell b))) := by
  obtain ⟨hanswer, hcell, hnow⟩ := DbOp.apply_target h ω x.slice
  refine ⟨(step ω o x).2, congrArg (fun r => (some r, (step ω o x).2)) hanswer, hcell, hnow, ?_⟩
  cases o with
  | select => cases h
  | _ => rfl

theorem invoke {o : DbOp F} {b : Addr} (h : o.target = some b) (ω : Listing Bytes) (x : Exec F) :
    Leaves ω (invoke (S := dbOps F) o) x ()
      (update x.slice.cell b (o.onCell x.slice.nowMs (x.slice.cell b))) := by
  obtain ⟨y, hrun, hrest⟩ := perform h ω x
  exact ⟨y, congrArg (some (), ·) (Prod.mk.inj hrun).2, hrest⟩

/-- A loop whose rounds each work on one cell is a walk. -/
theorem forEach {f : ι → Command F β} {key : ι → Addr} {answer : ι → Cell F → β}
    {effect : ι → Cell F → Cell F} {now : UInt64} (hf : ∀ it (y : Exec F), y.slice.nowMs = now →
      Leaves ω (f it) y (answer it (y.slice.cell (key it)))
        (update y.slice.cell (key it) (effect it (y.slice.cell (key it))))) (items : List ι)
    (x : Exec F) (hx : x.slice.nowMs = now) :
    Leaves ω (forEach f items) x (walk key answer effect items x.slice.cell).1
      (walk key answer effect items x.slice.cell).2 := by
  induction items generalizing x with
  | nil => exact pure ω x []
  | cons it items ih =>
    refine (hf it x hx).bind fun y hcell hnow => ?_
    have hrest := ih y (hnow.trans hx)
    rw [hcell] at hrest
    exact hrest.bind fun z hz _ => hz ▸ pure ω z _

theorem ofOption {o : Option α} (h : o = some a) (ω : Listing Bytes) (x : Exec F) :
    Leaves ω (ofOption (S := dbOps F) o) x a x.slice.cell := by
  rw [h]
  exact pure ω x a

end Leaves

/-! ## The loops -/

section Loops

variable (i : DbIndex)

def delWalk (keys : List Bytes) (m : Addr → Cell F) : List Bool × (Addr → Cell F) :=
  walk (fun k => (i, k)) (fun _ c => c.1.isSome) (fun _ _ => Cell.empty) keys m

def existsWalk (now : UInt64) (keys : List Bytes) (m : Addr → Cell F) :
    List Bool × (Addr → Cell F) :=
  walk (fun k => (i, k)) (fun _ c => (c.live now).1.isSome) (fun _ c => c.live now) keys m

/-- The string `MGET` reads in a cell. -/
def stringAt (now : UInt64) (c : Cell F) : Option Bytes :=
  (c.live now).1.bind fun v => if v.isString then some v.asBytes else none

def mgetWalk (now : UInt64) (keys : List Bytes) (m : Addr → Cell F) :
    List (Option Bytes) × (Addr → Cell F) :=
  walk (fun k => (i, k)) (fun _ c => stringAt now c) (fun _ c => c.live now) keys m

def msetWalk (pairs : List (Bytes × Bytes)) (m : Addr → Cell F) : List Unit × (Addr → Cell F) :=
  walk (fun p => (i, p.1)) (fun _ _ => ()) (fun p _ => (some (.fromBytes p.2), none)) pairs m

end Loops

section Handlers

variable {ω : Listing Bytes} {x : Exec F} {ctx : CommandContext}

variable {keys : List Bytes}

theorem cmdDel_leaves (h : ctx.argsBytes 1 = some keys) :
    Leaves ω (cmdDel ctx) x
      (sendInteger (countTrue (delWalk ctx.dbIndex keys x.slice.cell).1))
      (delWalk ctx.dbIndex keys x.slice.cell).2 := by
  refine (Leaves.ofOption h ω x).bind fun y hy _ => ?_
  have hloop : Leaves ω (forEach (fun key => perform (S := dbOps F) (.del ctx.dbIndex key)) keys) y
      (delWalk ctx.dbIndex keys y.slice.cell).1 (delWalk ctx.dbIndex keys y.slice.cell).2 :=
    Leaves.forEach (fun k z _ => Leaves.perform (o := .del ctx.dbIndex k) rfl ω z) keys y rfl
  rw [hy] at hloop
  exact hloop.bind fun z hz _ => hz ▸ Leaves.pure ω z _

theorem existsKey_leaves (i : DbIndex) (key : Bytes) :
    Leaves ω (existsKey i key) x ((x.slice.cell (i, key)).live x.slice.nowMs).1.isSome
      (update x.slice.cell (i, key) ((x.slice.cell (i, key)).live x.slice.nowMs)) := by
  refine (Leaves.perform (o := .find i key) rfl ω x).bind fun y hy _ => ?_
  have hsome : ∀ c : Cell F, (DbOp.found c).isSome = c.1.isSome := fun c => Option.isSome_map
  have hy' := Leaves.pure ω y ((x.slice.cell (i, key)).live x.slice.nowMs).1.isSome
  rw [hy, ← hsome] at hy'
  rw [← hsome]
  exact hy'

theorem cmdExists_leaves (h : ctx.argsBytes 1 = some keys) :
    Leaves ω (cmdExists ctx) x
      (sendInteger (countTrue
        (existsWalk ctx.dbIndex x.slice.nowMs keys x.slice.cell).1))
      (existsWalk ctx.dbIndex x.slice.nowMs keys x.slice.cell).2 := by
  refine (Leaves.ofOption h ω x).bind fun y hy hnow => ?_
  have hloop : Leaves ω (forEach (fun key => existsKey ctx.dbIndex key) keys) y
      (existsWalk ctx.dbIndex x.slice.nowMs keys y.slice.cell).1
      (existsWalk ctx.dbIndex x.slice.nowMs keys y.slice.cell).2 :=
    Leaves.forEach (fun k z hz => hz ▸ existsKey_leaves ctx.dbIndex k) keys y hnow
  rw [hy] at hloop
  exact hloop.bind fun z hz _ => hz ▸ Leaves.pure ω z _

theorem mgetOne_leaves (i : DbIndex) (key : Bytes) :
    Leaves ω (mgetOne i key) x (sendOptional (stringAt x.slice.nowMs (x.slice.cell (i, key))))
      (update x.slice.cell (i, key) ((x.slice.cell (i, key)).live x.slice.nowMs)) := by
  refine (Leaves.perform (o := .find i key) rfl ω x).bind fun y hy _ => ?_
  have hy' := fun reply : Bytes => Leaves.pure ω y reply
  rw [hy] at hy'
  rw [stringAt]
  dsimp only [DbOp.answer, DbOp.found]
  cases ((x.slice.cell (i, key)).live x.slice.nowMs).1 with
  | none => exact hy' sendNull
  | some v =>
    dsimp only [Option.map_some, Option.bind_some]
    cases v.isString with
    | true => exact hy' (sendBulkString v.asBytes)
    | false => exact hy' sendNull

theorem cmdMget_leaves (h : ctx.argsBytes 1 = some keys) :
    Leaves ω (cmdMget ctx) x
      (sendArrayLen keys.length ++
        (mgetWalk ctx.dbIndex x.slice.nowMs keys x.slice.cell).1.flatMap sendOptional)
      (mgetWalk ctx.dbIndex x.slice.nowMs keys x.slice.cell).2 := by
  refine (Leaves.ofOption h ω x).bind fun y hy hnow => ?_
  let look := fun (_ : Bytes) (c : Cell F) => sendOptional (stringAt x.slice.nowMs c)
  let purge := fun (_ : Bytes) (c : Cell F) => c.live x.slice.nowMs
  have hloop : Leaves ω (forEach (mgetOne ctx.dbIndex) keys) y
      (walk (fun k => (ctx.dbIndex, k)) look purge keys y.slice.cell).1
      (walk (fun k => (ctx.dbIndex, k)) look purge keys y.slice.cell).2 :=
    Leaves.forEach (fun k z hz => by
      have hone := mgetOne_leaves (ω := ω) (x := z) ctx.dbIndex k
      rwa [hz] at hone) keys y hnow
  rw [hy, walk_map] at hloop
  refine hloop.bind fun z hz _ => ?_
  rw [← List.flatMap_def]
  exact hz ▸ Leaves.pure ω z _

theorem msetOne_leaves (i : DbIndex) (pair : Bytes × Bytes) :
    Leaves ω (msetOne i pair) x ()
      (update x.slice.cell (i, pair.1) (some (.fromBytes pair.2), none)) := by
  refine (Leaves.invoke (o := .addOrUpdate i pair.1 (.fromBytes pair.2)) rfl ω x).bind fun y hy _ =>
    ?_
  have hremove := Leaves.invoke (o := .removeExpire i pair.1) rfl ω y
  rw [hy, update_idem, update_self] at hremove
  exact hremove

theorem cmdMset_leaves {words : List Bytes} (h : ctx.argsBytes 1 = some words)
    (heven : (ctx.args.length - 1) % 2 = 0) :
    Leaves ω (cmdMset ctx) x sendOk
      (msetWalk ctx.dbIndex (pairUp words) x.slice.cell).2 := by
  rw [cmdMset, if_neg (not_not.mpr heven)]
  refine (Leaves.ofOption h ω x).bind fun y hy _ => ?_
  have hloop : Leaves ω (forEach (msetOne ctx.dbIndex) (pairUp words)) y
      (msetWalk ctx.dbIndex (pairUp words) y.slice.cell).1
      (msetWalk ctx.dbIndex (pairUp words) y.slice.cell).2 :=
    Leaves.forEach (fun p z _ => msetOne_leaves ctx.dbIndex p) (pairUp words) y rfl
  rw [hy] at hloop
  exact hloop.bind fun z hz _ => hz ▸ Leaves.pure ω z _

end Handlers

end ShrikeDb
