import ShrikeDb.Server.Demands

/-! What dispatching a command line on a shard can do to its databases, and that an
error reply means that nothing was changed. -/

namespace ShrikeDb

open CommandRegistry

/-- The footprint meets the demand of the command that the line names, if any. -/
def Footprint.Meets (F : Type) [F64 F] [HashOrder] [CaseTable] (fp : Footprint)
    (args : List RespExpr) (i : DbIndex) : Prop :=
  ∀ e : CommandEntry F, resolve args = .run e → (demand e).MetBy fp ⟨args, i⟩

/-- The footprint of all cells. -/
def Footprint.everywhere (strict : Prop) : Footprint := ⟨Set.univ, Set.univ, strict⟩

theorem KeySpec.covered_everywhere (spec : KeySpec) (strict : Prop) (ctx : CommandContext) :
    spec.Covered (.everywhere strict) ctx := by
  have hmem : ∀ a : Addr, a ∈ (Set.univ : Set Addr) := Set.mem_univ
  cases spec with
  | nothing => trivial
  | first => exact fun b _ => ⟨hmem _, hmem _⟩
  | all => exact fun bs _ b _ => hmem _
  | pairs => exact fun bs _ p _ => ⟨hmem _, hmem _⟩
  | two => exact ⟨fun b _ => hmem _, fun b _ => ⟨hmem _, hmem _⟩⟩
  | database => exact fun k => hmem _
  | everything => exact fun a => hmem _

section Kept

variable {F : Type}

/-- Value and deadline of a key are as before, unless it had lapsed and is gone. A key
that is in the expire table only is not there. -/
def Cell.Kept (now : UInt64) (before after : Cell F) : Prop :=
  (after.1 = before.1 ∧ (before.1.isSome → after.2 = before.2)) ∨
    (before.lapsed now = true ∧ after = Cell.empty)

theorem Cell.Spared.kept {now : UInt64} {c c' : Cell F} (h : Cell.Spared now c c') :
    c.Kept now c' := by
  rcases h with rfl | ⟨rfl, hl | hn⟩
  · exact .inl ⟨rfl, fun _ => rfl⟩
  · exact .inr ⟨hl, rfl⟩
  · refine .inl ⟨hn.symm, fun hsome => ?_⟩
    rw [hn] at hsome
    cases hsome

end Kept

section Dispatch

variable {F : Type} [F64 F] [HashOrder] [CaseTable] {fp : Footprint} {args : List RespExpr}
  {conn : ConnContext}

variable (ω : Listing Bytes)

/-- The effect of a dispatch on every cell of the shard. -/
theorem dispatch_touches (shard : EngineShard F) (h : fp.Meets F args conn.dbIndex) :
    (dispatch ω args conn shard).shard.dbSlice.nowMs = shard.dbSlice.nowMs ∧
      ∃ wrote, (∀ reply, (dispatch ω args conn shard).reply = some reply → isError reply = true →
          wrote = false) ∧
        ∀ a, Touches fp wrote shard.dbSlice.nowMs a (shard.dbSlice.cell a)
          ((dispatch ω args conn shard).shard.dbSlice.cell a) := by
  obtain ⟨hreply, -, hslice⟩ := dispatch_eq ω args conn shard
  rw [hreply, hslice]
  exact (program_disciplined h).touches ω ⟨shard.dbSlice, conn⟩

variable (F) in
/-- Whatever shard it is run on, the command line does not write to the cell. -/
def Avoids (a : Addr) (i : DbIndex) (args : List RespExpr) : Prop :=
  ∀ (ω : Listing Bytes) (shard : EngineShard F),
  Cell.Lapses shard.dbSlice.nowMs (shard.dbSlice.cell a)
    ((dispatch ω args ⟨i⟩ shard).shard.dbSlice.cell a)

/-- A strict command cannot tell shards apart that are alike on its footprint. -/
theorem dispatch_alike (hs : fp.strict) (h : fp.Meets F args conn.dbIndex)
    {shard shard' : EngineShard F}
    (hxy : Alike fp Phase.start ⟨shard.dbSlice, conn⟩ ⟨shard'.dbSlice, conn⟩)
    (ω ω' : Listing Bytes) :
    (dispatch ω args conn shard).reply = (dispatch ω' args conn shard').reply ∧
      Alike fp Phase.start
        ⟨(dispatch ω args conn shard).shard.dbSlice, (dispatch ω args conn shard).conn⟩
        ⟨(dispatch ω' args conn shard').shard.dbSlice, (dispatch ω' args conn shard').conn⟩ := by
  obtain ⟨hreply, hconn, hslice⟩ := dispatch_eq ω args conn shard
  obtain ⟨hreply', hconn', hslice'⟩ := dispatch_eq ω' args conn shard'
  rw [hreply, hconn, hslice, hreply', hconn', hslice']
  exact (program_disciplined h).run_alike hs hxy ω ω'

/-- Nor can it tell shards apart that have the same cells there, and then it leaves the same
cells. -/
theorem dispatch_agree (hs : fp.strict) (h : fp.Meets F args conn.dbIndex)
    {shard shard' : EngineShard F}
    (hxy : Agree fp.reads ⟨shard.dbSlice, conn⟩ ⟨shard'.dbSlice, conn⟩) (ω ω' : Listing Bytes) :
    (dispatch ω args conn shard).reply = (dispatch ω' args conn shard').reply ∧
      Agree fp.reads
        ⟨(dispatch ω args conn shard).shard.dbSlice, (dispatch ω args conn shard).conn⟩
        ⟨(dispatch ω' args conn shard').shard.dbSlice, (dispatch ω' args conn shard').conn⟩ := by
  obtain ⟨hreply, hconn, hslice⟩ := dispatch_eq ω args conn shard
  obtain ⟨hreply', hconn', hslice'⟩ := dispatch_eq ω' args conn shard'
  rw [hreply, hconn, hslice, hreply', hconn', hslice']
  exact (program_disciplined h).run_agree hs hxy ω ω'

theorem meets_everywhere (args : List RespExpr) (i : DbIndex) :
    (Footprint.everywhere False).Meets F args i :=
  fun e _ => ⟨(keySpec e.name e.firstKey).covered_everywhere False _, fun _ => id⟩

/-! ## Error replies -/

/-- A command that is answered with an error has left every live key as it was. -/
theorem error_reply_keeps (ω : Listing Bytes) (args : List RespExpr) (conn : ConnContext)
    (shard : EngineShard F) (reply : Bytes) (hr : (dispatch ω args conn shard).reply = some reply)
    (he : isError reply = true) :
    (dispatch ω args conn shard).shard.dbSlice.nowMs = shard.dbSlice.nowMs ∧
      ∀ i key, (shard.dbSlice.cell (i, key)).Kept shard.dbSlice.nowMs
        ((dispatch ω args conn shard).shard.dbSlice.cell (i, key)) := by
  obtain ⟨hnow, wrote, hwrote, htouch⟩ :=
    dispatch_touches ω shard (meets_everywhere args conn.dbIndex)
  exact ⟨hnow, fun i key => ((htouch (i, key)).spared (hwrote reply hr he)).kept⟩

/-! ## The keys a command names -/

/-- The cells of the selected database under the words behind the name of a command. -/
def Footprint.words (args : List RespExpr) (i : DbIndex) : Footprint :=
  ⟨fun a => a.1 = i ∧ .string a.2 ∈ args.drop 1, Set.univ, False⟩

/-- The cells of one database. -/
def Footprint.database (i : DbIndex) : Footprint := ⟨fun a => a.1 = i, Set.univ, False⟩

omit [F64 F] [HashOrder] [CaseTable] in
theorem string_mem_of_argBytes {ctx : CommandContext} {n : Nat} {b : Bytes}
    (h : ctx.argBytes (n + 1) = some b) : .string b ∈ ctx.args.drop 1 := by
  obtain ⟨e, he, hb⟩ := Option.bind_eq_some_iff.mp h
  rw [Nat.add_comm, ← List.getElem?_drop] at he
  exact asBytes_eq_some hb ▸ List.mem_of_getElem? he

omit [F64 F] [HashOrder] [CaseTable] in
theorem string_mem_of_argsBytes {ctx : CommandContext} {bs : List Bytes}
    (h : ctx.argsBytes 1 = some bs) {b : Bytes} (hb : b ∈ bs) : .string b ∈ ctx.args.drop 1 :=
  argsBytes_eq_some.mp h ▸ List.mem_map_of_mem hb

omit [F64 F] [HashOrder] [CaseTable] in
theorem fst_mem_of_mem_pairUp {α : Type} {l : List α} {p : α × α} (h : p ∈ Command.pairUp l) :
    p.1 ∈ l := by
  fun_induction Command.pairUp l with
  | case1 a b rest ih =>
    rcases List.mem_cons.mp h with rfl | h
    · exact List.mem_cons_self
    · exact List.mem_cons_of_mem a (List.mem_cons_of_mem b (ih h))
  | case2 => cases h

omit [F64 F] [HashOrder] [CaseTable] in
theorem KeySpec.covered_words {spec : KeySpec} (hdb : spec ≠ .database) (hall : spec ≠ .everything)
    (ctx : CommandContext) : spec.Covered (.words ctx.args ctx.dbIndex) ctx := by
  cases spec with
  | nothing => trivial
  | first => exact fun b hb => ⟨⟨rfl, string_mem_of_argBytes hb⟩, trivial⟩
  | all => exact fun bs hbs b hb => ⟨rfl, string_mem_of_argsBytes hbs hb⟩
  | pairs =>
    exact fun bs hbs p hp => ⟨⟨rfl, string_mem_of_argsBytes hbs (fst_mem_of_mem_pairUp hp)⟩,
      trivial⟩
  | two =>
    exact ⟨fun b hb => ⟨rfl, string_mem_of_argBytes hb⟩,
      fun b hb => ⟨⟨rfl, string_mem_of_argBytes hb⟩, trivial⟩⟩
  | database => exact absurd rfl hdb
  | everything => exact absurd rfl hall

omit [F64 F] [HashOrder] [CaseTable] in
theorem KeySpec.covered_database {spec : KeySpec} (hall : spec ≠ .everything)
    (ctx : CommandContext) : spec.Covered (.database ctx.dbIndex) ctx := by
  cases spec with
  | nothing => trivial
  | first => exact fun b _ => ⟨rfl, trivial⟩
  | all => exact fun bs _ b _ => rfl
  | pairs => exact fun bs _ p _ => ⟨rfl, trivial⟩
  | two => exact ⟨fun b _ => rfl, fun b _ => ⟨rfl, trivial⟩⟩
  | database => exact fun k => rfl
  | everything => exact absurd rfl hall

omit [F64 F] [HashOrder] [CaseTable] in
theorem keySpec_flush (name : Bytes) (firstKey : Nat) :
    (keySpec name firstKey = .database → name = ascii "FLUSHDB") ∧
      (keySpec name firstKey = .everything → name = ascii "FLUSHALL") := by
  rw [keySpec]
  cases classifyCommand name firstKey with
  | singleKey =>
    dsimp only
    split <;> exact ⟨(by rintro ⟨⟩), (by rintro ⟨⟩)⟩
  | global =>
    dsimp only
    split
    · next h => exact ⟨fun _ => h, (by rintro ⟨⟩)⟩
    · split
      · next h => exact ⟨(by rintro ⟨⟩), fun _ => h⟩
      · exact ⟨(by rintro ⟨⟩), (by rintro ⟨⟩)⟩
  | _ => exact ⟨(by rintro ⟨⟩), (by rintro ⟨⟩)⟩

omit [F64 F] [HashOrder] [CaseTable] in
/-- A live cell that looks the same when lapsed keys are disregarded is the same. -/
theorem Cell.eq_of_live {now : UInt64} {c c' : Cell F} (hlive : (c.live now).1.isSome = true)
    (h : c'.live now = c.live now) : c' = c := by
  have hc : c.live now = c := by
    rcases c.live_cases now with ⟨-, he⟩ | ⟨-, he⟩
    · rw [he] at hlive
      cases hlive
    · exact he
  have hc' : c'.live now = c' := by
    rcases c'.live_cases now with ⟨-, he⟩ | ⟨-, he⟩
    · rw [← h, he] at hlive
      cases hlive
    · exact he
  rw [← hc', h, hc]

/-- `FLUSHDB` leaves the other databases as they are, with the keys that have lapsed. -/
theorem flushdb_frame (args : List RespExpr) (conn : ConnContext) (shard : EngineShard F)
    (hname : commandName args = .ok (ascii "FLUSHDB")) {j : DbIndex} (hj : j ≠ conn.dbIndex)
    (key : Bytes) :
    (dispatch ω args conn shard).shard.dbSlice.cell (j, key) = shard.dbSlice.cell (j, key) := by
  obtain ⟨-, -, hslice⟩ := dispatch_eq ω args conn shard
  rw [hslice, program]
  cases hres : resolve (F := F) args with
  | reply data keepAlive => rfl
  | run entry =>
    obtain ⟨hfind, hname'⟩ := resolve_run hres
    have hentry : ascii "FLUSHDB" = entry.name := Except.ok.inj (hname.symm.trans hname')
    rw [← hentry, find_flushdb] at hfind
    cases hfind
    exact (shard.dbSlice.cell_flushDb (i := conn.dbIndex) (j, key)).trans (if_neg hj)

/-- A command leaves alone the live keys that it does not name and those of the other
databases. `FLUSHALL` has no such frame; that of `FLUSHDB` is the other databases. -/
theorem command_frame (args : List RespExpr) (conn : ConnContext) (shard : EngineShard F)
    (hall : commandName args ≠ .ok (ascii "FLUSHALL")) (j : DbIndex) (key : Bytes)
    (hlive : ((shard.dbSlice.cell (j, key)).live shard.dbSlice.nowMs).1.isSome = true)
    (h : j ≠ conn.dbIndex ∨
      (commandName args ≠ .ok (ascii "FLUSHDB") ∧ .string key ∉ args.drop 1)) :
    (dispatch ω args conn shard).shard.dbSlice.cell (j, key) = shard.dbSlice.cell (j, key) := by
  have hname : ∀ e : CommandEntry F, resolve args = .run e → commandName args = .ok e.name :=
    fun e he => (resolve_run he).2
  have hnot : ∀ e : CommandEntry F, resolve args = .run e →
      keySpec e.name e.firstKey ≠ .everything :=
    fun e he hk => hall ((hname e he).trans (congrArg _ ((keySpec_flush _ _).2 hk)))
  rcases h with hj | ⟨hdb, hkey⟩
  · have hmeets : (Footprint.database conn.dbIndex).Meets F args conn.dbIndex := fun e he =>
      ⟨KeySpec.covered_database (hnot e he) ⟨args, conn.dbIndex⟩, fun _ => id⟩
    obtain ⟨-, wrote, -, htouch⟩ := dispatch_touches ω shard hmeets
    exact Cell.eq_of_live hlive ((htouch (j, key)).frame hj)
  · have hmeets : (Footprint.words args conn.dbIndex).Meets F args conn.dbIndex := fun e he =>
      ⟨KeySpec.covered_words (fun hk =>
        hdb ((hname e he).trans (congrArg _ ((keySpec_flush _ _).1 hk))))
        (hnot e he) ⟨args, conn.dbIndex⟩, fun _ => id⟩
    obtain ⟨-, wrote, -, htouch⟩ := dispatch_touches ω shard hmeets
    exact Cell.eq_of_live hlive ((htouch (j, key)).frame fun h => hkey h.2)

/-- Commands touch only the keys they name: a live key keeps its value and deadline
unless it is a word behind the command's name and in the selected database; `FLUSHALL` apart,
and `FLUSHDB`, which keeps the other databases. -/
theorem command_touches_named (ω : Listing Bytes) (args : List RespExpr) (conn : ConnContext)
    (shard : EngineShard F) :
    (∀ name, commandName args = .ok name → name ≠ ascii "FLUSHDB" → name ≠ ascii "FLUSHALL" →
        ∀ j key, ((shard.dbSlice.cell (j, key)).live shard.dbSlice.nowMs).1.isSome = true →
          (j = conn.dbIndex → .string key ∉ args.drop 1) →
          (dispatch ω args conn shard).shard.dbSlice.cell (j, key) = shard.dbSlice.cell (j, key)) ∧
      (commandName args = .ok (ascii "FLUSHDB") → ∀ j key, j ≠ conn.dbIndex →
        (dispatch ω args conn shard).shard.dbSlice.cell (j, key) =
        shard.dbSlice.cell (j, key)) := by
  refine ⟨fun name hname hdb hall j key hlive hkey => ?_, fun hname j key hj =>
    flushdb_frame ω args conn shard hname hj key⟩
  have hne : ∀ word, name ≠ word → commandName args ≠ .ok word :=
    fun word hw h => hw (Except.ok.inj (hname.symm.trans h))
  refine command_frame ω args conn shard (hne _ hall) j key hlive ?_
  by_cases hj : j = conn.dbIndex
  · exact .inr ⟨hne _ hdb, hkey hj⟩
  · exact .inl hj

end Dispatch

section Fixed

attribute [local instance] F64.whole CaseTable.identity HashOrder.arbitrary

/-- A shard that holds the string `v` under `k`. -/
def oneString : EngineShard Int :=
  ⟨(DbSlice.new.addOrUpdate 0 (ascii "k") (.string (ascii "v"))).2, 0⟩

def command (words : List String) : List RespExpr := words.map fun w => .string (ascii w)

theorem error_reply_keeps_lpush :
    (dispatch (.arbitrary Bytes) (command ["lpush", "k", "a"]) ⟨0⟩ oneString).reply =
        some (ReplyBuilder.sendWrongType []) ∧
      ∀ i key, (oneString.dbSlice.cell (i, key)).Kept oneString.dbSlice.nowMs
        ((dispatch (.arbitrary Bytes) (command ["lpush", "k", "a"]) ⟨0⟩
          oneString).shard.dbSlice.cell (i, key)) := by
  have hr : (dispatch (.arbitrary Bytes) (command ["lpush", "k", "a"]) ⟨0⟩ oneString).reply =
      some (ReplyBuilder.sendWrongType []) := by decide
  exact ⟨hr, (error_reply_keeps _ _ _ _ _ hr rfl).2⟩

/-- A shard that holds the string `v` under the name of a command. -/
def namedSet : EngineShard Int :=
  ⟨(DbSlice.new.addOrUpdate 0 (ascii "set") (.string (ascii "v"))).2, 0⟩

theorem command_touches_named_set :
    ((namedSet.dbSlice.cell (0, ascii "set")).live namedSet.dbSlice.nowMs).1.isSome = true ∧
      (dispatch (.arbitrary Bytes) (command ["set", "x", "w"]) ⟨0⟩ namedSet).shard.dbSlice.cell
        (0, ascii "x") = (some (.string (ascii "w")), none) ∧
      (dispatch (.arbitrary Bytes) (command ["set", "x", "w"]) ⟨0⟩ namedSet).shard.dbSlice.cell
        (0, ascii "set") = namedSet.dbSlice.cell (0, ascii "set") := by
  have hname : commandName (command ["set", "x", "w"]) = .ok (ascii "SET") :=
    commandName_eq_ok.mpr (by decide)
  have hlive : ((namedSet.dbSlice.cell (0, ascii "set")).live namedSet.dbSlice.nowMs).1.isSome =
      true := by
    decide
  exact ⟨hlive, rfl, (command_touches_named _ _ _ _).1 _ hname (by decide) (by decide) 0
    (ascii "set") hlive fun _ => by simp [command, ascii]⟩

end Fixed

end ShrikeDb
