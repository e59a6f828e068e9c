import ShrikeDb.Server.HandlerRules

/-! Every handler keeps the discipline on the cells of the keys it names. -/

namespace ShrikeDb

open Program Command ReplyBuilder

variable {F : Type} {fp : Footprint} {ctx : CommandContext}

/-- The footprint lets the command look at the key in argument `n`. -/
def Footprint.Sees (fp : Footprint) (ctx : CommandContext) (n : Nat) : Prop :=
  ∀ b, ctx.argBytes n = some b → (ctx.dbIndex, b) ∈ fp.reads

/-- It may also add that key. -/
def Footprint.Covers (fp : Footprint) (ctx : CommandContext) (n : Nat) : Prop :=
  ∀ b, ctx.argBytes n = some b → (ctx.dbIndex, b) ∈ fp.reads ∧ (ctx.dbIndex, b) ∈ fp.adds

/-- It may look at all keys of a command that takes a list of them. -/
def Footprint.SeesAll (fp : Footprint) (ctx : CommandContext) : Prop :=
  ∀ bs, ctx.argsBytes 1 = some bs → ∀ b ∈ bs, (ctx.dbIndex, b) ∈ fp.reads

/-- It may add all keys of a command that takes keys and values in turn. -/
def Footprint.CoversPairs (fp : Footprint) (ctx : CommandContext) : Prop :=
  ∀ bs, ctx.argsBytes 1 = some bs → ∀ p ∈ pairUp bs,
    (ctx.dbIndex, p.1) ∈ fp.reads ∧ (ctx.dbIndex, p.1) ∈ fp.adds

/-! ## The value of the key -/

section Value

variable {κ : Type} {kind : PrimeValue F → Option κ} {key reply : Bytes} {value : PrimeValue F}
  {present : κ → Edit F}

theorem Footprint.Covers.view {present : κ → Bytes} (hk : fp.Covers ctx 1)
    (hkey : ctx.argBytes 1 = some key) : Follows (discipline fp) Settled Phase.start
      (Command.view kind ctx.dbIndex key present reply) :=
  follows_view fresh_start (hk key hkey).1

theorem Footprint.Covers.edit (hk : fp.Covers ctx 1) (hkey : ctx.argBytes 1 = some key)
    (hpresent : ∀ x, (present x).Silent) : Follows (discipline fp) Settled Phase.start
      (Command.edit kind ctx.dbIndex key present (pure reply)) :=
  follows_edit fresh_start (hk key hkey).1 hpresent ((fresh_start.looked _).settled _)

theorem Footprint.Covers.editOrCreate (hk : fp.Covers ctx 1) (hkey : ctx.argBytes 1 = some key)
    (hpresent : ∀ x, (present x).Silent) (hreply : isError reply = false) :
    Follows (discipline fp) Settled Phase.start
      (Command.edit kind ctx.dbIndex key present (create ctx.dbIndex key value reply)) :=
  follows_edit fresh_start (hk key hkey).1 hpresent
    (follows_create (fresh_start.looked _) (hk key hkey).1 (hk key hkey).2 (Set.mem_insert _ _)
      hreply)

end Value

/-! ## Lists -/

namespace ListFamily

theorem pushList_disciplined (push : List Bytes → Bytes → List Bytes) (hk : fp.Covers ctx 1) :
    Disciplined fp (pushList (F := F) push ctx) :=
  follows_arg rfl fun _ hkey => follows_args rfl fun _ _ => hk.editOrCreate hkey (fun _ => rfl) rfl

theorem popList_disciplined (pop : Nat → List Bytes → List Bytes × List Bytes)
    (hk : fp.Covers ctx 1) : Disciplined fp (popList (F := F) pop ctx) := by
  refine follows_arg rfl fun key hkey => ?_
  refine hk.edit hkey fun items => ?_
  change isError (if _ then _ else _) = false
  split
  · exact isError_sendOptional _
  · rfl

theorem listTable_disciplined {e : CommandEntry F} (he : e ∈ CommandRegistry.listTable)
    (hk : fp.Covers ctx 1) : Disciplined fp (e.handler ctx) := by
  simp only [CommandRegistry.listTable, List.mem_cons, List.not_mem_nil, or_false] at he
  rcases he with rfl | rfl | rfl | rfl | rfl | rfl | rfl | rfl | rfl | rfl | rfl
  · exact pushList_disciplined (fun items v => v :: items) hk
  · exact pushList_disciplined (fun items v => items ++ [v]) hk
  · exact popList_disciplined popFront hk
  · exact popList_disciplined popBack hk
  · exact follows_arg rfl fun _ hkey => hk.view hkey
  · exact follows_arg rfl fun _ hkey => hk.view hkey
  · exact follows_arg rfl fun _ hkey => hk.view hkey
  · refine follows_arg rfl fun key hkey => follows_arg rfl fun value _ => ?_
    refine hk.edit hkey fun items => ?_
    dsimp only
    split
    · rfl
    · trivial
  · exact follows_arg rfl fun _ hkey => follows_arg rfl fun value _ => hk.edit hkey fun _ => rfl
  · exact follows_arg rfl fun key hkey =>
      hk.edit hkey fun _ => rfl
  · refine follows_arg rfl fun key hkey => follows_arg rfl fun _ _ => follows_arg rfl fun _ _ =>
      follows_arg rfl fun _ _ => ?_
    refine hk.edit hkey fun items => ?_
    dsimp only
    split
    · rfl
    · trivial

end ListFamily

/-! ## Hashes -/

namespace HashFamily

theorem setFields_disciplined (name : Bytes) (reply : Int64 → Bytes)
    (hreply : ∀ n, isError (reply n) = false) (hk : fp.Covers ctx 1) :
    Disciplined fp (setFields (F := F) name reply ctx) := by
  refine follows_arg rfl fun key hkey => ?_
  split
  · exact fresh_start.settled _
  · exact follows_args rfl fun _ _ => hk.editOrCreate hkey (fun _ => hreply _) (hreply _)

theorem cmdHincrby_disciplined (hk : fp.Covers ctx 1) :
    Disciplined fp (cmdHincrby (F := F) ctx) := by
  refine follows_arg rfl fun key hkey => follows_arg rfl fun field _ => ?_
  split
  · exact fresh_start.settled _
  · exact hk.editOrCreate hkey (fun _ => rfl) rfl

theorem cmdHincrbyfloat_disciplined [F64 F] (hk : fp.Covers ctx 1) :
    Disciplined fp (cmdHincrbyfloat (F := F) ctx) := by
  refine follows_arg rfl fun key hkey => follows_arg rfl fun field _ => ?_
  dsimp only
  split
  · exact fresh_start.settled _
  · exact hk.editOrCreate hkey (fun _ => rfl) rfl

theorem cmdHsetnx_disciplined (hk : fp.Covers ctx 1) : Disciplined fp (cmdHsetnx (F := F) ctx) := by
  refine follows_arg rfl fun key hkey => follows_arg rfl fun field _ => follows_arg rfl
    fun value _ => ?_
  refine hk.editOrCreate hkey (fun fields => ?_) rfl
  split
  · trivial
  · rfl

theorem hashTable_disciplined [F64 F] [HashOrder] {e : CommandEntry F}
    (he : e ∈ CommandRegistry.hashTable) (hk : fp.Covers ctx 1) :
    Disciplined fp (e.handler ctx) := by
  simp only [CommandRegistry.hashTable, List.mem_cons, List.not_mem_nil, or_false] at he
  rcases he with rfl | rfl | rfl | rfl | rfl | rfl | rfl | rfl | rfl | rfl | rfl | rfl | rfl
  · exact setFields_disciplined (ascii "hset") sendInteger (fun _ => rfl) hk
  · exact follows_arg rfl fun _ hkey => follows_arg rfl fun _ _ => hk.view hkey
  · exact follows_arg rfl fun _ hkey => follows_args rfl fun _ _ => hk.edit hkey fun _ => rfl
  · exact follows_arg rfl fun _ hkey => follows_arg rfl fun _ _ => hk.view hkey
  · exact follows_arg rfl fun _ hkey => hk.view hkey
  · exact follows_arg rfl fun _ hkey => hk.view hkey
  · exact follows_arg rfl fun _ hkey => hk.view hkey
  · exact follows_arg rfl fun _ hkey => hk.view hkey
  · exact setFields_disciplined (ascii "hmset") (fun _ => sendOk) (fun _ => rfl) hk
  · exact follows_arg rfl fun _ hkey => follows_args rfl fun _ _ => hk.view hkey
  · exact cmdHincrby_disciplined hk
  · exact cmdHincrbyfloat_disciplined hk
  · exact cmdHsetnx_disciplined hk

end HashFamily

/-! ## Sorted sets -/

namespace ZsetFamily

variable [F64 F]

theorem cmdZadd_disciplined (hk : fp.Covers ctx 1) : Disciplined fp (cmdZadd (F := F) ctx) := by
  refine follows_arg rfl fun key hkey => ?_
  split
  · exact fresh_start.settled _
  · refine Follows.bind (Follows.ofOption rfl fun pairs _ => ?_)
    split
    · exact fresh_start.settled _
    · exact hk.editOrCreate hkey (fun _ => rfl) rfl

theorem cmdZincrby_disciplined (hk : fp.Covers ctx 1) :
    Disciplined fp (cmdZincrby (F := F) ctx) := by
  refine follows_arg rfl fun key hkey => ?_
  split
  · exact fresh_start.settled _
  · exact follows_arg rfl fun member _ => hk.editOrCreate hkey (fun _ => rfl) rfl

theorem zrankImpl_disciplined (rev : Bool) (hk : fp.Covers ctx 1) :
    Disciplined fp (zrankImpl (F := F) ctx rev) :=
  follows_arg rfl fun _ hkey => follows_arg rfl fun _ _ => hk.view hkey

theorem zpopImpl_disciplined (rev : Bool) (hk : fp.Covers ctx 1) :
    Disciplined fp (zpopImpl (F := F) ctx rev) :=
  follows_arg rfl fun key hkey =>
    follows_tryEdit fresh_start (hk key hkey).1 (fun _ _ h => (ok_of_ite h).2 ▸ rfl)
      ((fresh_start.looked _).settled _)

theorem zsetTable_disciplined {e : CommandEntry F} (he : e ∈ CommandRegistry.zsetTable)
    (hk : fp.Covers ctx 1) : Disciplined fp (e.handler ctx) := by
  simp only [CommandRegistry.zsetTable, List.mem_cons, List.not_mem_nil, or_false] at he
  rcases he with rfl | rfl | rfl | rfl | rfl | rfl | rfl | rfl | rfl | rfl | rfl | rfl | rfl
  · exact cmdZadd_disciplined hk
  · exact follows_arg rfl fun _ hkey => follows_args rfl fun _ _ => hk.edit hkey fun _ => rfl
  · exact follows_arg rfl fun _ hkey => follows_arg rfl fun _ _ => hk.view hkey
  · exact zrankImpl_disciplined false hk
  · exact zrankImpl_disciplined true hk
  · exact follows_arg rfl fun _ hkey => hk.view hkey
  · exact follows_arg rfl fun _ hkey => hk.view hkey
  · exact follows_arg rfl fun _ hkey => hk.view hkey
  · exact follows_arg rfl fun _ hkey => hk.view hkey
  · exact cmdZincrby_disciplined hk
  · exact zpopImpl_disciplined false hk
  · exact zpopImpl_disciplined true hk
  · exact follows_arg rfl fun _ hkey => follows_args rfl fun _ _ => hk.view hkey

end ZsetFamily

/-! ## Sets -/

namespace SetFamily

theorem cmdSpop_disciplined [HashOrder] (hk : fp.Covers ctx 1) :
    Disciplined fp (cmdSpop (F := F) ctx) := by
  refine follows_arg rfl fun key hkey => ?_
  refine hk.edit hkey fun items => ?_
  split
  · rfl
  · trivial

theorem collectSets_follows {i : DbIndex} {keys : List Bytes} {φ : Phase} (hφ : Fresh φ)
    (hk : ∀ b ∈ keys, (i, b) ∈ fp.reads) :
    Follows (discipline fp) (fun φ _ => Fresh φ) φ (collectSets (F := F) i keys) := by
  induction keys generalizing φ with
  | nil => exact hφ
  | cons key rest ih =>
    refine follows_find (hk key List.mem_cons_self) hφ.dirty fun r => ?_
    dsimp only
    split
    · exact hφ.looked _
    · have hrest := ih (hφ.looked (i, key)) fun b hb => hk b (List.mem_cons_of_mem key hb)
      refine Follows.bind (hrest.mono fun φ sets hφ => ?_)
      cases sets with
      | none => exact hφ
      | some sets => exact hφ

theorem setOp_disciplined [HashOrder] (op : SetOp) (hk : fp.SeesAll ctx) :
    Disciplined fp (setOp (F := F) ctx op) := by
  refine follows_args rfl fun keys hkeys => ?_
  refine Follows.bind ((collectSets_follows fresh_start (hk keys hkeys)).mono fun φ sets hφ => ?_)
  split
  · exact hφ.settled _
  · exact hφ.settled _
  · exact hφ.settled _

end SetFamily

/-! ## Strings -/

namespace StringFamily

open Command

variable {i : DbIndex} {key : Bytes} {φ : Phase}

theorem oldString_follows (hφ : Fresh φ) (ha : (i, key) ∈ fp.reads) :
    Follows (discipline fp) (fun φ' _ => φ' = looked φ (i, key)) φ (oldString (F := F) i key) := by
  refine follows_find ha hφ.dirty fun r => ?_
  cases r with
  | none => rfl
  | some r =>
    dsimp only
    split
    · rfl
    · rfl

theorem keptDeadline_follows (hφ : Fresh φ) (ha : (i, key) ∈ fp.reads) :
    Follows (discipline fp) (fun φ' _ => φ' = φ) φ (keptDeadline (F := F) i key) := by
  refine follows_ttlMs ha hφ.dirty fun r => ?_
  cases r with
  | expires ms => exact follows_nowMs fun _ => rfl
  | keyNotFound => rfl
  | noExpiry => rfl

theorem setDeadline_follows (o : SetOptions) (oldExpire : Option UInt64) (hd : φ.dirty = ∅)
    (ha : (i, key) ∈ fp.reads) (hc : (i, key) ∈ φ.checked) :
    Follows (discipline fp) (fun φ' _ => φ'.dirty = ∅) φ
      (setDeadline (F := F) i key o oldExpire) := by
  have hset : ∀ o : DbOp F, (o = .removeExpire i key ∨ ∃ d, o = .addExpire i key d) →
      Follows (discipline fp) (fun φ' _ => φ'.dirty = ∅) φ
        (invoke (S := dbOps F) o >>= fun _ => pure ()) :=
    fun o ho => follows_deadline ho ha hd hc hd
  unfold setDeadline
  split
  · exact follows_nowMs fun _ => hset _ (.inr ⟨_, rfl⟩)
  · exact hset _ (.inr ⟨_, rfl⟩)
  · split
    · exact hset _ (.inl rfl)
    · exact hd

theorem setValue_follows (value : Bytes) (o : SetOptions) (oldValue : Option Bytes) (hφ : Fresh φ)
    (ha : (i, key) ∈ fp.reads) (hadd : (i, key) ∈ fp.adds) :
    Follows (discipline fp) Settled φ (setValue (F := F) i key value o oldValue) := by
  refine follows_existsKey ha hφ.dirty fun present => ?_
  have hl := hφ.looked (i, key)
  split
  · exact hl.settled _
  · split
    · exact hl.settled _
    · have hkept : Follows (discipline fp) (fun φ' _ => φ' = looked φ (i, key)) (looked φ (i, key))
          (capturedDeadline (F := F) (o.keepTtl && present) i key) := by
        unfold capturedDeadline
        split
        · exact keptDeadline_follows hl ha
        · rfl
      refine Follows.bind (hkept.mono fun φ' oldExpire hφ' => ?_)
      subst hφ'
      refine follows_addOrUpdate ha hadd hl.dirty (Set.mem_insert _ _) ?_
      have hdeadline := setDeadline_follows (F := F) (φ := written (looked φ (i, key))) o oldExpire
        hl.dirty ha (Set.mem_insert _ _)
      refine Follows.bind (hdeadline.mono fun φ' _ hd => ?_)
      refine settled_of_not_error hd ?_
      split
      · exact isError_sendOptional _
      · rfl

theorem cmdSet_disciplined (hk : fp.Covers ctx 1) : Disciplined fp (cmdSet (F := F) ctx) := by
  refine follows_arg rfl fun key hkey => follows_arg rfl fun value _ => ?_
  obtain ⟨ha, hadd⟩ := hk key hkey
  split
  · exact fresh_start.settled _
  · rename_i o _
    split
    · exact fresh_start.settled _
    · have hold : Follows (discipline fp) (fun φ _ => Fresh φ) Phase.start
          (capturedString (F := F) o.get ctx.dbIndex key) := by
        unfold capturedString
        split
        · refine (oldString_follows fresh_start ha).mono fun φ _ hφ => ?_
          subst hφ
          exact fresh_start.looked _
        · exact fresh_start
      refine Follows.bind (hold.mono fun φ old hφ => ?_)
      cases old with
      | error reply => exact hφ.settled _
      | ok oldValue => exact setValue_follows value o oldValue hφ ha hadd

theorem cmdSetnx_disciplined (hk : fp.Covers ctx 1) : Disciplined fp (cmdSetnx (F := F) ctx) := by
  refine follows_arg rfl fun key hkey => follows_arg rfl fun value _ => ?_
  exact follows_perform (o := .addIfAbsent ctx.dbIndex key (.fromBytes value))
    ⟨(hk key hkey).1, (hk key hkey).2, Set.notMem_empty _⟩ id fun _ => settled_of_not_error rfl rfl

theorem setWithExpiry_disciplined (unit : UInt64) (hk : fp.Covers ctx 1) :
    Disciplined fp (setWithExpiry (F := F) ctx unit) := by
  refine follows_arg rfl fun key hkey => ?_
  obtain ⟨ha, hadd⟩ := hk key hkey
  split
  · exact fresh_start.settled _
  · split
    · refine follows_arg rfl fun value _ => ?_
      -- the clock is read between the two writes
      refine follows_invoke (o := .addOrUpdate _ key _) ⟨ha, hadd⟩ fun _ => follows_nowMs fun now =>
        ?_
      refine follows_invoke (o := .addExpire _ key _) ⟨ha, .inr (.inr ⟨rfl, Set.notMem_empty _⟩)⟩
        fun _ => settled_of_not_error ?_ rfl
      simp [Discipline.next, Phase.start]
    · exact fresh_start.settled _

theorem mgetOne_follows (hφ : Fresh φ) (ha : (i, key) ∈ fp.reads) :
    Follows (discipline fp) (fun φ _ => Fresh φ) φ (mgetOne (F := F) i key) := by
  refine follows_find ha hφ.dirty fun r => ?_
  cases r with
  | none => exact hφ.looked _
  | some r =>
    dsimp only
    split
    · exact hφ.looked _
    · exact hφ.looked _

theorem cmdMget_disciplined (hk : fp.SeesAll ctx) : Disciplined fp (cmdMget (F := F) ctx) := by
  refine follows_args rfl fun keys hkeys => ?_
  have hloop : Follows (discipline fp) (fun φ _ => Fresh φ) Phase.start
      (forEach (mgetOne (F := F) ctx.dbIndex) keys) :=
    Follows.forEach (fun key hkey φ hφ => mgetOne_follows hφ (hk keys hkeys key hkey)) fresh_start
  exact Follows.bind (hloop.mono fun φ _ hφ => hφ.settled _)

theorem msetOne_follows (pair : Bytes × Bytes) (hd : φ.dirty = ∅) (ha : (i, pair.1) ∈ fp.reads)
    (hadd : (i, pair.1) ∈ fp.adds) :
    Follows (discipline fp) (fun φ _ => φ.dirty = ∅) φ (msetOne (F := F) i pair) :=
  follows_overwrite (f := fun _ => pure ()) (.inl rfl) ha hadd hd hd

theorem cmdMset_disciplined (hk : fp.CoversPairs ctx) : Disciplined fp (cmdMset (F := F) ctx) := by
  unfold cmdMset
  split
  · exact fresh_start.settled _
  · refine follows_args rfl fun bs hbs => ?_
    have hloop : Follows (discipline fp) (fun φ _ => φ.dirty = ∅) Phase.start
        (forEach (msetOne (F := F) ctx.dbIndex) (pairUp bs)) :=
      Follows.forEach (J := fun φ : Phase => φ.dirty = ∅) (fun pair hp φ hd =>
        msetOne_follows pair hd (hk bs hbs pair hp).1 (hk bs hbs pair hp).2) rfl
    exact Follows.bind (hloop.mono fun φ _ hd => settled_of_not_error hd rfl)

/-- If none of the keys is there, all of them have been looked up. -/
theorem anyExists_follows {keys : List Bytes} (hφ : Fresh φ) (hk : ∀ b ∈ keys, (i, b) ∈ fp.reads) :
    Follows (discipline fp) (fun φ' found => Fresh φ' ∧ φ.checked ⊆ φ'.checked ∧
      (found = false → ∀ b ∈ keys, (i, b) ∈ φ'.checked)) φ (anyExists (F := F) i keys) := by
  induction keys generalizing φ with
  | nil => exact ⟨hφ, subset_rfl, fun _ b hb => nomatch hb⟩
  | cons key rest ih =>
    refine follows_existsKey (hk key List.mem_cons_self) hφ.dirty fun found => ?_
    have hsub : φ.checked ⊆ (looked φ (i, key)).checked := Set.subset_insert _ _
    cases found with
    | true => exact ⟨hφ.looked _, hsub, fun h => nomatch h⟩
    | false =>
      refine (ih (hφ.looked (i, key)) fun b hb => hk b (List.mem_cons_of_mem key hb)).mono ?_
      rintro φ' found ⟨hφ', hsub', hall⟩
      refine ⟨hφ', hsub.trans hsub', fun hf b hb => ?_⟩
      rcases List.mem_cons.mp hb with rfl | hb
      · exact hsub' (Set.mem_insert _ _)
      · exact hall hf b hb

theorem cmdMsetnx_disciplined (hk : fp.CoversPairs ctx) :
    Disciplined fp (cmdMsetnx (F := F) ctx) := by
  unfold cmdMsetnx
  split
  · exact fresh_start.settled _
  · refine follows_args rfl fun bs hbs => ?_
    have hreads : ∀ b ∈ (pairUp bs).map Prod.fst, (ctx.dbIndex, b) ∈ fp.reads := by
      intro b hb
      obtain ⟨p, hp, rfl⟩ := List.mem_map.mp hb
      exact (hk bs hbs p hp).1
    refine Follows.bind ((anyExists_follows fresh_start hreads).mono ?_)
    rintro φ found ⟨hφ, -, hall⟩
    cases found with
    | true => exact hφ.settled _
    | false =>
      let J (φ : Phase) : Prop := φ.dirty = ∅ ∧ ∀ p ∈ pairUp bs, (ctx.dbIndex, p.1) ∈ φ.checked
      have hJ : J φ := ⟨hφ.dirty, fun p hp => hall rfl p.1 (List.mem_map_of_mem hp)⟩
      have hloop : Follows (discipline fp) (fun φ _ => J φ) φ (forEach (fun pair : Bytes × Bytes =>
          invoke (S := dbOps F) (.addOrUpdate ctx.dbIndex pair.1 (.fromBytes pair.2)))
            (pairUp bs)) :=
        Follows.forEach (fun p hp φ hJ => follows_addOrUpdate (f := fun _ => pure ())
          (hk bs hbs p hp).1 (hk bs hbs p hp).2 hJ.1 (hJ.2 p hp) hJ) hJ
      exact Follows.bind (hloop.mono fun φ _ hJ => settled_of_not_error hJ.1 rfl)

theorem cmdGetset_disciplined (hk : fp.Covers ctx 1) : Disciplined fp (cmdGetset (F := F) ctx) := by
  refine follows_arg rfl fun key hkey => follows_arg rfl fun value _ => ?_
  obtain ⟨ha, hadd⟩ := hk key hkey
  refine Follows.bind ((oldString_follows fresh_start ha).mono fun φ old hφ => ?_)
  subst hφ
  cases old with
  | error reply => exact (fresh_start.looked _).settled _
  | ok old => exact follows_overwrite (.inl rfl) ha hadd rfl (settled_of_not_error
      rfl (isError_sendOptional _))

theorem cmdGetdel_disciplined (hk : fp.Covers ctx 1) : Disciplined fp (cmdGetdel (F := F) ctx) := by
  refine follows_arg rfl fun key hkey => ?_
  obtain ⟨ha, hadd⟩ := hk key hkey
  refine Follows.bind ((oldString_follows fresh_start ha).mono fun φ old hφ => ?_)
  subst hφ
  cases old with
  | error reply => exact (fresh_start.looked _).settled _
  | ok old =>
    cases old with
    | none => exact (fresh_start.looked _).settled _
    | some v => exact follows_del ha rfl (Set.mem_insert _ _) fun _ => settled_of_not_error rfl rfl

theorem cmdGetex_disciplined (hk : fp.Covers ctx 1) : Disciplined fp (cmdGetex (F := F) ctx) := by
  refine follows_arg rfl fun key hkey => ?_
  obtain ⟨ha, hadd⟩ := hk key hkey
  refine Follows.bind ((oldString_follows fresh_start ha).mono fun φ old hφ => ?_)
  subst hφ
  cases old with
  | error reply => exact (fresh_start.looked _).settled _
  | ok old =>
    cases old with
    | none => exact (fresh_start.looked _).settled _
    | some v =>
      dsimp only
      split
      · refine follows_nowMs fun now => ?_
        split
        · exact (fresh_start.looked _).settled _
        · exact follows_deadline (.inr ⟨_, rfl⟩) ha rfl (Set.mem_insert _ _)
            (settled_of_not_error rfl rfl)
        · exact follows_deadline (.inl rfl) ha rfl (Set.mem_insert _ _)
            (settled_of_not_error rfl rfl)
      · exact (fresh_start.looked _).settled _

theorem incrBy_disciplined (delta : Int64) (hk : fp.Covers ctx 1) :
    Disciplined fp (incrBy (F := F) ctx delta) := by
  refine follows_arg rfl fun key hkey => ?_
  obtain ⟨ha, hadd⟩ := hk key hkey
  refine follows_find ha rfl fun r => ?_
  dsimp only
  split
  · exact (fresh_start.looked _).settled _
  · split
    · exact (fresh_start.looked _).settled _
    · exact follows_create (fresh_start.looked _) ha hadd (Set.mem_insert _ _) rfl

theorem cmdIncrbyfloat_disciplined [F64 F] (hk : fp.Covers ctx 1) :
    Disciplined fp (cmdIncrbyfloat (F := F) ctx) := by
  refine follows_arg rfl fun key hkey => ?_
  obtain ⟨ha, hadd⟩ := hk key hkey
  dsimp only
  split
  · exact fresh_start.settled _
  · refine follows_find ha rfl fun r => ?_
    split
    · exact (fresh_start.looked _).settled _
    · split
      · exact (fresh_start.looked _).settled _
      · exact follows_create (fresh_start.looked _) ha hadd (Set.mem_insert _ _) rfl

theorem cmdSetrange_disciplined (hk : fp.Covers ctx 1) :
    Disciplined fp (cmdSetrange (F := F) ctx) := by
  refine follows_arg rfl fun key hkey => ?_
  obtain ⟨ha, hadd⟩ := hk key hkey
  split
  · exact fresh_start.settled _
  · refine follows_arg rfl fun value _ => follows_findMut ha rfl fun r => ?_
    cases r with
    | none =>
      dsimp only
      split
      · exact (fresh_start.looked (ctx.dbIndex, key)).dirty
      · exact follows_create (fresh_start.looked _) ha hadd (Set.mem_insert _ _) rfl
    | some r =>
      dsimp only
      split
      · exact (fresh_start.looked _).settled _
      · refine follows_store ha (Set.mem_insert _ _) ?_
        split
        · exact (fresh_start.looked (ctx.dbIndex, key)).dirty
        · exact follows_store ha (Set.mem_insert _ _) (settled_of_not_error rfl rfl)

end StringFamily

/-! ## Generic commands -/

namespace GenericFamily

theorem cmdSelect_disciplined : Disciplined fp (cmdSelect (F := F) ctx) := by
  unfold cmdSelect
  split
  · exact follows_invoke (o := .select _) trivial fun _ => fresh_start.settled _
  · exact fresh_start.settled _

theorem cmdPing_disciplined : Disciplined fp (cmdPing (F := F) ctx) := by
  unfold cmdPing
  split
  · exact follows_arg rfl fun _ _ => fresh_start.settled _
  · exact fresh_start.settled _

theorem cmdFlushall_disciplined (ctx : CommandContext) (hk : ∀ a, a ∈ fp.reads) :
    Disciplined fp (cmdFlushall (F := F) ctx) := by
  have hloop : Follows (discipline fp) (fun φ _ => φ.dirty = ∅) Phase.start
      (forEach (fun i => invoke (S := dbOps F) (.flushDb i)) (List.finRange 16)) :=
    Follows.forEach (J := fun φ : Phase => φ.dirty = ∅) (fun i _ φ hd =>
      follows_invoke (o := .flushDb i) (f := fun _ => pure ())
        (fun k => ⟨hk (i, k), notMem_dirty hd _⟩) fun _ => hd) rfl
  exact Follows.bind (hloop.mono fun φ _ hd => settled_of_not_error hd rfl)

theorem cmdDel_disciplined (hk : fp.SeesAll ctx) (hs : ¬fp.strict) :
    Disciplined fp (cmdDel (F := F) ctx) := by
  refine follows_args rfl fun keys hkeys => ?_
  have hloop : Follows (discipline fp) (fun φ _ => φ.dirty = ∅) Phase.start
      (forEach (fun key => perform (S := dbOps F) (.del ctx.dbIndex key)) keys) :=
    Follows.forEach (J := fun φ : Phase => φ.dirty = ∅) (fun key hkey φ hd =>
      follows_perform (o := .del ctx.dbIndex key) (f := fun b => pure b)
        ⟨hk keys hkeys key hkey, notMem_dirty hd _, fun h => absurd h hs⟩ id fun _ => hd) rfl
  exact Follows.bind (hloop.mono fun φ _ hd => settled_of_not_error hd rfl)

theorem cmdExists_disciplined (hk : fp.SeesAll ctx) : Disciplined fp (cmdExists (F := F) ctx) := by
  refine follows_args rfl fun keys hkeys => ?_
  have hloop : Follows (discipline fp) (fun φ _ => Fresh φ) Phase.start
      (forEach (fun key => existsKey (F := F) ctx.dbIndex key) keys) :=
    Follows.forEach (fun key hkey φ hφ =>
      follows_find (hk keys hkeys key hkey) hφ.dirty fun _ => hφ.looked _) fresh_start
  exact Follows.bind (hloop.mono fun φ _ hφ => hφ.settled _)

theorem cmdType_disciplined (hk : fp.Covers ctx 1) : Disciplined fp (cmdType (F := F) ctx) := by
  refine follows_arg rfl fun key hkey => follows_find (hk key hkey).1 rfl fun r => ?_
  cases r with
  | none => exact (fresh_start.looked _).settled _
  | some r => exact (fresh_start.looked _).settled _

theorem cmdRename_disciplined (h1 : fp.Sees ctx 1) (h2 : fp.Covers ctx 2) (hs : ¬fp.strict) :
    Disciplined fp (cmdRename (F := F) ctx) := by
  refine follows_arg rfl fun source hsource => follows_arg rfl fun dest hdest => ?_
  refine follows_perform (o := .rename ctx.dbIndex source dest) ⟨h1 source hsource,
    (h2 dest hdest).1, (h2 dest hdest).2, Set.notMem_empty _, Set.notMem_empty _,
    fun h => absurd h hs⟩ id fun r => ?_
  cases r with
  | true => exact settled_of_not_error rfl rfl
  | false => exact fresh_start.settled _

theorem cmdRenamenx_disciplined (h1 : fp.Sees ctx 1) (h2 : fp.Covers ctx 2) :
    Disciplined fp (cmdRenamenx (F := F) ctx) := by
  refine follows_arg rfl fun source hsource => follows_arg rfl fun dest hdest => ?_
  refine follows_existsKey (h1 source hsource) rfl fun found => ?_
  split
  · exact (fresh_start.looked _).settled _
  · refine follows_existsKey (h2 dest hdest).1 rfl fun taken => ?_
    split
    · exact ((fresh_start.looked _).looked _).settled _
    · exact follows_invoke (o := .rename ctx.dbIndex source dest) ⟨h1 source hsource,
        (h2 dest hdest).1, (h2 dest hdest).2, Set.notMem_empty _, Set.notMem_empty _,
        fun _ => ⟨Set.mem_insert_of_mem _ (Set.mem_insert _ _), Set.mem_insert _ _⟩⟩
        fun _ => settled_of_not_error rfl rfl

theorem setExpireRelative_disciplined (multiplier : UInt64) (hk : fp.Covers ctx 1) :
    Disciplined fp (setExpireRelative (F := F) ctx multiplier) := by
  refine follows_arg rfl fun key hkey => ?_
  have ha := (hk key hkey).1
  split
  · exact fresh_start.settled _
  · split
    · refine follows_existsKey ha rfl fun found => ?_
      split
      · exact follows_del ha rfl (Set.mem_insert _ _) fun _ => settled_of_not_error rfl rfl
      · exact (fresh_start.looked _).settled _
    · refine follows_existsKey ha rfl fun found => ?_
      split
      · exact (fresh_start.looked _).settled _
      · exact follows_nowMs fun now => follows_deadline (.inr ⟨_, rfl⟩) ha rfl (Set.mem_insert _ _)
          (settled_of_not_error rfl rfl)

theorem setExpireAbsolute_disciplined (multiplier : UInt64) (hk : fp.Covers ctx 1) :
    Disciplined fp (setExpireAbsolute (F := F) ctx multiplier) := by
  refine follows_arg rfl fun key hkey => ?_
  have ha := (hk key hkey).1
  split
  · exact fresh_start.settled _
  · refine follows_existsKey ha rfl fun found => ?_
    split
    · exact (fresh_start.looked _).settled _
    · refine follows_nowMs fun now => ?_
      split
      · exact follows_del ha rfl (Set.mem_insert _ _) fun _ => settled_of_not_error rfl rfl
      · exact follows_deadline (.inr ⟨_, rfl⟩) ha rfl (Set.mem_insert _ _)
          (settled_of_not_error rfl rfl)

theorem ttlReply_disciplined (unit : UInt64) (hk : fp.Covers ctx 1) :
    Disciplined fp (ttlReply (F := F) ctx unit) := by
  refine follows_arg rfl fun key hkey => follows_ttlMs (hk key hkey).1 rfl fun r => ?_
  cases r with
  | keyNotFound => exact fresh_start.settled _
  | noExpiry => exact fresh_start.settled _
  | expires ms => exact fresh_start.settled _

theorem cmdPersist_disciplined (hk : fp.Covers ctx 1) :
    Disciplined fp (cmdPersist (F := F) ctx) := by
  refine follows_arg rfl fun key hkey => follows_existsKey (hk key hkey).1 rfl fun found => ?_
  split
  · exact (fresh_start.looked _).settled _
  · refine follows_perform (o := .removeExpire ctx.dbIndex key)
      ⟨(hk key hkey).1, .inl (Set.mem_insert _ _)⟩ (fun h => h (Set.mem_insert _ _)) fun r => ?_
    exact settled_of_not_error (Set.empty_sdiff _) rfl

theorem cmdScan_disciplined (hs : ¬fp.strict) : Disciplined fp (cmdScan (F := F) ctx) := by
  unfold cmdScan
  split
  · exact fresh_start.settled _
  · refine follows_perform (o := .scan _ _ _ _) hs id fun page => ?_
    exact Follows.bind (Follows.ofOption rfl fun _ _ => fresh_start.settled _)

end GenericFamily

end ShrikeDb
