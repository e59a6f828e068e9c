import ShrikeDb.Server.Expiry

/-! Properties of all values of the databases, and the rules that carry them through the
steps handlers are made of. The generic commands write no value of their own, the string
commands write strings only, and those of lists, sets and hashes write no empty collection: a
handler that takes elements out deletes the key with the last one, and one that creates a
collection has an element for it, since the arity check has counted its words. -/

namespace ShrikeDb

open Program Command Function List

variable {F α β ι κ : Type} {good : PrimeValue F → Prop}

/-- Every value satisfies `good`. -/
def DbSlice.Values (good : PrimeValue F → Prop) (s : DbSlice F) : Prop :=
  ∀ a v, (s.cell a).1 = some v → good v

theorem DbSlice.values_new : (DbSlice.new : DbSlice F).Values good := by
  rintro a v ⟨⟩

variable {s : DbSlice F}

theorem DbSlice.Values.update {t : DbSlice F} (h : s.Values good) {a : Addr} {c : Cell F}
    (ht : t.cell = update s.cell a c) (hc : ∀ v, c.1 = some v → good v) : t.Values good := by
  intro b v hv
  rw [ht] at hv
  by_cases hb : b = a
  · subst hb
    rw [update_self] at hv
    exact hc v hv
  · rw [update_of_ne hb] at hv
    exact h b v hv

theorem DbSlice.Values.purges {t : DbSlice F} (h : s.Values good) (hp : DbSlice.Purges s t) :
    t.Values good := by
  intro a v hv
  rcases hp.cell a with heq | ⟨_, heq⟩
  · exact h a v (heq ▸ hv)
  · rw [heq] at hv
    cases hv

theorem Cell.value_of_live {now : UInt64} {c : Cell F} {v : PrimeValue F}
    (h : (c.live now).1 = some v) : c.1 = some v := by
  rcases c.live_cases now with ⟨_, he⟩ | ⟨_, he⟩ <;> rw [he] at h
  · cases h
  · exact h

/-! ## One operation -/

/-- The value an operation writes is good. -/
def DbOp.Writes (good : PrimeValue F → Prop) : DbOp F → Prop
  | .store _ _ v | .addOrUpdate _ _ v | .addIfAbsent _ _ v => good v
  | _ => True

/-- A value in the cell an operation leaves was there before, or is the one it writes. -/
theorem DbOp.Writes.onCell {o : DbOp F} (ho : o.Writes good) {now : UInt64} {c : Cell F}
    {v : PrimeValue F} (h : (o.onCell now c).1 = some v) : c.1 = some v ∨ good v := by
  cases o with
  | find => exact .inl (Cell.value_of_live h)
  | findMut => exact .inl (Cell.value_of_live h)
  | store i k w =>
    rw [DbOp.onCell] at h
    split at h
    · cases h
      exact .inr ho
    · exact .inl h
  | addOrUpdate i k w =>
    cases h
    exact .inr ho
  | addIfAbsent i k w =>
    rw [DbOp.onCell] at h
    split at h
    · exact .inl (Cell.value_of_live h)
    · cases h
      exact .inr ho
  | del => cases h
  | addExpire i k d =>
    rw [DbOp.onCell] at h
    split at h
    · exact .inl h
    · exact .inl h
  | ttlMs i k =>
    rw [DbOp.onCell] at h
    split at h
    · exact .inl (Cell.value_of_live h)
    · exact .inl h
  | _ => exact .inl h

theorem DbSlice.Values.rename (h : s.Values good) (i : DbIndex) (source dest : Bytes) :
    (s.rename i source dest).2.Values good := by
  have hempty : ∀ v, (Cell.empty : Cell F).1 = some v → good v := by rintro v ⟨⟩
  cases hv : (s.cell (i, source)).1 with
  | none => exact h.update (s.rename_none i dest hv).2.1 hempty
  | some v =>
    intro a w hw
    rw [(s.rename_some i dest hv).2.1] at hw
    by_cases hd : a = (i, dest)
    · subst hd
      rw [update_self] at hw
      cases hw
      exact h (i, source) v hv
    · rw [update_of_ne hd] at hw
      by_cases hs : a = (i, source)
      · subst hs
        rw [update_self] at hw
        cases hw
      · rw [update_of_ne hs] at hw
        exact h a w hw

/-- What an operation that writes nothing else does to good values. -/
theorem DbSlice.Values.apply (h : s.Values good) {o : DbOp F} (ho : o.Writes good)
    (ω : Listing Bytes) : (o.apply ω s).2.Values good := by
  have hsingle : ∀ {a}, o.target = some a → (o.apply ω s).2.Values good := by
    intro a htarget
    refine h.update (DbOp.apply_target htarget ω s).2.1 fun v hv => ?_
    exact (ho.onCell hv).elim (h a v) id
  cases o with
  | nowMs => exact h
  | dbSize => exact h
  | scan => exact h
  | randomEntry => exact h
  | select => exact h
  | keys i pattern => exact h.purges (s.purges_keys i ω pattern)
  | rename i source dest => exact h.rename i source dest
  | flushDb i =>
    intro a v hv
    change ((s.flushDb i).cell a).1 = some v at hv
    rw [s.cell_flushDb i a] at hv
    split at hv
    · cases hv
    · exact h a v hv
  | _ => exact hsingle rfl

/-! ## Programs -/

variable {ω : Listing Bytes} {x : Exec F}

/-- Only good values after the program. -/
def Preserves (good : PrimeValue F → Prop) (ω : Listing Bytes) (p : Command F α) (x : Exec F) :
    Prop :=
  x.slice.Values good → (run (step ω) p x).2.slice.Values good

namespace Preserves

theorem pure (a : α) : Preserves good ω (pure a) x := id

theorem panic : Preserves good ω (.panic : Command F α) x := id

theorem bind {p : Command F β} {f : β → Command F α} (hp : Preserves good ω p x)
    (hf : ∀ b y, Preserves good ω (f b) y) : Preserves good ω (p >>= f) x := by
  intro hx
  cases hr : run (step ω) p x with
  | mk r y =>
    have hy := hp hx
    rw [hr] at hy
    cases r with
    | none =>
      rw [run_bind_panic (step ω) f hr]
      exact hy
    | some b =>
      rw [run_bind_of (step ω) f hr]
      exact hf b y hy

theorem ofOption_bind {o : Option β} {f : β → Command F α}
    (h : ∀ b, o = some b → Preserves good ω (f b) x) : Preserves good ω (ofOption o >>= f) x := by
  cases o with
  | none => exact id
  | some b => exact h b rfl

variable {o : DbOp F} {i : DbIndex} {key : Bytes}

theorem perform (ho : o.Writes good) : Preserves good ω (perform (S := dbOps F) o) x :=
  fun hx => hx.apply ho ω

theorem perform_bind {f : o.Result → Command F α} (ho : o.Writes good)
    (h : ∀ r y, Preserves good ω (f r) y) :
    Preserves good ω (Program.perform (S := dbOps F) o >>= f) x :=
  (perform ho).bind h

theorem invoke (ho : o.Writes good) : Preserves good ω (invoke (S := dbOps F) o) x :=
  fun hx => hx.apply ho ω

theorem invoke_bind {f : Unit → Command F α} (ho : o.Writes good)
    (h : ∀ y, Preserves good ω (f ()) y) :
    Preserves good ω (Program.invoke (S := dbOps F) o >>= f) x :=
  (invoke ho).bind fun _ => h

theorem forEach {f : ι → Command F β} {items : List ι} (h : ∀ it y, Preserves good ω (f it) y) :
    Preserves good ω (forEach f items) x := by
  induction items generalizing x with
  | nil => exact pure []
  | cons it items ih => exact (h it x).bind fun b y => ih.bind fun bs z => pure (b :: bs)

theorem find_bind {f : Option (FindResult F) → Command F α} (h : ∀ r y, Preserves good ω (f r) y) :
    Preserves good ω (find i key >>= f) x :=
  perform_bind (o := .find i key) trivial h

theorem existsKey_bind {f : Bool → Command F α} (h : ∀ b y, Preserves good ω (f b) y) :
    Preserves good ω (existsKey i key >>= f) x :=
  (find_bind fun r _ => pure r.isSome).bind h

theorem view {kind : PrimeValue F → Option κ} {present : κ → Bytes} {absent : Bytes} :
    Preserves good ω (view kind i key present absent) x := by
  refine find_bind fun r y => ?_
  cases r with
  | none => exact pure _
  | some r =>
    dsimp only
    cases kind r.value with
    | none => exact pure _
    | some c => exact pure _

theorem create {reply : Bytes} {value : PrimeValue F} (hgood : good value) :
    Preserves good ω (create i key value reply) x :=
  invoke_bind (o := .addOrUpdate i key value) hgood fun _ => pure reply

/-- A value that is put together with the deletion of its key may be any. -/
theorem editValue {e : Edit F} (hgood : ∀ value reply, e = .put value false reply → good value) :
    Preserves good ω (editValue i key e) x := by
  cases e with
  | keep reply => exact pure reply
  | put value empty reply =>
    cases empty with
    | false => exact invoke_bind (o :=
        .store i key value) (hgood value reply rfl) fun _ => pure reply
    | true =>
      intro hx
      obtain ⟨y, hstore, hcell, -⟩ := Leaves.invoke (o := .store i key value) rfl ω x
      obtain ⟨z, hdel, hcell', -⟩ := Leaves.invoke (o := .del i key) rfl ω y
      rw [hcell, update_idem] at hcell'
      have hrun : run (step ω) (Command.editValue i key (.put value true reply)) x =
          (some reply, z) :=
        (run_bind_of (step ω) _ hstore).trans (run_bind_of (step ω) _ hdel)
      rw [hrun]
      exact hx.update hcell' (by rintro v ⟨⟩)

/-- What a panic leaves behind is good as well. -/
theorem tryEdit {kind : PrimeValue F → Option κ} {present : κ → Except (PrimeValue F) (Edit F)}
    {absent : Command F Bytes}
    (hpresent : ∀ v c, (x.slice.cell (i, key)).1 = some v → good v → kind v = some c →
      (∀ value reply, present c = .ok (.put value false reply) → good value) ∧
        ∀ value, present c = .error value → good value) (habsent : ∀ y, Preserves good ω absent y) :
    Preserves good ω (tryEdit kind i key present absent) x := by
  intro hx
  obtain ⟨y, hfind, hcell, -⟩ := Leaves.perform (o := .findMut i key) rfl ω x
  have hy : y.slice.Values good := hx.update hcell fun v hv => hx _ v (Cell.value_of_live hv)
  have hrun : run (step ω) (Command.tryEdit kind i key present absent) x = _ :=
    run_bind_of (step ω) _ hfind
  rw [hrun]
  dsimp only [DbOp.answer, DbOp.found]
  cases hv : ((x.slice.cell (i, key)).live x.slice.nowMs).1 with
  | none => exact habsent y hy
  | some v =>
    have hv' := Cell.value_of_live hv
    dsimp only [Option.map_some]
    cases hkind : kind v with
    | none => exact hy
    | some c =>
      obtain ⟨hput, herror⟩ := hpresent v c hv' (hx _ v hv') hkind
      dsimp only
      cases hp : present c with
      | ok e => exact editValue (fun value reply he => hput value reply (he ▸ hp)) hy
      | error value =>
        exact invoke_bind (o := .store i key value) (herror value hp) (fun _ => id) hy

theorem edit {kind : PrimeValue F → Option κ} {present : κ → Edit F} {absent : Command F Bytes}
    (hpresent : ∀ v c, (x.slice.cell (i, key)).1 = some v → good v → kind v = some c →
      ∀ value reply, present c = .put value false reply → good value)
    (habsent : ∀ y, Preserves good ω absent y) :
    Preserves good ω (edit kind i key present absent) x :=
  tryEdit (fun v c hcell hv hc =>
    ⟨fun value reply h => hpresent v c hcell hv hc value reply (Except.ok.inj h), by rintro _ ⟨⟩⟩)
    habsent

end Preserves

/-! ## Generic commands -/

variable {ctx : CommandContext}

section Generic

open GenericFamily ReplyBuilder CommandRegistry

theorem setExpireRelative_preserves (unit : UInt64) :
    Preserves good ω (setExpireRelative ctx unit) x := by
  refine .ofOption_bind fun key _ => ?_
  split
  · exact .pure _
  · split
    · refine .existsKey_bind fun b y => ?_
      split
      · exact .invoke_bind trivial fun _ => .pure _
      · exact .pure _
    · refine .existsKey_bind fun b y => ?_
      split
      · exact .pure _
      · exact .perform_bind trivial fun now y => .invoke_bind trivial fun _ => .pure _

theorem setExpireAbsolute_preserves (unit : UInt64) :
    Preserves good ω (setExpireAbsolute ctx unit) x := by
  refine .ofOption_bind fun key _ => ?_
  split
  · exact .pure _
  · refine .existsKey_bind fun b y => ?_
    split
    · exact .pure _
    · refine .perform_bind trivial fun now y => ?_
      split
      · exact .invoke_bind trivial fun _ => .pure _
      · exact .invoke_bind trivial fun _ => .pure _

theorem ttlReply_preserves (unit : UInt64) : Preserves good ω (ttlReply ctx unit) x := by
  refine .ofOption_bind fun key _ => .perform_bind trivial fun ttl y => ?_
  cases ttl <;> exact .pure _

theorem cmdRenamenx_preserves : Preserves good ω (cmdRenamenx ctx) x := by
  refine .ofOption_bind fun source _ => .ofOption_bind fun dest _ => .existsKey_bind fun b y => ?_
  split
  · exact .pure _
  · refine .existsKey_bind fun b' y => ?_
    split
    · exact .pure _
    · exact .invoke_bind trivial fun _ => .pure _

/-- The generic commands write no value of their own. -/
theorem genericTable_preserves {e : CommandEntry F} (he : e ∈ genericTable) :
    Preserves good ω (e.handler ctx) x := by
  have hpure : ∀ {y : Exec F} (b : Bytes), Preserves good ω (pure b : Command F Bytes) y :=
    fun b => .pure b
  simp only [genericTable, mem_cons, not_mem_nil, or_false] at he
  rcases he with rfl | rfl | rfl | rfl | rfl | rfl | rfl | rfl | rfl | rfl | rfl | rfl | rfl | rfl |
    rfl | rfl | rfl | rfl | rfl | rfl | rfl | rfl | rfl | rfl | rfl | rfl | rfl | rfl
  · dsimp only [cmdPing]
    split
    · exact .ofOption_bind fun _ _ => hpure _
    · exact hpure _
  · exact .ofOption_bind fun _ _ => hpure _
  · exact hpure _
  · exact .perform_bind trivial fun _ _ => hpure _
  · dsimp only [cmdSelect]
    split
    · exact .invoke_bind trivial fun _ => hpure _
    · exact hpure _
  · exact .perform_bind trivial fun _ _ => hpure _
  · exact .invoke_bind trivial fun _ => hpure _
  · exact .bind (.forEach fun _ _ => .invoke trivial) fun _ _ => hpure _
  · exact .ofOption_bind fun _ _ => .bind (.forEach fun _ _ => .perform trivial) fun _ _ => hpure _
  · exact .ofOption_bind fun _ _ => .bind (.forEach fun _ _ => .perform trivial) fun _ _ => hpure _
  · exact .ofOption_bind fun _ _ =>
      .bind (.forEach fun _ _ => .find_bind fun r _ => .pure r.isSome) fun _ _ => hpure _
  · refine .ofOption_bind fun key _ => .find_bind fun r y => ?_
    cases r <;> exact hpure _
  · refine .ofOption_bind fun source _ => .ofOption_bind fun dest _ =>
      .perform_bind trivial fun renamed y => ?_
    split <;> exact hpure _
  · exact cmdRenamenx_preserves
  · exact setExpireRelative_preserves 1000
  · exact setExpireRelative_preserves 1
  · exact setExpireAbsolute_preserves 1000
  · exact setExpireAbsolute_preserves 1
  · exact ttlReply_preserves 1000
  · exact ttlReply_preserves 1
  · refine .ofOption_bind fun key _ => .existsKey_bind fun b y => ?_
    split
    · exact hpure _
    · exact .perform_bind trivial fun _ _ => hpure _
  · exact .perform_bind trivial fun _ _ => hpure _
  · dsimp only [cmdScan]
    split
    · exact hpure _
    · exact .perform_bind trivial fun page y => .ofOption_bind fun _ _ => hpure _
  · exact .perform_bind trivial fun _ _ => hpure _
  · exact hpure _
  · exact hpure _
  · exact hpure _
  · exact .invoke_bind trivial fun _ => hpure _

end Generic

/-! ## Strings -/

section Strings

open StringFamily CommandRegistry PrimeValue

theorem oldString_preserves (i : DbIndex) (key : Bytes) : Preserves good ω (oldString i key) x := by
  refine .find_bind fun r y => ?_
  cases r with
  | none => exact .pure _
  | some r =>
    dsimp only
    split <;> exact .pure _

theorem capturedDeadline_preserves (keep : Bool) (i : DbIndex) (key : Bytes) :
    Preserves good ω (capturedDeadline keep i key) x := by
  rw [capturedDeadline]
  split
  · refine .perform_bind trivial fun ttl y => ?_
    cases ttl with
    | expires ms => exact .perform_bind trivial fun _ _ => .pure _
    | keyNotFound => exact .pure _
    | noExpiry => exact .pure _
  · exact .pure _

theorem setDeadline_preserves (i : DbIndex) (key : Bytes) (o : SetOptions) (old : Option UInt64) :
    Preserves good ω (setDeadline i key o old) x := by
  unfold setDeadline
  split
  · exact .perform_bind trivial fun _ _ => .invoke trivial
  · exact .invoke trivial
  · split
    · exact .invoke trivial
    · exact .pure _

theorem anyExists_preserves (i : DbIndex) (keys : List Bytes) :
    Preserves good ω (anyExists i keys) x := by
  induction keys generalizing x with
  | nil => exact .pure _
  | cons key rest ih =>
    refine .existsKey_bind fun b y => ?_
    split
    · exact .pure _
    · exact ih

variable (hstring : ∀ v : PrimeValue F, v.isString = true → good v)

include hstring

theorem setValue_preserves (i : DbIndex) (key value : Bytes) (o : SetOptions) (old : Option Bytes) :
    Preserves good ω (setValue i key value o old) x := by
  refine .existsKey_bind fun present y => ?_
  split
  · exact .pure _
  · split
    · exact .pure _
    · refine .bind (capturedDeadline_preserves _ i key) fun deadline y => ?_
      refine .invoke_bind (hstring _ (isString_fromBytes value)) fun y => ?_
      exact .bind (setDeadline_preserves i key o deadline) fun _ _ => .pure _

theorem cmdSet_preserves : Preserves good ω (cmdSet ctx) x := by
  refine .ofOption_bind fun key _ => .ofOption_bind fun value _ => ?_
  split
  · exact .pure _
  · split
    · exact .pure _
    · refine .bind ?_ fun old y => ?_
      · rw [capturedString]
        split
        · exact oldString_preserves _ _
        · exact .pure _
      · cases old with
        | error reply => exact .pure _
        | ok old => exact setValue_preserves hstring _ _ _ _ _

theorem setWithExpiry_preserves (unit : UInt64) :
    Preserves good ω (setWithExpiry ctx unit) x := by
  refine .ofOption_bind fun key _ => ?_
  split
  · exact .pure _
  · split
    · refine .ofOption_bind fun value _ => .invoke_bind (hstring _ (isString_fromBytes value))
        fun y => ?_
      exact .perform_bind trivial fun _ _ => .invoke_bind trivial fun _ => .pure _
    · exact .pure _

theorem cmdMset_preserves : Preserves good ω (cmdMset ctx) x := by
  rw [cmdMset]
  split
  · exact .pure _
  · refine .ofOption_bind fun words _ => .bind (.forEach fun pair y => ?_) fun _ _ => .pure _
    exact .invoke_bind (hstring _ (isString_fromBytes pair.2)) fun _ => .invoke trivial

theorem cmdMsetnx_preserves : Preserves good ω (cmdMsetnx ctx) x := by
  rw [cmdMsetnx]
  split
  · exact .pure _
  · refine .ofOption_bind fun words _ => .bind (anyExists_preserves _ _) fun b y => ?_
    split
    · exact .pure _
    · exact .bind (.forEach fun pair _ => .invoke (hstring _ (isString_fromBytes pair.2)))
        fun _ _ => .pure _

theorem cmdGetset_preserves : Preserves good ω (cmdGetset ctx) x := by
  refine .ofOption_bind fun key _ => .ofOption_bind fun value _ => .bind (oldString_preserves _ _)
    fun old y => ?_
  cases old with
  | error reply => exact .pure _
  | ok old =>
    exact .invoke_bind (hstring _ (isString_fromBytes value)) fun _ => .invoke_bind trivial fun _ =>
      .pure _

omit hstring in
theorem cmdGetdel_preserves : Preserves good ω (cmdGetdel ctx) x := by
  refine .ofOption_bind fun key _ => .bind (oldString_preserves _ _) fun old y => ?_
  rcases old with reply | _ | v
  · exact .pure _
  · exact .pure _
  · exact .invoke_bind trivial fun _ => .pure _

omit hstring in
theorem cmdGetex_preserves : Preserves good ω (cmdGetex ctx) x := by
  refine .ofOption_bind fun key _ => .bind (oldString_preserves _ _) fun old y => ?_
  rcases old with reply | _ | v
  · exact .pure _
  · exact .pure _
  · dsimp only
    split
    · refine .perform_bind trivial fun now z => ?_
      split
      · exact .pure _
      · exact .invoke_bind trivial fun _ => .pure _
      · exact .invoke_bind trivial fun _ => .pure _
    · exact .pure _

theorem incrBy_preserves (delta : Int64) : Preserves good ω (incrBy ctx delta) x := by
  refine .ofOption_bind fun key _ => .find_bind fun r y => ?_
  dsimp only
  split
  · exact .pure _
  · split
    · exact .pure _
    · exact .invoke_bind (hstring _ rfl) fun _ => .pure _

theorem cmdIncrbyfloat_preserves [F64 F] : Preserves good ω (cmdIncrbyfloat ctx) x := by
  refine .ofOption_bind fun key _ => ?_
  dsimp only
  split
  · exact .pure _
  · refine .find_bind fun r y => ?_
    split
    · exact .pure _
    · split
      · exact .pure _
      · exact .invoke_bind (hstring _ rfl) fun _ => .pure _

theorem cmdAppend_preserves : Preserves good ω (cmdAppend ctx) x := by
  refine .ofOption_bind fun key _ => .ofOption_bind fun data _ => ?_
  refine .tryEdit (fun v c _ _ _ => ⟨fun value reply hput => ?_, fun value herror => ?_⟩)
    fun y => .create (hstring _ rfl)
  · cases (ok_of_ite hput).2
    exact hstring _ rfl
  · cases (error_of_ite herror).2
    exact hstring _ rfl

theorem cmdSetrange_preserves : Preserves good ω (cmdSetrange ctx) x := by
  refine .ofOption_bind fun key _ => ?_
  split
  · exact .pure _
  · refine .ofOption_bind fun value _ => .perform_bind trivial fun r y => ?_
    cases r with
    | none =>
      dsimp only
      split
      · exact .panic
      · exact .create (hstring _ rfl)
    | some r =>
      dsimp only
      split
      · exact .pure _
      · next hv =>
        have hensure : (ensureString r.value).isString = true := by
          cases hr : r.value with
          | string => rfl
          | integer => rfl
          | _ =>
            rw [hr] at hv
            exact absurd rfl hv
        refine .invoke_bind (hstring _ hensure) fun y => ?_
        split
        · exact .panic
        · exact .invoke_bind (hstring _ rfl) fun _ => .pure _

/-- The string commands write strings. -/
theorem stringTable_preserves [F64 F] {e : CommandEntry F} (he : e ∈ stringTable) :
    Preserves good ω (e.handler ctx) x := by
  simp only [stringTable, mem_cons, not_mem_nil, or_false] at he
  rcases he with rfl | rfl | rfl | rfl | rfl | rfl | rfl | rfl | rfl | rfl | rfl | rfl | rfl | rfl |
    rfl | rfl | rfl | rfl | rfl | rfl
  · exact .ofOption_bind fun _ _ => .view
  · exact cmdSet_preserves hstring
  · exact .ofOption_bind fun _ _ => .ofOption_bind fun value _ =>
      .perform_bind (hstring _ (isString_fromBytes value)) fun _ _ => .pure _
  · exact setWithExpiry_preserves hstring 1000
  · exact setWithExpiry_preserves hstring 1
  · refine .ofOption_bind fun keys _ => .bind (.forEach fun key y => .find_bind fun r z => ?_)
      fun _ _ => .pure _
    cases r with
    | none => exact .pure _
    | some r =>
      dsimp only
      split <;> exact .pure _
  · exact cmdMset_preserves hstring
  · exact cmdMsetnx_preserves hstring
  · exact cmdGetset_preserves hstring
  · exact cmdGetdel_preserves
  · exact cmdGetex_preserves
  · exact incrBy_preserves hstring 1
  · exact incrBy_preserves hstring (-1)
  · dsimp only [cmdIncrby]
    split
    · exact incrBy_preserves hstring _
    · exact .pure _
  · dsimp only [cmdDecrby]
    split
    · exact incrBy_preserves hstring _
    · exact .pure _
  · exact cmdIncrbyfloat_preserves hstring
  · exact cmdAppend_preserves hstring
  · exact .ofOption_bind fun _ _ => .view
  · refine .ofOption_bind fun key _ => ?_
    split
    · exact .view
    · exact .pure _
  · exact cmdSetrange_preserves hstring

end Strings

theorem keys_insert_ne_empty {β : Type} (fields : Finmap fun _ : Bytes => β) (f : Bytes) (v : β) :
    (fields.insert f v).keys ≠ ∅ := by
  refine Finset.ne_empty_of_mem (a := f) (Finmap.mem_keys.mpr ?_)
  exact Finmap.mem_insert.mpr (.inl rfl)

/-- A loop with at least one round establishes what every round does. -/
theorem foldl_establishes {α σ : Type} {f : σ → α → σ} {P : σ → Prop} (h : ∀ s a, P (f s a))
    {l : List α} (hl : l ≠ []) (s : σ) : P (l.foldl f s) := by
  cases l with
  | nil => exact absurd rfl hl
  | cons a l => exact foldlRecOn l f (h s a) fun s _ a _ => h s a

theorem length_argsBytes {ctx : CommandContext} {bs : List Bytes} (h : ctx.argsBytes n = some bs) :
    bs.length = ctx.args.length - n := by
  rw [← length_drop, argsBytes_eq_some.mp h, length_map]

theorem ne_nil_of_argsBytes {ctx : CommandContext} {bs : List Bytes} (h : ctx.argsBytes n = some bs)
    (hlen : n < ctx.args.length) : bs ≠ [] := by
  refine ne_nil_of_length_pos ?_
  rw [length_argsBytes h]
  omega

open CommandRegistry

/-! ## Lists -/

section Lists

open ListFamily

variable (hlist : ∀ items : List Bytes, items ≠ [] → good (.list items))

include hlist

theorem pushList_preserves {push : List Bytes → Bytes → List Bytes}
    (hpush : ∀ items v, push items v ≠ []) (hlen : 2 < ctx.args.length) :
    Preserves good ω (pushList push ctx) x := by
  refine .ofOption_bind fun key _ => .ofOption_bind fun values hvalues => ?_
  have hne := ne_nil_of_argsBytes hvalues hlen
  refine .edit (fun v c _ _ _ value reply hput => ?_) fun y => .create ?_
  · cases hput
    exact hlist _ (foldl_establishes (P := (· ≠ [])) hpush hne c)
  · exact hlist _ (foldl_establishes (P := (· ≠ [])) hpush hne [])

theorem popList_preserves (pop : Nat → List Bytes → List Bytes × List Bytes) :
    Preserves good ω (popList pop ctx) x := by
  refine .ofOption_bind fun key _ => .edit (fun v c _ _ _ value reply hput => ?_) fun y => .pure _
  obtain ⟨rfl, hempty, -⟩ := Edit.put.inj hput
  exact hlist _ (isEmpty_eq_false_iff.mp hempty)

theorem cmdLset_preserves : Preserves good ω (cmdLset ctx) x := by
  refine .ofOption_bind fun key _ => .ofOption_bind fun w _ => ?_
  refine .edit (fun v c _ _ _ value reply hput => ?_) fun y => .pure _
  dsimp only at hput
  split at hput
  · next hi =>
    cases hput
    refine hlist _ (ne_nil_of_length_pos ?_)
    rw [length_set]
    omega
  · cases hput

theorem cmdLrem_preserves : Preserves good ω (cmdLrem ctx) x := by
  refine .ofOption_bind fun key _ => .ofOption_bind fun w _ => ?_
  refine .edit (fun v c _ _ _ value reply hput => ?_) fun y => .pure _
  obtain ⟨rfl, hempty, -⟩ := Edit.put.inj hput
  exact hlist _ (isEmpty_eq_false_iff.mp hempty)

theorem cmdLtrim_preserves : Preserves good ω (cmdLtrim ctx) x := by
  refine .ofOption_bind fun key _ => .edit (fun v c _ _ _ value reply hput => ?_) fun y => .pure _
  obtain ⟨rfl, hempty, -⟩ := Edit.put.inj hput
  exact hlist _ (isEmpty_eq_false_iff.mp hempty)

theorem cmdLinsert_preserves : Preserves good ω (cmdLinsert ctx) x := by
  refine .ofOption_bind fun key _ => .ofOption_bind fun _ _ => .ofOption_bind fun _ _ =>
    .ofOption_bind fun w _ => ?_
  refine .edit (fun v c _ _ _ value reply hput => ?_) fun y => .pure _
  dsimp only at hput
  split at hput
  · next i hi =>
    cases hput
    obtain ⟨hlt, -⟩ := findIdx?_eq_some_iff_getElem.mp hi
    refine hlist _ (ne_nil_of_length_pos ?_)
    exact lt_of_lt_of_le (Nat.zero_lt_of_lt hlt) length_le_length_insertIdx
  · cases hput

theorem listTable_preserves {e : CommandEntry F} (he : e ∈ listTable)
    (harity : arityOk e.arity ctx.args.length = true) : Preserves good ω (e.handler ctx) x := by
  simp only [listTable, mem_cons, not_mem_nil, or_false] at he
  rcases he with rfl | rfl | rfl | rfl | rfl | rfl | rfl | rfl | rfl | rfl | rfl
  · exact pushList_preserves hlist (fun items v => cons_ne_nil v items)
      (@le_of_arityOk (-3) _ (by decide) harity)
  · exact pushList_preserves hlist (fun items v =>
      append_ne_nil_of_right_ne_nil items (cons_ne_nil v []))
      (@le_of_arityOk (-3) _ (by decide) harity)
  · exact popList_preserves hlist popFront
  · exact popList_preserves hlist popBack
  · exact .ofOption_bind fun _ _ => .view
  · exact .ofOption_bind fun _ _ => .view
  · exact .ofOption_bind fun _ _ => .view
  · exact cmdLset_preserves hlist
  · exact cmdLrem_preserves hlist
  · exact cmdLtrim_preserves hlist
  · exact cmdLinsert_preserves hlist

end Lists

/-! ## Sets -/

section Sets

open ShrikeDb.SetFamily

theorem insertAll_ne_empty {members : List Bytes} (h : members ≠ []) (items : Finset Bytes) :
    (SetFamily.insertAll members items).1 ≠ ∅ := by
  refine foldl_establishes (P := fun s : Finset Bytes × Int64 => s.1 ≠ ∅) ?_ h (items, 0)
  exact fun s m => Finset.insert_ne_empty m s.1

theorem collectSets_preserves (i : DbIndex) (keys : List Bytes) :
    Preserves good ω (collectSets i keys) x := by
  induction keys generalizing x with
  | nil => exact .pure _
  | cons key rest ih =>
    refine .find_bind fun r y => ?_
    dsimp only
    split
    · exact .pure _
    · refine .bind ih fun sets z => ?_
      cases sets <;> exact .pure _

theorem setOp_preserves [HashOrder] (op : SetOp) :
    Preserves good ω (setOp ctx op) x := by
  refine .ofOption_bind fun keys _ => .bind (collectSets_preserves _ _) fun sets y => ?_
  rcases sets with _ | _ | ⟨first, rest⟩ <;> exact .pure _

variable (hset : ∀ items : Finset Bytes, items ≠ ∅ → good (.set items))

include hset

theorem cmdSadd_preserves (hlen : 2 < ctx.args.length) : Preserves good ω (cmdSadd ctx) x := by
  refine .ofOption_bind fun key _ => .ofOption_bind fun members hmembers => ?_
  have hne := ne_nil_of_argsBytes hmembers hlen
  refine .edit (fun v c _ _ _ value reply hput => ?_) fun y => .create ?_
  · cases hput
    exact hset _ (insertAll_ne_empty hne c)
  · exact hset _ (insertAll_ne_empty hne ∅)

theorem cmdSrem_preserves : Preserves good ω (cmdSrem ctx) x := by
  refine .ofOption_bind fun key _ => .ofOption_bind fun members _ => ?_
  refine .edit (fun v c _ _ _ value reply hput => ?_) fun y => .pure _
  obtain ⟨rfl, hempty, -⟩ := Edit.put.inj hput
  exact hset _ (of_decide_eq_false hempty)

variable [HashOrder]

theorem cmdSpop_preserves : Preserves good ω (cmdSpop ctx) x := by
  refine .ofOption_bind fun key _ => .edit (fun v c _ _ _ value reply hput => ?_) fun y => .pure _
  split at hput
  · obtain ⟨rfl, hempty, -⟩ := Edit.put.inj hput
    exact hset _ (of_decide_eq_false hempty)
  · cases hput

theorem setTable_preserves {e : CommandEntry F} (he : e ∈ setTable)
    (harity : arityOk e.arity ctx.args.length = true) : Preserves good ω (e.handler ctx) x := by
  simp only [setTable, mem_cons, not_mem_nil, or_false] at he
  rcases he with rfl | rfl | rfl | rfl | rfl | rfl | rfl | rfl | rfl | rfl | rfl
  · exact cmdSadd_preserves hset (@le_of_arityOk (-3) _ (by decide) harity)
  · exact cmdSrem_preserves hset
  · exact .ofOption_bind fun _ _ => .view
  · exact .ofOption_bind fun _ _ => .ofOption_bind fun _ _ => .view
  · exact .ofOption_bind fun _ _ => .ofOption_bind fun _ _ => .view
  · exact .ofOption_bind fun _ _ => .view
  · exact .ofOption_bind fun _ _ => .view
  · exact cmdSpop_preserves hset
  · exact setOp_preserves .inter
  · exact setOp_preserves .union
  · exact setOp_preserves .diff

end Sets

/-! ## Hashes -/

section Hashes

open HashFamily ReplyBuilder

theorem pairUp_ne_nil {words : List Bytes} (h : 2 ≤ words.length) : pairUp words ≠ [] := by
  rcases words with _ | ⟨a, _ | ⟨b, rest⟩⟩
  · cases h
  · exact absurd h (Nat.not_succ_le_self 1)
  · exact cons_ne_nil _ _

variable (hhash : ∀ fields : Fields, fields.keys ≠ ∅ → good (.hash fields))

include hhash

theorem setFields_preserves (name : Bytes) (reply : Int64 → Bytes) (hlen : 4 ≤ ctx.args.length) :
    Preserves good ω (setFields name reply ctx) x := by
  refine .ofOption_bind fun key _ => ?_
  split
  · exact .pure _
  · refine .ofOption_bind fun words hwords => ?_
    have hne : pairUp words ≠ [] := pairUp_ne_nil (by rw [length_argsBytes hwords]; omega)
    have hstocked : ∀ fields : Fields, (HashFamily.insertAll (pairUp words) fields).1.keys ≠ ∅ :=
      fun fields => foldl_establishes (P := fun s : Fields × Int64 => s.1.keys ≠ ∅)
        (fun s p => keys_insert_ne_empty s.1 p.1 p.2) hne (fields, 0)
    refine .edit (fun v c _ _ _ value reply hput => ?_) fun y => .create (hhash _ (hstocked ∅))
    cases hput
    exact hhash _ (hstocked c)

theorem cmdHdel_preserves : Preserves good ω (cmdHdel ctx) x := by
  refine .ofOption_bind fun key _ => .ofOption_bind fun names _ => ?_
  refine .edit (fun v c _ _ _ value reply hput => ?_) fun y => .pure _
  obtain ⟨rfl, hempty, -⟩ := Edit.put.inj hput
  exact hhash _ (of_decide_eq_false hempty)

theorem cmdHincrby_preserves : Preserves good ω (cmdHincrby ctx) x := by
  refine .ofOption_bind fun key _ => .ofOption_bind fun field _ => ?_
  split
  · exact .pure _
  · refine .edit (fun v c _ _ _ value reply hput => ?_) fun y =>
      .create (hhash _ (keys_insert_ne_empty _ _ _))
    cases hput
    exact hhash _ (keys_insert_ne_empty _ _ _)

theorem cmdHincrbyfloat_preserves [F64 F] : Preserves good ω (cmdHincrbyfloat ctx) x := by
  refine .ofOption_bind fun key _ => .ofOption_bind fun field _ => ?_
  dsimp only
  split
  · exact .pure _
  · refine .edit (fun v c _ _ _ value reply hput => ?_) fun y =>
      .create (hhash _ (keys_insert_ne_empty _ _ _))
    cases hput
    exact hhash _ (keys_insert_ne_empty _ _ _)

theorem cmdHsetnx_preserves : Preserves good ω (cmdHsetnx ctx) x := by
  refine .ofOption_bind fun key _ => .ofOption_bind fun field _ => .ofOption_bind fun w _ => ?_
  refine .edit (fun v c _ _ _ value reply hput => ?_) fun y =>
    .create (hhash _ (keys_insert_ne_empty _ _ _))
  split at hput
  · cases hput
  · cases hput
    exact hhash _ (keys_insert_ne_empty _ _ _)

theorem hashTable_preserves [F64 F] [HashOrder] {e : CommandEntry F} (he : e ∈ hashTable)
    (harity : arityOk e.arity ctx.args.length = true) : Preserves good ω (e.handler ctx) x := by
  simp only [hashTable, mem_cons, not_mem_nil, or_false] at he
  rcases he with rfl | rfl | rfl | rfl | rfl | rfl | rfl | rfl | rfl | rfl | rfl | rfl | rfl
  · exact setFields_preserves hhash (ascii "hset") sendInteger
      (@le_of_arityOk (-4) _ (by decide) harity)
  · exact .ofOption_bind fun _ _ => .ofOption_bind fun _ _ => .view
  · exact cmdHdel_preserves hhash
  · exact .ofOption_bind fun _ _ => .ofOption_bind fun _ _ => .view
  · exact .ofOption_bind fun _ _ => .view
  · exact .ofOption_bind fun _ _ => .view
  · exact .ofOption_bind fun _ _ => .view
  · exact .ofOption_bind fun _ _ => .view
  · exact setFields_preserves hhash (ascii "hmset") (fun _ => sendOk)
      (@le_of_arityOk (-4) _ (by decide) harity)
  · exact .ofOption_bind fun _ _ => .ofOption_bind fun _ _ => .view
  · exact cmdHincrby_preserves hhash
  · exact cmdHincrbyfloat_preserves hhash
  · exact cmdHsetnx_preserves hhash

end Hashes

/-! ## Sorted sets -/

section SortedSets

open ZsetFamily

variable [F64 F]

/-- Four handlers write sorted sets. -/
theorem zsetTable_preserves {e : CommandEntry F} (he : e ∈ zsetTable)
    (harity : arityOk e.arity ctx.args.length = true)
    (hzadd : e.name = ascii "ZADD" → 4 ≤ ctx.args.length → Preserves good ω (cmdZadd ctx) x)
    (hzincrby : e.name = ascii "ZINCRBY" → Preserves good ω (cmdZincrby ctx) x)
    (hzrem : Preserves good ω (cmdZrem ctx) x)
    (hzpop : ∀ rev, Preserves good ω (zpopImpl ctx rev) x) :
    Preserves good ω (e.handler ctx) x := by
  simp only [zsetTable, mem_cons, not_mem_nil, or_false] at he
  rcases he with rfl | rfl | rfl | rfl | rfl | rfl | rfl | rfl | rfl | rfl | rfl | rfl | rfl
  · exact hzadd rfl (@le_of_arityOk (-4) _ (by decide) harity)
  · exact hzrem
  · exact .ofOption_bind fun _ _ => .ofOption_bind fun _ _ => .view
  · exact .ofOption_bind fun _ _ => .ofOption_bind fun _ _ => .view
  · exact .ofOption_bind fun _ _ => .ofOption_bind fun _ _ => .view
  · exact .ofOption_bind fun _ _ => .view
  · exact .ofOption_bind fun _ _ => .view
  · exact .ofOption_bind fun _ _ => .view
  · exact .ofOption_bind fun _ _ => .view
  · exact hzincrby rfl
  · exact hzpop false
  · exact hzpop true
  · exact .ofOption_bind fun _ _ => .ofOption_bind fun _ _ => .view

end SortedSets

/-! ## Runs -/

section Runs

variable [F64 F] [HashOrder]

/-- Strings are good, and so are lists, sets and hashes with an element. -/
structure TakesPlain (good : PrimeValue F → Prop) : Prop where
  string : ∀ v : PrimeValue F, v.isString = true → good v
  list : ∀ items : List Bytes, items ≠ [] → good (.list items)
  set : ∀ items : Finset Bytes, items ≠ ∅ → good (.set items)
  hash : ∀ fields : HashFamily.Fields, fields.keys ≠ ∅ → good (.hash fields)

open CommandRegistry

theorem TakesPlain.registry (h : TakesPlain good) {e : CommandEntry F}
    (he : e ∈ buildCommandRegistry) (harity : arityOk e.arity ctx.args.length = true)
    (hzset : e ∈ zsetTable → Preserves good ω (e.handler ctx) x) :
    Preserves good ω (e.handler ctx) x := by
  simp only [buildCommandRegistry, mem_append] at he
  rcases he with ((((he | he) | he) | he) | he) | he
  · exact genericTable_preserves he
  · exact stringTable_preserves h.string he
  · exact listTable_preserves h.list he harity
  · exact setTable_preserves h.set he harity
  · exact hashTable_preserves h.hash he harity
  · exact hzset he

/-- Of the events only a command writes values, and only one of a sorted set can write a value
that is not plain. -/
theorem DbSlice.Values.next [CaseTable] {s : EngineShard F} (h : s.dbSlice.Values good)
    (hplain : TakesPlain good) (ω : Listing Bytes) (event : ShardEvent)
    (hzset : ∀ conn args, event = .command conn args → ∀ e : CommandEntry F, e ∈ zsetTable →
      arityOk e.arity args.length = true → commandName args = .ok e.name →
      Preserves good ω (e.handler ⟨args, conn.dbIndex⟩) ⟨s.dbSlice, conn⟩) :
    (s.next ω event).dbSlice.Values good := by
  cases event with
  | tick now => exact h
  | sweep i count => exact h.purges (s.dbSlice.purges_expireSweep i ω count)
  | command conn args =>
    change (dispatch ω args conn s).shard.dbSlice.Values good
    rw [dispatch]
    cases hr : resolve (F := F) args with
    | reply data keepAlive => exact h
    | run e =>
      obtain ⟨hfind, hname⟩ := resolve_run hr
      have harity := arityOk_of_resolve hr
      refine hplain.registry (find_mem hfind).1 harity (fun he => ?_) h
      exact hzset conn args rfl e he harity hname

end Runs

end ShrikeDb
