import ShrikeDb.Server.Broadcast

/-! `SINTER`, `SUNION` and `SDIFF` on several shards. They are run on the shard of their
first key, which takes the keys of other shards for missing. -/

namespace ShrikeDb.SetFamily

open Program Command CommandRegistry Sharding ReplyBuilder Cluster Function ShardThread List

variable {F : Type}

/-! ## One shard -/

/-- What a set operation takes from a cell: nothing counts as the empty set, and a value
of another kind is refused. -/
def setIn (now : UInt64) (cell : Cell F) :
    Option (Finset Bytes) := (cell.live now).1.elim (some ∅) setOf

theorem setIn_update {now : UInt64} {cells : Addr → Cell F} (a b : Addr) :
    setIn now (update cells a ((cells a).live now) b) = setIn now (cells b) := by
  by_cases h : b = a
  · subst h
    rw [update_self, setIn, Cell.live_live, setIn]
  · rw [update_of_ne h]

theorem run_collectSets (ω : Listing Bytes) (i : DbIndex) (keys : List Bytes) (x : Exec F) :
    (run (step ω) (collectSets i keys) x).1 =
      some (keys.mapM fun k => setIn x.slice.nowMs (x.slice.cell (i, k))) := by
  induction keys generalizing x with
  | nil => rfl
  | cons key keys ih =>
    obtain ⟨y, hrun, hcell, hnow, -⟩ := Leaves.perform (o := .find i key) rfl ω x
    have hsame : (fun k => setIn y.slice.nowMs (y.slice.cell (i, k))) =
        fun k => setIn x.slice.nowMs (x.slice.cell (i, k)) := by
      funext k
      rw [hnow, hcell]
      exact setIn_update (i, key) (i, k)
    obtain ⟨z, hrest⟩ : ∃ z, run (step ω) (collectSets i keys) y =
        (some (keys.mapM fun k => setIn x.slice.nowMs (x.slice.cell (i, k))), z) :=
      ⟨_, Prod.ext (hsame ▸ ih y) rfl⟩
    rw [collectSets, mapM_cons, setIn]
    refine (congrArg Prod.fst (run_bind_of (step ω) _ hrun)).trans ?_
    dsimp only [DbOp.answer, DbOp.found]
    cases hv : ((x.slice.cell (i, key)).live x.slice.nowMs).1 with
    | none =>
      refine (congrArg Prod.fst (run_bind_of (step ω) _ hrest)).trans ?_
      cases keys.mapM fun k => setIn x.slice.nowMs (x.slice.cell (i, k)) <;> rfl
    | some v =>
      dsimp only [Option.map_some, Option.elim_some]
      cases setOf v with
      | none => rfl
      | some items =>
        refine (congrArg Prod.fst (run_bind_of (step ω) _ hrest)).trans ?_
        cases keys.mapM fun k => setIn x.slice.nowMs (x.slice.cell (i, k)) <;> rfl

variable (op : SetOp)

/-- The reply of a set operation on what it has collected. -/
def setReply [HashOrder] : Option (List (Finset Bytes)) → Bytes
  | none => sendWrongType []
  | some [] => sendArrayLen 0
  | some (first :: rest) => sendStringArray (membersOf (rest.foldl op.combine first))

/-- Membership in a combination of sets. -/
def SetOp.Has (m : Bytes) (first : Finset Bytes) (rest : List (Finset Bytes)) : SetOp → Prop
  | .inter => m ∈ first ∧ ∀ s ∈ rest, m ∈ s
  | .union => m ∈ first ∨ ∃ s ∈ rest, m ∈ s
  | .diff => m ∈ first ∧ ∀ s ∈ rest, m ∉ s

theorem mem_foldl_combine (m : Bytes) (first : Finset Bytes) (rest : List (Finset Bytes)) :
    m ∈ rest.foldl op.combine first ↔ op.Has m first rest := by
  induction rest generalizing first with
  | nil => cases op <;> simp [SetOp.Has]
  | cons s rest ih =>
    rw [foldl_cons, ih]
    cases op with
    | inter => simp [SetOp.Has, SetOp.combine, and_assoc]
    | union => simp [SetOp.Has, SetOp.combine, or_assoc]
    | diff => simp [SetOp.Has, SetOp.combine, and_assoc]

theorem SetOp.Has.mem {op : SetOp} {m : Bytes} {first : Finset Bytes} {rest : List (Finset Bytes)}
    (h : op.Has m first rest) : ∃ s ∈ first :: rest, m ∈ s := by
  cases op with
  | inter => exact ⟨first, mem_cons_self, h.1⟩
  | diff => exact ⟨first, mem_cons_self, h.1⟩
  | union =>
    rcases h with h | ⟨s, hs, hm⟩
    · exact ⟨first, mem_cons_self, h⟩
    · exact ⟨s, mem_cons_of_mem first hs, hm⟩

/-! ## Replies -/

/-- Two replies are the same, or are arrays of the same members. -/
def SameMembers (a b : Bytes) : Prop :=
  a = b ∨ (a.head? = some 42 ∧ b.head? = some 42 ∧ ∀ m, m ∈ parseRespArray a ↔ m ∈ parseRespArray b)

theorem mapM_eq_none {α β : Type} {f : α → Option β} {l : List α} {a : α} (ha : a ∈ l)
    (hf : f a = none) : l.mapM f = none := by
  induction l with
  | nil => cases ha
  | cons b l ih =>
    rw [mapM_cons]
    rcases mem_cons.mp ha with rfl | ha
    · rw [hf]
      rfl
    · rw [ih ha]
      cases f b <;> rfl

theorem mapM_eq_some {α β : Type} {f : α → Option β} {g : α → β} {l : List α}
    (h : ∀ a ∈ l, f a = some (g a)) : l.mapM f = some (l.map g) := by
  induction l with
  | nil => rfl
  | cons b l ih =>
    rw [mapM_cons, h b mem_cons_self, ih fun a ha => h a (mem_cons_of_mem b ha)]
    rfl

/-- The keys that are away, taken for missing, make no difference to the combination. -/
def SetOp.Spared (first : Bytes) (rest : List Bytes) (away : Bytes → Prop)
    (sets : Bytes → Finset Bytes) :
    SetOp → Prop
  | .inter => ∀ k ∈ first :: rest, away k → ∀ m, ∃ k' ∈ first :: rest, m ∉ sets k'
  | .union => ∀ k ∈ rest, away k → ∀ m ∈ sets k, ∃ k' ∈ first :: rest, ¬away k' ∧ m ∈ sets k'
  | .diff => ∀ k ∈ rest, away k → ∀ m ∈ sets k, m ∈ sets first → ∃ k' ∈ rest, ¬away k' ∧ m ∈ sets k'

theorem SetOp.spared_iff {first : Bytes} {rest : List Bytes} {away : Bytes → Prop}
    [DecidablePred away] (hfirst : ¬away first) (sets : Bytes → Finset Bytes) :
    (∀ m, op.Has m (sets first) (rest.map fun k => if away k then ∅ else sets k) ↔
      op.Has m (sets first) (rest.map sets)) ↔ op.Spared first rest away sets := by
  have hmem : ∀ m k, m ∈ (if away k then ∅ else sets k) ↔ ¬away k ∧ m ∈ sets k := by
    intro m k
    split
    · next h => exact iff_of_false (Finset.notMem_empty m) fun hm => hm.1 h
    · next h => exact (and_iff_right h).symm
  cases op with
  | inter =>
    simp only [SetOp.Has, SetOp.Spared, forall_mem_map, hmem]
    constructor
    · intro h k hk haway m
      by_contra hall
      push Not at hall
      have hk' : k ∈ rest := (mem_cons.mp hk).resolve_left fun e => hfirst (e ▸ haway)
      exact (((h m).mpr ⟨hall first mem_cons_self,
        fun k' hk' => hall k' (mem_cons_of_mem first hk')⟩).2 k hk').1 haway
    · intro h m
      refine and_congr_right fun hm =>
        ⟨fun hr k hk => (hr k hk).2, fun hr k hk => ⟨fun haway => ?_, hr k hk⟩⟩
      obtain ⟨k', hk', hnot⟩ := h k (mem_cons_of_mem first hk) haway m
      rcases mem_cons.mp hk' with rfl | hk'
      · exact hnot hm
      · exact hnot (hr k' hk')
  | union =>
    simp only [SetOp.Has, SetOp.Spared, mem_map, exists_exists_and_eq_and, hmem]
    constructor
    · intro h k hk haway m hm
      rcases (h m).mpr (.inr ⟨k, hk, hm⟩) with hm' | ⟨k', hk', hown, hm'⟩
      · exact ⟨first, mem_cons_self, hfirst, hm'⟩
      · exact ⟨k', mem_cons_of_mem first hk', hown, hm'⟩
    · intro h m
      refine ⟨Or.imp_right fun ⟨k, hk, _, hm⟩ => ⟨k, hk, hm⟩, ?_⟩
      rintro (hm | ⟨k, hk, hm⟩)
      · exact .inl hm
      · by_cases haway : away k
        · obtain ⟨k', hk', hown, hm'⟩ := h k hk haway m hm
          rcases mem_cons.mp hk' with rfl | hk'
          · exact .inl hm'
          · exact .inr ⟨k', hk', hown, hm'⟩
        · exact .inr ⟨k, hk, haway, hm⟩
  | diff =>
    simp only [SetOp.Has, SetOp.Spared, forall_mem_map, hmem]
    constructor
    · intro h k hk haway m hm hfst
      by_contra hall
      push Not at hall
      have hleft := (h m).mp ⟨hfst, fun k' hk' hm' => hall k' hk' hm'.1 hm'.2⟩
      exact hleft.2 k hk hm
    · intro h m
      refine and_congr_right fun hfst => ⟨fun hr k hk hm => ?_, fun hr k hk hm => hr k hk hm.2⟩
      by_cases haway : away k
      · obtain ⟨k', hk', hown, hm'⟩ := h k hk haway m hm hfst
        exact hr k' hk' ⟨hown, hm'⟩
      · exact hr k hk ⟨haway, hm⟩

section Replies

variable [HashOrder]

theorem mem_parseRespArray_members {items : Finset Bytes} (h : ∀ m ∈ items, m.length < 2 ^ 63)
    (m : Option Bytes) :
    m ∈ parseRespArray (sendStringArray (membersOf items)) ↔ ∃ b ∈ items, some b = m := by
  have hmem : ∀ b, b ∈ membersOf items ↔ b ∈ items := HashOrder.order.mem_list items
  rw [parseRespArray_sendStringArray fun b hb => h b ((hmem b).mp hb), mem_map]
  simp only [hmem]

theorem sameMembers_members {a b : Finset Bytes} (ha : ∀ m ∈ a, m.length < 2 ^ 63)
    (hb : ∀ m ∈ b, m.length < 2 ^ 63) :
    SameMembers (sendStringArray (membersOf a)) (sendStringArray (membersOf b)) ↔
      ∀ m, m ∈ a ↔ m ∈ b := by
  constructor
  · rintro (heq | ⟨-, -, hsame⟩) m
    · have hread := mem_parseRespArray_members ha (some m)
      rw [heq, mem_parseRespArray_members hb] at hread
      simpa using hread.symm
    · have hread := hsame (some m)
      rw [mem_parseRespArray_members ha, mem_parseRespArray_members hb] at hread
      simpa using hread
  · intro hsame
    rw [Finset.ext hsame]
    exact .inl rfl

/-- The combination does not depend on whether the keys that are away are there. -/
def SetOp.Indifferent (first : Bytes) (rest : List Bytes) (away : Bytes → Prop)
    (sets : Bytes → Option (Finset Bytes)) : Prop :=
  (∃ k ∈ first :: rest, ¬away k ∧ sets k = none) ∨
    (∀ k ∈ first :: rest, away k → sets k ≠ none) ∧
      op.Spared first rest away fun k => (sets k).getD ∅

theorem sameMembers_setReply {first : Bytes} {rest : List Bytes} {away : Bytes → Prop}
    [DecidablePred away] (hfirst : ¬away first) {sets : Bytes → Option (Finset Bytes)}
    (hfit : ∀ k s, sets k = some s → ∀ m ∈ s, m.length < 2 ^ 63) :
    SameMembers (setReply op ((first :: rest).mapM fun k => if away k then some ∅ else sets k))
        (setReply op ((first :: rest).mapM sets)) ↔ op.Indifferent first rest away sets := by
  by_cases hown : ∃ k ∈ first :: rest, ¬away k ∧ sets k = none
  · obtain ⟨k, hk, haway, hnone⟩ := hown
    refine iff_of_true (.inl ?_) (.inl ⟨k, hk, haway, hnone⟩)
    rw [mapM_eq_none hk hnone, mapM_eq_none hk (by rw [if_neg haway, hnone])]
  rw [SetOp.Indifferent, or_iff_right hown]
  push Not at hown
  -- The shard sees sets only.
  have hseen : ∀ k ∈ first :: rest, (if away k then some ∅ else sets k) =
      some (if away k then ∅ else (sets k).getD ∅) := by
    intro k hk
    split
    · rfl
    · next haway =>
      obtain ⟨s, hs⟩ := Option.ne_none_iff_exists'.mp (hown k hk haway)
      rw [hs]
      rfl
  rw [mapM_eq_some hseen, map_cons, if_neg hfirst]
  by_cases hwrong : ∃ k ∈ first :: rest, sets k = none
  · obtain ⟨k, hk, hnone⟩ := hwrong
    rw [mapM_eq_none hk hnone]
    refine iff_of_false ?_ fun h => ?_
    · rintro (heq | ⟨-, hhead, -⟩)
      · cases heq
      · cases hhead
    · by_cases haway : away k
      · exact h.1 k hk haway hnone
      · exact hown k hk haway hnone
  · push Not at hwrong
    have hall : ∀ k ∈ first :: rest, sets k = some ((sets k).getD ∅) := by
      intro k hk
      obtain ⟨s, hs⟩ := Option.ne_none_iff_exists'.mp (hwrong k hk)
      rw [hs]
      rfl
    have hbound : ∀ (g : Bytes → Finset Bytes), (∀ k, g k ⊆ (sets k).getD ∅) →
        ∀ m ∈ (rest.map g).foldl op.combine (g first), m.length < 2 ^ 63 := by
      intro g hg m hm
      obtain ⟨s, hs, hm⟩ := ((mem_foldl_combine op m _ _).mp hm).mem
      rw [← map_cons, mem_map] at hs
      obtain ⟨k, hk, rfl⟩ := hs
      exact hfit k _ (hall k hk) m (hg k hm)
    have hseen' := hbound (fun k => if away k then ∅ else (sets k).getD ∅) fun k => by
      split
      · exact Finset.empty_subset _
      · exact Finset.Subset.refl _
    rw [if_neg hfirst] at hseen'
    rw [mapM_eq_some hall, map_cons, setReply, setReply,
      sameMembers_members hseen' (hbound (fun k => (sets k).getD ∅) fun k => Finset.Subset.refl _)]
    simp only [mem_foldl_combine]
    rw [op.spared_iff hfirst fun k => (sets k).getD ∅]
    exact (and_iff_right fun k hk _ => hwrong k hk).symm

end Replies

/-! ## Several shards -/

section Shards

variable [F64 F] [HashOrder] [CaseTable]

def SetOp.name : SetOp → Bytes
  | .inter => ascii "SINTER"
  | .union => ascii "SUNION"
  | .diff => ascii "SDIFF"

def SetOp.entry : CommandEntry F := ⟨op.name, fun ctx => setOp ctx op, -2, 1⟩

omit [CaseTable] in
theorem find_setOp (op : SetOp) : find (F := F) op.name = some op.entry := by
  cases op with
  | inter => exact find_sinter
  | union => exact find_sunion
  | diff => exact find_sdiff

theorem dispatch_setOp {op : SetOp} {word : RespExpr} {keys : List Bytes}
    (hres : resolve (word :: keys.map RespExpr.string) = .run (op.entry (F := F)))
    (ω : Listing Bytes) (i : DbIndex) (sh : EngineShard F) :
    (dispatch ω (word :: keys.map RespExpr.string) ⟨i⟩ sh).reply =
      some (setReply op (keys.mapM fun k => setIn sh.dbSlice.nowMs (sh.dbSlice.cell (i, k)))) := by
  let x : Exec F := ⟨sh.dbSlice, ⟨i⟩⟩
  obtain ⟨z, hcollect⟩ : ∃ z, run (step ω) (collectSets i keys) x =
      (some (keys.mapM fun k => setIn sh.dbSlice.nowMs (sh.dbSlice.cell (i, k))), z) :=
    ⟨_, Prod.ext (run_collectSets ω i keys x) rfl⟩
  rw [dispatch, hres]
  change (run (step ω) (setOp ⟨word :: keys.map RespExpr.string, i⟩ op) x).1 = _
  rw [setOp, args, argsBytes_bulk]
  refine (congrArg Prod.fst (run_bind_of (step ω) _ hcollect)).trans ?_
  cases keys.mapM fun k => setIn sh.dbSlice.nowMs (sh.dbSlice.cell (i, k)) with
  | none => rfl
  | some sets => cases sets <;> rfl

variable {n : Nat} [NeZero n]

variable (c : Cluster F n)

/-- Members of sets fit a vector. -/
def MembersFit : Prop :=
  ∀ s a items, ((c s).dbSlice.cell a).1 = some (.set items) → ∀ m ∈ items, m.length < 2 ^ 63

/-- The sets under keys, each on its shard. -/
def setAt (now : UInt64) (i : DbIndex) (k : Bytes) : Option (Finset Bytes) :=
  setIn now ((c (shard k n)).dbSlice.cell (i, k))

/-- The shard of the first key finds all that matters to the operation. -/
def Gathered (now : UInt64) (i : DbIndex) (op : SetOp) : List Bytes → Prop
  | [] => True
  | first :: rest => op.Indifferent first rest (fun k => shard k n ≠ shard first n) (setAt c now i)

theorem plan_setOp (home : Fin n) {op : SetOp} {args : List RespExpr}
    (hname : commandName args = .ok op.name) : (resolve args = .run (op.entry (F := F)) ∧
        dispatchCommand F home args = .run (shard (keyAt args 1) n) args) ∨
      ∃ reply, resolve (F := F) args = .reply reply true ∧
        dispatchCommand F home args = .reply reply true := by
  have hroute : route home op.name 1 args = .run (shard (keyAt args 1) n) args := by
    cases op <;> rfl
  have hne : op.name ≠ ascii "QUIT" ∧ op.name ≠ ascii "SELECT" ∧
      ¬(op.name = ascii "SAVE" ∨ op.name = ascii "BGSAVE") := by
    cases op <;> decide
  rw [resolve, dispatchCommand, hname]
  dsimp only
  rw [if_neg hne.1, if_neg hne.1, if_neg hne.2.1, if_neg hne.2.2, find_setOp]
  dsimp only
  split
  · exact .inl ⟨rfl, hroute⟩
  · exact .inr ⟨_, rfl, rfl⟩

section Replies

variable {c : Cluster F n} {op : SetOp} {word : RespExpr} {first : Bytes} {rest : List Bytes}

theorem asOne_setOp (hplaced : c.Placed)
    (hres : resolve (word :: (first :: rest).map RespExpr.string) = .run (op.entry (F := F)))
    (now : UInt64) (ω : Listing Bytes) (i : DbIndex) :
    (dispatch ω (word :: (first :: rest).map RespExpr.string) ⟨i⟩ (c.asOne now)).reply =
      some (setReply op ((first :: rest).mapM (setAt c now i))) := by
  refine (dispatch_setOp hres ω i (c.asOne now)).trans ?_
  simp only [Cluster.asOne, cell_union hplaced]
  rfl

theorem routed_setOp (hplaced : c.Placed)
    (hres : resolve (word :: (first :: rest).map RespExpr.string) = .run (op.entry (F := F)))
    (now : UInt64) (ω : Listing Bytes) (i : DbIndex) :
    (execOne now i c ⟨shard first n, word :: (first :: rest).map RespExpr.string, []⟩ ω).reply =
      some (setReply op ((first :: rest).mapM fun k =>
        if shard k n ≠ shard first n then some ∅ else setAt c now i k)) := by
  refine (dispatch_setOp hres ω i ((c (shard first n)).updateTime now)).trans ?_
  refine congrArg (fun f => some (setReply op ((first :: rest).mapM f))) (funext fun k => ?_)
  by_cases hk : shard k n = shard first n
  · rw [if_neg (not_not_intro hk), setAt, hk]
    rfl
  · have hempty : (c (shard first n)).dbSlice.cell (i, k) = Cell.empty := by
      by_contra hne
      exact hk (hplaced _ (i, k) hne)
    rw [if_pos hk]
    exact congrArg (setIn now) hempty

omit [F64 F] [HashOrder] [CaseTable] in
theorem setAt_fit (hfit : MembersFit c) {now : UInt64} {i : DbIndex} (k : Bytes) (s : Finset Bytes)
    (h : setAt c now i k = some s) : ∀ m ∈ s, m.length < 2 ^ 63 := by
  rw [setAt, setIn] at h
  rcases ((c (shard k n)).dbSlice.cell (i, k)).live_cases now with ⟨_, he⟩ | ⟨_, he⟩
  · rw [he] at h
    cases h
    exact fun m hm => absurd hm (Finset.notMem_empty m)
  · rw [he] at h
    cases hv : ((c (shard k n)).dbSlice.cell (i, k)).1 with
    | none =>
      rw [hv] at h
      cases h
      exact fun m hm => absurd hm (Finset.notMem_empty m)
    | some v =>
      rw [hv] at h
      cases v with
      | set items =>
        cases h
        exact hfit _ (i, k) _ hv
      | _ => cases h

end Replies

/-- A set operation that is run on the shard of its first key replies what it does on one
shard with everything iff it is refused or the other keys make no difference. -/
theorem set_operation_agrees_iff (c : Cluster F n) (hplaced : c.Placed) (hfit : MembersFit c)
    (now : UInt64) (i : DbIndex) (home : Fin n) (op : SetOp) (word : Bytes) (keys : List Bytes)
    (hname : commandName ((word :: keys).map RespExpr.string) = .ok op.name) (ω : Listing Bytes) :
    let args := (word :: keys).map RespExpr.string
    ((∃ reply c', Outcome now i c (dispatchCommand F home args) reply c') ∧
      ∀ reply c', Outcome now i c (dispatchCommand F home args) reply c' →
        ∃ one, (dispatch ω args ⟨i⟩ (c.asOne now)).reply = some one ∧ SameMembers reply one) ↔
    (Accepts F args → Gathered c now i op keys) := by
  intro args
  rcases plan_setOp (F := F) home hname with ⟨hres, hplan⟩ | ⟨reply, hres, hplan⟩
  · have hacc : Accepts F args := ⟨_, hres⟩
    rw [hplan, imp_iff_right hacc]
    cases keys with
    | nil =>
      rw [resolve, hname] at hres
      dsimp only at hres
      rw [if_neg (by cases op <;> decide), find_setOp] at hres
      exact absurd hres (by rintro ⟨⟩)
    | cons first rest =>
      have hone := asOne_setOp hplaced hres now ω i
      have hrouted := fun ω' => routed_setOp hplaced hres now ω' i
      rw [Gathered, ← sameMembers_setReply op (not_not_intro rfl) (setAt_fit hfit)]
      constructor
      · rintro ⟨-, h⟩
        obtain ⟨one, hone', hsame⟩ := h _ _ (.run (hrouted ω))
        cases hone.symm.trans hone'
        exact hsame
      · refine fun hsame => ⟨⟨_, _, .run (hrouted ω)⟩, fun reply c' hout => ⟨_, hone, ?_⟩⟩
        cases hout with
        | run h =>
          cases (hrouted _).symm.trans h
          exact hsame
  · rw [hplan]
    refine iff_of_true ⟨⟨reply, c, .reply reply true⟩, fun reply' c' hout => ?_⟩ fun hacc => ?_
    · cases hout
      refine ⟨reply, ?_, .inl rfl⟩
      rw [dispatch, hres]
    · obtain ⟨e, he⟩ := hacc
      exact absurd (hres.symm.trans he) (by rintro ⟨⟩)

end Shards

section Fixed

attribute [local instance] F64.whole CaseTable.identity HashOrder.arbitrary

/-- Two shards, with the set of `x` under a key of each. -/
def twoSets : Cluster Int 2 := fun s =>
  ⟨(DbSlice.new.addOrUpdate 0 (if s.val = 1 then ascii "a" else ascii "d") (.set {ascii "x"})).2, 0⟩

theorem cell_twoSets (s : Fin 2) (a : Addr) : (twoSets s).dbSlice.cell a =
    if a = (0, if s.val = 1 then ascii "a" else ascii "d") then (some (.set {ascii "x"}), none)
    else Cell.empty := by
  have hcell : (twoSets s).dbSlice.cell = update (DbSlice.new (F := Int)).cell
      (0, if s.val = 1 then ascii "a" else ascii "d") (some (.set {ascii "x"}), none) :=
    (DbOp.apply_target (o := .addOrUpdate 0 _ (.set {ascii "x"})) rfl (.arbitrary Bytes)
      DbSlice.new).2.1
  rw [hcell, update_apply]
  rfl

theorem shard_twoSets (s : Fin 2) : shard (if s.val = 1 then ascii "a" else ascii "d") 2 = s := by
  revert s
  decide

theorem placed_twoSets : twoSets.Placed := by
  intro s a hne
  rw [cell_twoSets] at hne
  by_cases h : a = (0, if s.val = 1 then ascii "a" else ascii "d")
  · rw [h]
    exact shard_twoSets s
  · rw [if_neg h] at hne
    exact absurd rfl hne

theorem fit_twoSets : MembersFit twoSets := by
  intro s a items h m hm
  rw [cell_twoSets] at h
  by_cases ha : a = (0, if s.val = 1 then ascii "a" else ascii "d")
  · rw [if_pos ha] at h
    cases h
    rw [Finset.mem_singleton.mp hm]
    decide
  · rw [if_neg ha] at h
    cases h

theorem setAt_twoSets (s : Fin 2) :
    setAt twoSets 0 0 (if s.val = 1 then ascii "a" else ascii "d") = some {ascii "x"} := by
  rw [setAt, shard_twoSets, cell_twoSets, if_pos rfl]
  rfl

/-- The union of two equal sets is that of the shard of the first key alone. -/
theorem set_operation_agrees_union :
    (∃ reply c', Outcome 0 0 twoSets
        (dispatchCommand Int (0 : Fin 2) (command ["sunion", "a", "d"])) reply c') ∧
      ∀ reply c', Outcome 0 0 twoSets
          (dispatchCommand Int (0 : Fin 2) (command ["sunion", "a", "d"])) reply c' →
        ∃ one, (dispatch (.arbitrary Bytes) (command ["sunion", "a", "d"]) ⟨0⟩
          (twoSets.asOne 0)).reply = some one ∧ SameMembers reply one := by
  have hname : commandName ([ascii "sunion", ascii "a", ascii "d"].map RespExpr.string) =
      .ok SetOp.union.name := commandName_eq_ok.mpr (by decide +kernel)
  have ha : setAt twoSets 0 0 (ascii "a") = some {ascii "x"} := setAt_twoSets 1
  have hd : setAt twoSets 0 0 (ascii "d") = some {ascii "x"} := setAt_twoSets 0
  refine (set_operation_agrees_iff twoSets placed_twoSets fit_twoSets 0 0 0 .union (ascii "sunion")
    [ascii "a", ascii "d"] hname (.arbitrary Bytes)).mpr fun _ => .inr ⟨?_, ?_⟩
  · simp [ha, hd]
  · intro k hk _ m hm
    dsimp only at hm
    rw [mem_singleton.mp hk, hd] at hm
    refine ⟨ascii "a", mem_cons_self, not_not_intro rfl, ?_⟩
    dsimp only
    rw [ha]
    exact hm

/-- The intersection of two equal sets on different shards comes out empty. -/
theorem intersection_lost : twoSets.Placed ∧ ∃ reply c' one,
    Outcome 0 0 twoSets
      (dispatchCommand Int (0 : Fin 2) (command ["SINTER", "a", "d"])) reply c' ∧
    (dispatch (.arbitrary Bytes) (command ["SINTER", "a", "d"]) ⟨0⟩ (twoSets.asOne 0)).reply =
    some one ∧ ¬SameMembers reply one := by
  have hargs : command ["SINTER", "a", "d"] =
      .string (ascii "SINTER") :: [ascii "a", ascii "d"].map RespExpr.string := rfl
  have hname : commandName (command ["SINTER", "a", "d"]) = .ok SetOp.inter.name :=
    commandName_eq_ok.mpr (by decide +kernel)
  rw [hargs] at hname ⊢
  obtain ⟨hres, hplan⟩ | ⟨reply, hres, -⟩ := plan_setOp (F := Int) (0 : Fin 2) hname
  swap
  · rw [resolve, hname] at hres
    dsimp only at hres
    rw [if_neg (by decide), find_setOp] at hres
    exact absurd hres (by rintro ⟨⟩)
  have hout := Outcome.run (routed_setOp placed_twoSets hres 0 (.arbitrary Bytes) 0)
  rw [hplan]
  refine ⟨placed_twoSets, _, _, _, hout, asOne_setOp placed_twoSets hres 0 (.arbitrary Bytes) 0,
    fun h => ?_⟩
  have ha : setAt twoSets 0 0 (ascii "a") = some {ascii "x"} := setAt_twoSets 1
  have hd : setAt twoSets 0 0 (ascii "d") = some {ascii "x"} := setAt_twoSets 0
  have hsets : ∀ k ∈ [ascii "a", ascii "d"], setAt twoSets 0 0 k = some {ascii "x"} := by
    simp [ha, hd]
  have haway : shard (ascii "d") 2 ≠ shard (ascii "a") 2 := by decide
  rcases (sameMembers_setReply .inter (not_not_intro rfl) (setAt_fit fit_twoSets)).mp h with
    ⟨k, hk, -, hnone⟩ | ⟨-, hspared⟩
  · rw [hsets k hk] at hnone
    cases hnone
  · obtain ⟨k, hk, hnot⟩ := hspared (ascii "d") (by simp) haway (ascii "x")
    dsimp only at hnot
    rw [hsets k hk] at hnot
    exact hnot (Finset.mem_singleton_self _)

end Fixed

end ShrikeDb.SetFamily
