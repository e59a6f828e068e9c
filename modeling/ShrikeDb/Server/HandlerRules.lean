import ShrikeDb.Server.Discipline
import ShrikeDb.Server.Registry

/-! Rules that carry the discipline through the steps handlers are made of. -/

namespace ShrikeDb.Command

open Program ReplyBuilder

variable {F α κ : Type} {fp : Footprint} {φ : Phase} {post : Phase → α → Prop} {i : DbIndex}
  {key : Bytes}

/-- Nothing was written so far. -/
structure Fresh (φ : Phase) : Prop where
  dirty : φ.dirty = ∅
  wrote : φ.wrote = false

theorem fresh_start : Fresh Phase.start := ⟨rfl, rfl⟩

/-- The phase after a look-up. -/
def looked (φ : Phase) (a : Addr) : Phase := { φ with checked := insert a φ.checked }

theorem Fresh.looked (h : Fresh φ) (a : Addr) : Fresh (looked φ a) := ⟨h.dirty, h.wrote⟩

theorem Fresh.settled (h : Fresh φ) (reply : Bytes) : Settled φ reply := ⟨h.dirty, fun _ => h.wrote⟩

theorem settled_of_not_error {reply : Bytes} (hd : φ.dirty = ∅) (h : isError reply = false) :
    Settled φ reply :=
  ⟨hd, fun he => by rw [h] at he; cases he⟩

/-! ## Single steps -/

theorem follows_arg {ctx : CommandContext} {n : Nat} {f : Bytes → Command F α} (hd : φ.dirty = ∅)
    (h : ∀ b, ctx.argBytes n = some b → Follows (discipline fp) post φ (f b)) :
    Follows (discipline fp) post φ (arg ctx n >>= f) :=
  Follows.bind (Follows.ofOption hd h)

theorem follows_args {ctx : CommandContext} {n : Nat} {f : List Bytes → Command F α}
    (hd : φ.dirty = ∅)
    (h : ∀ bs, ctx.argsBytes n = some bs → Follows (discipline fp) post φ (f bs)) :
    Follows (discipline fp) post φ (args ctx n >>= f) :=
  Follows.bind (Follows.ofOption hd h)

variable {o : DbOp F} {f : Unit → Command F α} {value : PrimeValue F}

theorem follows_perform {f : o.Result → Command F α} (ho : Discipline.allowed fp φ o)
    (hh : ¬Discipline.hidden φ o)
    (h : ∀ r, Follows (discipline fp) post (Discipline.next φ o r) (f r)) :
    Follows (discipline fp) post φ (perform (S := dbOps F) o >>= f) :=
  ⟨ho, fun hidden => absurd hidden hh, h⟩

theorem follows_invoke (ho : Discipline.allowed fp φ o)
    (h : ∀ r, Follows (discipline fp) post (Discipline.next φ o r) (f ())) :
    Follows (discipline fp) post φ (invoke (S := dbOps F) o >>= f) :=
  ⟨ho, fun _ _ _ => rfl, h⟩

theorem follows_nowMs {f : UInt64 → Command F α}
    (h : ∀ now, Follows (discipline fp) post φ (f now)) :
    Follows (discipline fp) post φ (nowMs >>= f) :=
  follows_perform (o := .nowMs) trivial id h

theorem notMem_dirty (hd : φ.dirty = ∅) (a : Addr) : a ∉ φ.dirty := by
  rw [hd]
  exact Set.notMem_empty a

theorem follows_find {f : Option (FindResult F) → Command F α} (ha : (i, key) ∈ fp.reads)
    (hd : φ.dirty = ∅) (h : ∀ r, Follows (discipline fp) post (looked φ (i, key)) (f r)) :
    Follows (discipline fp) post φ (find i key >>= f) :=
  follows_perform (o := .find i key) ⟨ha, notMem_dirty hd _⟩ id h

theorem follows_findMut {f : Option (FindResult F) → Command F α} (ha : (i, key) ∈ fp.reads)
    (hd : φ.dirty = ∅) (h : ∀ r, Follows (discipline fp) post (looked φ (i, key)) (f r)) :
    Follows (discipline fp) post φ (findMut i key >>= f) :=
  follows_perform (o := .findMut i key) ⟨ha, notMem_dirty hd _⟩ id h

theorem follows_existsKey {f : Bool → Command F α} (ha : (i, key) ∈ fp.reads) (hd : φ.dirty = ∅)
    (h : ∀ b, Follows (discipline fp) post (looked φ (i, key)) (f b)) :
    Follows (discipline fp) post φ (existsKey i key >>= f) :=
  Follows.bind (follows_find ha hd fun r => h r.isSome)

theorem follows_ttlMs {f : TtlResult → Command F α} (ha : (i, key) ∈ fp.reads) (hd : φ.dirty = ∅)
    (h : ∀ r, Follows (discipline fp) post φ (f r)) :
    Follows (discipline fp) post φ (perform (S := dbOps F) (.ttlMs i key) >>= f) :=
  follows_perform (o := .ttlMs i key) ⟨ha, notMem_dirty hd _⟩ id h

/-! ## Writing a cell that was looked up -/

/-- The phase once something was written. -/
def written (φ : Phase) : Phase := { φ with wrote := true }

theorem follows_store (ha : (i, key) ∈ fp.reads) (hc : (i, key) ∈ φ.checked)
    (h : Follows (discipline fp) post (written φ) (f ())) :
    Follows (discipline fp) post φ (invoke (S := dbOps F) (.store i key value) >>= f) :=
  follows_invoke (o := .store i key value) ⟨ha, hc⟩ fun _ => h

theorem follows_del (ha : (i, key) ∈ fp.reads) (hd : φ.dirty = ∅) (hc : (i, key) ∈ φ.checked)
    (h : ∀ w, Follows (discipline fp) post { φ with wrote := w } (f ())) :
    Follows (discipline fp) post φ (invoke (S := dbOps F) (.del i key) >>= f) :=
  follows_invoke (o := .del i key) ⟨ha, notMem_dirty hd _, fun _ => hc⟩ fun _ => h _

theorem follows_addOrUpdate (ha : (i, key) ∈ fp.reads) (hadd : (i, key) ∈ fp.adds)
    (hd : φ.dirty = ∅) (hc : (i, key) ∈ φ.checked)
    (h : Follows (discipline fp) post (written φ) (f ())) :
    Follows (discipline fp) post φ (invoke (S := dbOps F) (.addOrUpdate i key value) >>= f) := by
  refine follows_invoke (o := .addOrUpdate i key value) ⟨ha, hadd⟩ fun _ => ?_
  have hdirty : φ.dirty ∪ ({(i, key)} \ φ.checked) = φ.dirty := by
    rw [hd, Set.empty_union, Set.sdiff_eq_empty]
    exact Set.singleton_subset_iff.mpr hc
  rw [Discipline.next, hdirty]
  exact h

/-- Write a value that was not looked up; the deadline comes next. -/
theorem follows_overwrite (ho : o = .removeExpire i key ∨ ∃ d, o = .addExpire i key d)
    (ha : (i, key) ∈ fp.reads) (hadd : (i, key) ∈ fp.adds) (hd : φ.dirty = ∅)
    (h : Follows (discipline fp) post (written (looked φ (i, key))) (f ())) :
    Follows (discipline fp) post φ (invoke (S := dbOps F) (.addOrUpdate i key value) >>= fun _ =>
      invoke (S := dbOps F) o >>= f) := by
  refine follows_invoke (o := .addOrUpdate i key value) ⟨ha, hadd⟩ fun _ => ?_
  have hdirty : (φ.dirty ∪ ({(i, key)} \ φ.checked)) \ {(i, key)} = φ.dirty := by
    rw [hd, Set.empty_union, Set.sdiff_sdiff_comm, Set.sdiff_self, Set.empty_sdiff]
  have hmem : (i, key) ∈ φ.checked ∨ (i, key) ∈ φ.dirty ∪ ({(i, key)} \ φ.checked) := by
    by_cases hc : (i, key) ∈ φ.checked
    · exact .inl hc
    · exact .inr (.inr ⟨rfl, hc⟩)
  rcases ho with rfl | ⟨d, rfl⟩
  · refine follows_invoke (o := .removeExpire i key) ⟨ha, hmem⟩ fun _ => ?_
    rw [Discipline.next, Discipline.next, hdirty]
    exact h
  · refine follows_invoke (o := .addExpire i key d) ⟨ha, hmem⟩ fun _ => ?_
    rw [Discipline.next, Discipline.next, hdirty]
    exact h

theorem follows_deadline (ho : o = .removeExpire i key ∨ ∃ d, o = .addExpire i key d)
    (ha : (i, key) ∈ fp.reads) (hd : φ.dirty = ∅) (hc : (i, key) ∈ φ.checked)
    (h : Follows (discipline fp) post (written (looked φ (i, key))) (f ())) :
    Follows (discipline fp) post φ (invoke (S := dbOps F) o >>= f) := by
  have hdirty : φ.dirty \ {(i, key)} = φ.dirty := by rw [hd, Set.empty_sdiff]
  rcases ho with rfl | ⟨d, rfl⟩
  · refine follows_invoke (o := .removeExpire i key) ⟨ha, .inl hc⟩ fun _ => ?_
    rw [Discipline.next, hdirty]
    exact h
  · refine follows_invoke (o := .addExpire i key d) ⟨ha, .inl hc⟩ fun _ => ?_
    rw [Discipline.next, hdirty]
    exact h

/-! ## Reading and editing one value -/

theorem follows_view {kind : PrimeValue F → Option κ} {present : κ → Bytes} {absent : Bytes}
    (hφ : Fresh φ) (ha : (i, key) ∈ fp.reads) :
    Follows (discipline fp) Settled φ (view kind i key present absent) := by
  refine follows_find ha hφ.dirty fun r => ?_
  cases r with
  | none => exact (hφ.looked _).settled _
  | some r =>
    dsimp only
    cases kind r.value with
    | none => exact (hφ.looked _).settled _
    | some x => exact (hφ.looked _).settled _

def Edit.Silent : Edit F → Prop
  | .keep _ => True
  | .put _ _ reply => isError reply = false

theorem follows_editValue {e : Edit F} (he : e.Silent) (hφ : Fresh φ) (ha : (i, key) ∈ fp.reads)
    (hc : (i, key) ∈ φ.checked) : Follows (discipline fp) Settled φ (editValue i key e) := by
  cases e with
  | keep reply => exact hφ.settled reply
  | put value empty reply =>
    refine follows_store ha hc ?_
    cases empty with
    | false => exact settled_of_not_error hφ.dirty he
    | true => exact follows_del ha hφ.dirty hc fun _ => settled_of_not_error hφ.dirty he

/-- An edit keeps the discipline if it replies no error together with a write, and
the branch for an absent key does. -/
theorem follows_tryEdit {kind : PrimeValue F → Option κ}
    {present : κ → Except (PrimeValue F) (Edit F)} {absent : Command F Bytes} (hφ : Fresh φ)
    (ha : (i, key) ∈ fp.reads) (hpresent : ∀ x e, present x = .ok e → e.Silent)
    (habsent : Follows (discipline fp) Settled (looked φ (i, key)) absent) :
    Follows (discipline fp) Settled φ (tryEdit kind i key present absent) := by
  refine follows_findMut ha hφ.dirty fun r => ?_
  cases r with
  | none => exact habsent
  | some r =>
    dsimp only
    cases kind r.value with
    | none => exact (hφ.looked _).settled _
    | some x =>
      dsimp only
      cases hx : present x with
      | ok e => exact follows_editValue (hpresent x e hx) (hφ.looked _) ha (Set.mem_insert _ _)
      | error value => exact follows_store ha (Set.mem_insert _ _) (hφ.looked (i, key)).dirty

theorem follows_edit {kind : PrimeValue F → Option κ} {present : κ → Edit F}
    {absent : Command F Bytes} (hφ : Fresh φ) (ha : (i, key) ∈ fp.reads)
    (hpresent : ∀ x, (present x).Silent)
    (habsent : Follows (discipline fp) Settled (looked φ (i, key)) absent) :
    Follows (discipline fp) Settled φ (edit kind i key present absent) :=
  follows_tryEdit hφ ha (by rintro x e ⟨⟩; exact hpresent x) habsent

theorem follows_create {reply : Bytes} (hφ : Fresh φ) (ha : (i, key) ∈ fp.reads)
    (hadd : (i, key) ∈ fp.adds) (hc : (i, key) ∈ φ.checked) (he : isError reply = false) :
    Follows (discipline fp) Settled φ (create i key value reply) :=
  follows_addOrUpdate ha hadd hφ.dirty hc (settled_of_not_error hφ.dirty he)

end ShrikeDb.Command
