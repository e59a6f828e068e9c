import ShrikeDb.Server.Cells

/-! The discipline the handlers keep: a cell is looked up, which purges it if it
lapsed, before it is edited; a value written without a look-up gets its deadline set
or removed before anything else happens to it; and no error is replied once something
was written. From it follow, for every handler at once, where a command can add keys,
what it leaves alone, and that lapsed keys are as good as absent to it. -/

namespace ShrikeDb

open Function

variable {F : Type}

/-- How far a handler has come. -/
structure Phase where
  /-- Cells that were looked up. -/
  checked : Set Addr
  /-- Cells whose value was overwritten and whose deadline is still the old one. -/
  dirty : Set Addr
  wrote : Bool

def Phase.start : Phase := ⟨∅, ∅, false⟩

/-- The cells a command may touch and those where it may add a key. A strict command
edits only cells it has looked up and does not look at a table as a whole. -/
structure Footprint where
  reads : Set Addr
  adds : Set Addr
  strict : Prop

namespace Discipline

def allowed (fp : Footprint) (φ : Phase) : DbOp F → Prop
  | .nowMs | .select _ => True
  | .dbSize _ | .scan _ _ _ _ | .keys _ _ | .randomEntry _ => ¬fp.strict
  | .find i k | .findMut i k | .ttlMs i k => (i, k) ∈ fp.reads ∧ (i, k) ∉ φ.dirty
  | .store i k _ => (i, k) ∈ fp.reads ∧ (i, k) ∈ φ.checked
  | .addOrUpdate i k _ => (i, k) ∈ fp.reads ∧ (i, k) ∈ fp.adds
  | .addIfAbsent i k _ => (i, k) ∈ fp.reads ∧ (i, k) ∈ fp.adds ∧ (i, k) ∉ φ.dirty
  | .del i k => (i, k) ∈ fp.reads ∧ (i, k) ∉ φ.dirty ∧ (fp.strict → (i, k) ∈ φ.checked)
  | .addExpire i k _ | .removeExpire i k =>
    (i, k) ∈ fp.reads ∧ ((i, k) ∈ φ.checked ∨ (i, k) ∈ φ.dirty)
  | .rename i a b => (i, a) ∈ fp.reads ∧ (i, b) ∈ fp.reads ∧ (i, b) ∈ fp.adds ∧
      (i, a) ∉ φ.dirty ∧ (i, b) ∉ φ.dirty ∧
      (fp.strict → (i, a) ∈ φ.checked ∧ (i, b) ∈ φ.checked)
  | .flushDb i => ∀ k, (i, k) ∈ fp.reads ∧ (i, k) ∉ φ.dirty

def next (φ : Phase) : (o : DbOp F) → o.Result → Phase
  | .find i k, _ | .findMut i k, _ => { φ with checked := insert (i, k) φ.checked }
  | .store _ _ _, _ | .flushDb _, _ => { φ with wrote := true }
  | .addOrUpdate i k _, _ => { φ with dirty := φ.dirty ∪ ({(i, k)} \ φ.checked), wrote := true }
  | .addIfAbsent i k _, r =>
    { φ with checked := insert (i, k) φ.checked, wrote := φ.wrote || (r : Bool) }
  | .del _ _, r | .rename _ _ _, r => { φ with wrote := φ.wrote || (r : Bool) }
  | .addExpire i k _, _ | .removeExpire i k, _ =>
    ⟨insert (i, k) φ.checked, φ.dirty \ {(i, k)}, true⟩
  | _, _ => φ

/-- Results that tell a lapsed key from an absent one. -/
def hidden (φ : Phase) : DbOp F → Prop
  | .addOrUpdate i k _ | .removeExpire i k => (i, k) ∉ φ.checked
  | _ => False

end Discipline

def discipline (fp : Footprint) : Program.Protocol (dbOps F) Phase where
  allowed := Discipline.allowed fp
  next := Discipline.next
  hidden := Discipline.hidden
  mayPanic φ := φ.dirty = ∅

/-- At the end every deadline is in place, and an error means that nothing was written. -/
def Settled (φ : Phase) (reply : Bytes) :
    Prop := φ.dirty = ∅ ∧ (isError reply = true → φ.wrote = false)

def Disciplined (fp : Footprint) (p : Command F Bytes) : Prop :=
  Program.Follows (discipline fp) Settled Phase.start p

/-! ## Lapsed keys are as good as absent -/

/-- Two states of the databases that a strict command cannot tell apart. -/
structure Alike (fp : Footprint) (φ : Phase) (x y : Exec F) : Prop where
  nowMs : x.slice.nowMs = y.slice.nowMs
  conn : x.conn = y.conn
  live : ∀ a ∈ fp.reads, a ∉ φ.dirty →
    (x.slice.cell a).live x.slice.nowMs = (y.slice.cell a).live x.slice.nowMs
  checked : ∀ a ∈ φ.checked, x.slice.cell a = y.slice.cell a
  dirty : ∀ a ∈ φ.dirty, (x.slice.cell a).1 = (y.slice.cell a).1 ∧ (x.slice.cell a).1.isSome

namespace Alike

variable {fp : Footprint} {φ φ' : Phase} {x y : Exec F}

variable {a : Addr} {ω ω' : Listing Bytes} {o : (dbOps F).Op} {i : DbIndex}

/-- Change one cell on both sides. -/
theorem update (h : Alike fp φ x y) {x' y' : DbSlice F} {conn : ConnContext} {c c' : Cell F}
    (hx : x'.cell = update x.slice.cell a c ∧ x'.nowMs = x.slice.nowMs)
    (hy : y'.cell = update y.slice.cell a c' ∧ y'.nowMs = y.slice.nowMs)
    (hchecked : ∀ b ∈ φ'.checked, b ≠ a → b ∈ φ.checked)
    (hdirty : ∀ b ≠ a, b ∈ φ'.dirty ↔ b ∈ φ.dirty) (hc : a ∈ φ'.checked → c = c')
    (hl : a ∈ fp.reads → a ∉ φ'.dirty → c.live x.slice.nowMs = c'.live x.slice.nowMs)
    (hd : a ∈ φ'.dirty → c.1 = c'.1 ∧ c.1.isSome) : Alike fp φ' ⟨x', conn⟩ ⟨y', conn⟩ := by
  refine ⟨hx.2.trans (h.nowMs.trans hy.2.symm), rfl, fun b hb hb' => ?_, fun b hb => ?_,
    fun b hb => ?_⟩
  · dsimp only
    rw [hx.1, hx.2, hy.1]
    by_cases e : b = a
    · subst e
      rw [update_self, update_self]
      exact hl hb hb'
    · rw [update_of_ne e, update_of_ne e]
      exact h.live b hb fun hn => hb' ((hdirty b e).mpr hn)
  · dsimp only
    rw [hx.1, hy.1]
    by_cases e : b = a
    · subst e
      rw [update_self, update_self]
      exact hc hb
    · rw [update_of_ne e, update_of_ne e]
      exact h.checked b (hchecked b hb e)
  · dsimp only
    rw [hx.1, hy.1]
    by_cases e : b = a
    · subst e
      rw [update_self, update_self]
      exact hd hb
    · rw [update_of_ne e, update_of_ne e]
      exact h.dirty b ((hdirty b e).mp hb)

/-- Give one cell the same new contents on both sides. -/
theorem update_same (h : Alike fp φ x y) {x' y' : DbSlice F} {conn : ConnContext} {c : Cell F}
    (hx : x'.cell = Function.update x.slice.cell a c ∧ x'.nowMs = x.slice.nowMs)
    (hy : y'.cell = Function.update y.slice.cell a c ∧ y'.nowMs = y.slice.nowMs)
    (hchecked : ∀ b ∈ φ'.checked, b ≠ a → b ∈ φ.checked)
    (hdirty : ∀ b ≠ a, b ∈ φ'.dirty ↔ b ∈ φ.dirty) (hd : a ∈ φ'.dirty → c.1.isSome) :
    Alike fp φ' ⟨x', conn⟩ ⟨y', conn⟩ :=
  h.update hx hy hchecked hdirty (fun _ => rfl) (fun _ _ => rfl) fun ha => ⟨rfl, hd ha⟩

theorem live_eq (h : Alike fp φ x y) (ha : a ∈ fp.reads) (hd : a ∉ φ.dirty) :
    (y.slice.cell a).live y.slice.nowMs = (x.slice.cell a).live x.slice.nowMs := by
  rw [← h.nowMs]
  exact (h.live a ha hd).symm

/-- An operation whose answer and effect on its cell come out the same on both sides. -/
theorem step_same (h : Alike fp φ x y) (htarget : DbOp.target o = some a)
    (hanswer : DbOp.answer y.slice.nowMs o (y.slice.cell a) =
      DbOp.answer x.slice.nowMs o (x.slice.cell a) ∨ Discipline.hidden φ o)
    (hcell : DbOp.onCell y.slice.nowMs o (y.slice.cell a) =
      DbOp.onCell x.slice.nowMs o (x.slice.cell a))
    (hchecked : ∀ b ∈ φ'.checked, b ≠ a → b ∈ φ.checked)
    (hdirty : ∀ b ≠ a, b ∈ φ'.dirty ↔ b ∈ φ.dirty)
    (hd : a ∈ φ'.dirty → (DbOp.onCell x.slice.nowMs o (x.slice.cell a)).1.isSome) :
    Alike fp φ' (step ω o x).2 (step ω' o y).2 ∧
      ((step ω o x).1 = (step ω' o y).1 ∨ Discipline.hidden φ o) := by
  obtain ⟨hrx, hcx, hnx⟩ := DbOp.apply_target htarget ω x.slice
  obtain ⟨hry, hcy, hny⟩ := DbOp.apply_target htarget ω' y.slice
  rw [hcell] at hcy
  refine ⟨?_, ?_⟩
  · rw [step, step, h.conn]
    exact h.update_same ⟨hcx, hnx⟩ ⟨hcy, hny⟩ hchecked hdirty hd
  · refine hanswer.imp_left fun heq => ?_
    exact hrx.trans (heq.symm.trans hry.symm)

/-- Operations on a cell that is the same on both sides, which leave the phase's
dirty cells as they are. -/
theorem step_checked (h : Alike fp φ x y) (htarget : DbOp.target o = some a) (ha : a ∈ φ.checked)
    (hchecked : ∀ b ∈ φ'.checked, b ≠ a → b ∈ φ.checked)
    (hdirty : ∀ b ≠ a, b ∈ φ'.dirty ↔ b ∈ φ.dirty)
    (hd : a ∈ φ'.dirty → (DbOp.onCell x.slice.nowMs o (x.slice.cell a)).1.isSome) :
    Alike fp φ' (step ω o x).2 (step ω' o y).2 ∧
      ((step ω o x).1 = (step ω' o y).1 ∨ Discipline.hidden φ o) :=
  h.step_same htarget (.inl (by rw [h.nowMs, h.checked a ha])) (by rw [h.nowMs, h.checked a ha])
    hchecked hdirty hd

theorem step_lookup (h : Alike fp φ x y) (htarget : DbOp.target o = some a) (ha : a ∈ fp.reads)
    (hd : a ∉ φ.dirty)
    (hlive : ∀ now c, DbOp.answer now o c = DbOp.answer now o (Cell.live now c) ∧
      DbOp.onCell now o c = DbOp.onCell now o (Cell.live now c))
    (hchecked : ∀ b ∈ φ'.checked, b ≠ a → b ∈ φ.checked) (hdirty : φ'.dirty = φ.dirty) :
    Alike fp φ' (step ω o x).2 (step ω' o y).2 ∧
      ((step ω o x).1 = (step ω' o y).1 ∨ Discipline.hidden φ o) := by
  refine h.step_same htarget (.inl ?_) ?_ hchecked (fun b _ => by rw [hdirty])
    fun ha' => absurd (hdirty ▸ ha') hd
  · rw [(hlive _ _).1, h.live_eq ha hd, ← h.nowMs, ← (hlive _ _).1]
  · rw [(hlive _ _).2, h.live_eq ha hd, ← h.nowMs, ← (hlive _ _).2]

theorem step_ttlMs (h : Alike fp φ x y) (ω ω' : Listing Bytes) {k : Bytes} (ha : (i, k) ∈ fp.reads)
    (hd : (i, k) ∉ φ.dirty) :
    Alike fp φ (step ω (.ttlMs i k) x).2 (step ω' (.ttlMs i k) y).2 ∧
      (step ω (.ttlMs i k) x).1 = (step ω' (.ttlMs i k) y).1 := by
  obtain ⟨hrx, hcx, hnx⟩ := x.slice.ttlMs_spec i k
  obtain ⟨hry, hcy, hny⟩ := y.slice.ttlMs_spec i k
  -- the cells are purged only where the key is present, so they agree up to purging
  have hlive : ∀ now (c : Cell F),
      Cell.live now (DbOp.onCell now (.ttlMs i k : DbOp F) c) = Cell.live now c := by
    intro now c
    rw [DbOp.onCell]
    split
    · exact Cell.live_live now c
    · rfl
  refine ⟨?_, ?_⟩
  · change Alike fp φ ⟨(x.slice.ttlMs i k).2, x.conn⟩ ⟨(y.slice.ttlMs i k).2, y.conn⟩
    rw [h.conn]
    refine h.update ⟨hcx, hnx⟩ ⟨hcy, hny⟩ (fun _ hb _ => hb) (fun _ _ => Iff.rfl) (fun hc => ?_)
      (fun _ _ => ?_) fun ha' => absurd ha' hd
    · rw [h.nowMs, h.checked _ hc]
    · rw [hlive, ← h.nowMs, hlive]
      exact h.live _ ha hd
  · refine hrx.trans (Eq.trans ?_ hry.symm)
    rw [h.live_eq ha hd, h.nowMs]

theorem step_rename (h : Alike fp φ x y) (ω ω' : Listing Bytes) {a b : Bytes}
    (ha : (i, a) ∈ φ.checked) (hda : (i, a) ∉ φ.dirty) (hdb : (i, b) ∉ φ.dirty) (r : Bool) :
    Alike fp { φ with wrote := φ.wrote || r } (step ω (.rename i a b) x).2
        (step ω' (.rename i a b) y).2 ∧
      (step ω (.rename i a b) x).1 = (step ω' (.rename i a b) y).1 := by
  have hcell := h.checked _ ha
  change Alike fp _ ⟨(x.slice.rename i a b).2, x.conn⟩ ⟨(y.slice.rename i a b).2, y.conn⟩ ∧ _
  rw [h.conn]
  cases hv : (x.slice.cell (i, a)).1 with
  | none =>
    obtain ⟨hrx, hcx, hnx⟩ := x.slice.rename_none i b hv
    obtain ⟨hry, hcy, hny⟩ := y.slice.rename_none i b (hcell ▸ hv)
    refine ⟨?_, hrx.trans hry.symm⟩
    exact h.update_same ⟨hcx, hnx⟩ ⟨hcy, hny⟩ (fun _ hb _ => hb) (fun _ _ => Iff.rfl)
      fun ha' => absurd ha' hda
  | some v =>
    obtain ⟨hrx, hcx, hnx⟩ := x.slice.rename_some i b hv
    obtain ⟨hry, hcy, hny⟩ := y.slice.rename_some i b (hcell ▸ hv)
    refine ⟨?_, hrx.trans hry.symm⟩
    rw [← hcell] at hcy
    -- the source cell is emptied first, then the destination cell is filled
    have hmid : Alike fp { φ with wrote := φ.wrote || r }
        ⟨(x.slice.del i a).2, y.conn⟩ ⟨(y.slice.del i a).2, y.conn⟩ :=
      h.update_same (DbOp.apply_target (o := .del i a) rfl ω x.slice).2
        (DbOp.apply_target (o := .del i a) rfl ω' y.slice).2 (fun _ hb _ => hb)
        (fun _ _ => Iff.rfl) fun ha' => absurd ha' hda
    have hx : (x.slice.del i a).2.cell = Function.update x.slice.cell (i, a) Cell.empty :=
      (DbOp.apply_target (o := .del i a) rfl ω x.slice).2.1
    have hy : (y.slice.del i a).2.cell = Function.update y.slice.cell (i, a) Cell.empty :=
      (DbOp.apply_target (o := .del i a) rfl ω' y.slice).2.1
    rw [← hx] at hcx
    rw [← hy] at hcy
    exact hmid.update_same ⟨hcx, hnx⟩ ⟨hcy, hny⟩ (fun _ hb _ => hb) (fun _ _ => Iff.rfl)
      fun ha' => absurd ha' hdb

theorem step_flushDb (h : Alike fp φ x y) (hd : ∀ k, (i, k) ∉ φ.dirty) :
    Alike fp { φ with wrote := true } (step ω (.flushDb i) x).2 (step ω' (.flushDb i) y).2 := by
  have hcell : ∀ a : Addr, (x.slice.flushDb i).cell a =
      (if a.1 = i then Cell.empty else x.slice.cell a) ∧
      (y.slice.flushDb i).cell a = (if a.1 = i then Cell.empty else y.slice.cell a) :=
    fun a => ⟨x.slice.cell_flushDb i a, y.slice.cell_flushDb i a⟩
  refine ⟨h.nowMs, h.conn, fun a ha ha' => ?_, fun a ha => ?_, fun a ha => ?_⟩
  · change ((x.slice.flushDb i).cell a).live _ = ((y.slice.flushDb i).cell a).live _
    rw [(hcell a).1, (hcell a).2]
    split
    · rfl
    · exact h.live a ha ha'
  · change (x.slice.flushDb i).cell a = (y.slice.flushDb i).cell a
    rw [(hcell a).1, (hcell a).2, h.checked a ha]
  · have hne : a.1 ≠ i := fun e => hd a.2 (e ▸ ha)
    change ((x.slice.flushDb i).cell a).1 = ((y.slice.flushDb i).cell a).1 ∧
      ((x.slice.flushDb i).cell a).1.isSome
    rw [(hcell a).1, (hcell a).2, if_neg hne, if_neg hne]
    exact h.dirty a ha

/-- One operation of a strict command keeps two states alike, and answers alike
unless the command ignores the answer. -/
theorem step (h : Alike fp φ x y) (ω ω' : Listing Bytes) (hs : fp.strict)
    (ho : Discipline.allowed fp φ o) :
    Alike fp (Discipline.next φ o (ShrikeDb.step ω o x).1) (ShrikeDb.step ω o x).2
        (ShrikeDb.step ω' o y).2 ∧
      ((ShrikeDb.step ω o x).1 = (ShrikeDb.step ω' o y).1 ∨ Discipline.hidden φ o) := by
  have hins : ∀ {a b : Addr}, b ∈ insert a φ.checked → b ≠ a → b ∈ φ.checked :=
    fun hb hne => hb.resolve_left hne
  have hlive : ∀ now (c : Cell F), Cell.live now c = Cell.live now (Cell.live now c) :=
    fun now c => (Cell.live_live now c).symm
  have hdiff : ∀ a, ∀ b ≠ a, b ∈ φ.dirty \ {a} ↔ b ∈ φ.dirty := by
    intro a b hne
    simp [hne]
  cases o with
  | nowMs => exact ⟨h, .inl h.nowMs⟩
  | select i => exact ⟨⟨h.nowMs, rfl, h.live, h.checked, h.dirty⟩, .inl rfl⟩
  | dbSize i => exact absurd hs ho
  | scan i cursor count pattern => exact absurd hs ho
  | keys i pattern => exact absurd hs ho
  | randomEntry i => exact absurd hs ho
  | find i k =>
    refine h.step_lookup rfl ho.1 ho.2 (fun now c => ?_) (fun b hb hne => hins hb hne) rfl
    exact ⟨congrArg DbOp.found (hlive now c), hlive now c⟩
  | findMut i k =>
    refine h.step_lookup rfl ho.1 ho.2 (fun now c => ?_) (fun b hb hne => hins hb hne) rfl
    exact ⟨congrArg DbOp.found (hlive now c), hlive now c⟩
  | addIfAbsent i k v =>
    refine h.step_lookup rfl ho.1 ho.2.2 (fun now c => ?_) (fun b hb hne => hins hb hne) rfl
    exact ⟨congrArg (fun c : Cell F => c.1.isNone) (hlive now c),
      congrArg (fun c : Cell F => if c.1.isSome then c else (some v, c.2)) (hlive now c)⟩
  | ttlMs i k =>
    obtain ⟨h', hr⟩ := h.step_ttlMs ω ω' ho.1 ho.2
    exact ⟨h', .inl hr⟩
  | store i k v =>
    refine h.step_checked rfl ho.2 (fun b hb _ => hb) (fun b _ => Iff.rfl) fun hd => ?_
    rw [DbOp.onCell, if_pos (h.dirty _ hd).2]
    rfl
  | del i k =>
    exact h.step_checked rfl (ho.2.2 hs) (fun b hb _ => hb) (fun b _ => Iff.rfl)
      fun hd => absurd hd ho.2.1
  | addOrUpdate i k v =>
    have hdirty : ∀ b ≠ (i, k), b ∈ φ.dirty ∪ ({(i, k)} \ φ.checked) ↔ b ∈ φ.dirty := by
      intro b hne
      simp [hne]
    by_cases hc : (i, k) ∈ φ.checked
    · exact h.step_checked rfl hc (fun b hb _ => hb) hdirty fun _ => rfl
    · obtain ⟨_, hcx, hnx⟩ := DbOp.apply_target (o := .addOrUpdate i k v) rfl ω x.slice
      obtain ⟨_, hcy, hny⟩ := DbOp.apply_target (o := .addOrUpdate i k v) rfl ω' y.slice
      refine ⟨?_, .inr hc⟩
      change Alike fp _ ⟨_, x.conn⟩ ⟨_, y.conn⟩
      rw [h.conn]
      refine h.update ⟨hcx, hnx⟩ ⟨hcy, hny⟩ (fun b hb _ => hb) hdirty (fun hc' => absurd hc' hc)
        (fun _ hd => ?_) fun _ => ⟨rfl, rfl⟩
      exact absurd (show (i, k) ∈ φ.dirty ∪ ({(i, k)} \ φ.checked) from .inr ⟨rfl, hc⟩) hd
  | addExpire i k d =>
    by_cases hc : (i, k) ∈ φ.checked
    · exact h.step_checked rfl hc (fun b hb hne => hins hb hne) (hdiff _) fun hd => absurd rfl hd.2
    · obtain ⟨hv, hsome⟩ := h.dirty _ (ho.2.resolve_left hc)
      refine h.step_same rfl (.inl rfl) ?_ (fun b hb hne => hins hb hne) (hdiff _)
        fun hd => absurd rfl hd.2
      rw [DbOp.onCell, DbOp.onCell, ← hv, if_pos hsome, if_pos hsome]
  | removeExpire i k =>
    by_cases hc : (i, k) ∈ φ.checked
    · exact h.step_checked rfl hc (fun b hb hne => hins hb hne) (hdiff _) fun hd => absurd rfl hd.2
    · obtain ⟨hv, hsome⟩ := h.dirty _ (ho.2.resolve_left hc)
      refine h.step_same rfl (.inr hc) ?_ (fun b hb hne => hins hb hne) (hdiff _)
        fun hd => absurd rfl hd.2
      rw [DbOp.onCell, DbOp.onCell, ← hv]
  | rename i a b =>
    obtain ⟨_, _, _, hda, hdb, hc⟩ := ho
    obtain ⟨h', hr⟩ := h.step_rename ω ω' (hc hs).1 hda hdb _
    exact ⟨h', .inl hr⟩
  | flushDb i => exact ⟨h.step_flushDb fun k => (ho k).2, .inl rfl⟩

end Alike

variable {fp : Footprint} {p : Command F Bytes} {φ : Phase}

/-- A strict command gives the same reply in two states that are alike where it looks,
and leaves them alike. -/
theorem Disciplined.run_alike (hs : fp.strict) (h : Disciplined fp p) {x y : Exec F}
    (hxy : Alike fp Phase.start x y) (ω ω' : Listing Bytes) :
    (Program.run (step ω) p x).1 = (Program.run (step ω') p y).1 ∧
      Alike fp Phase.start (Program.run (step ω) p x).2 (Program.run (step ω') p y).2 := by
  obtain ⟨heq, φ, hR, hpanic, hpost⟩ := Program.Follows.run_related (R := Alike fp)
    (fun φ o x y ho hxy => hxy.step ω ω' hs ho) h hxy
  have hdirty : φ.dirty = ∅ := by
    cases hr : (Program.run (step ω) p x).1 with
    | none => exact hpanic hr
    | some a => exact (hpost a hr).1
  refine ⟨heq, hR.nowMs, hR.conn, fun b hb _ => hR.live b hb ?_, (fun b hb => nomatch hb),
    fun b hb => nomatch hb⟩
  rw [hdirty]
  exact Set.notMem_empty b

/-! ## What a command can do to the cells -/

/-- Emptied because it lapsed or held no key, or untouched. -/
def Cell.Spared (now : UInt64) (c c' : Cell F) : Prop :=
  c' = c ∨ (c' = Cell.empty ∧ (c.lapsed now = true ∨ c.1 = none))

theorem Cell.Spared.trans {now : UInt64} {c c' c'' : Cell F} (h : Cell.Spared now c c')
    (h' : Cell.Spared now c' c'') : Cell.Spared now c c'' := by
  rcases h with rfl | ⟨rfl, hc⟩
  · exact h'
  · rcases h' with rfl | ⟨rfl, _⟩
    · exact .inr ⟨rfl, hc⟩
    · exact .inr ⟨rfl, hc⟩

/-- What one operation can do to a cell: nothing, purge it, or, inside the footprint,
change it; a key appears only where keys may be added, and only if that counts as a
write. -/
structure Touches (fp : Footprint) (wrote : Bool) (now : UInt64) (a : Addr) (c c' : Cell F) :
    Prop where
  frame : a ∉ fp.reads → c'.live now = c.live now
  adds : c' ≠ Cell.empty → c ≠ Cell.empty ∨ a ∈ fp.adds
  spared : wrote = false → Cell.Spared now c c'

namespace Touches

variable {fp : Footprint} {wrote wrote' : Bool} {now : UInt64} {a : Addr} {c c' c'' : Cell F}

theorem refl : Touches fp wrote now a c c := ⟨fun _ => rfl, fun h => .inl h, fun _ => .inl rfl⟩

theorem trans (h : Touches fp wrote now a c c') (h' : Touches fp wrote' now a c' c'') :
    Touches fp (wrote || wrote') now a c c'' := by
  refine ⟨fun ha => (h'.frame ha).trans (h.frame ha), fun hne => ?_, fun hw => ?_⟩
  · rcases h'.adds hne with hne' | ha
    · exact h.adds hne'
    · exact .inr ha
  · obtain ⟨hw, hw'⟩ := Bool.or_eq_false_iff.mp hw
    exact (h.spared hw).trans (h'.spared hw')

theorem of_purge (h : c' = c ∨ (c.lapsed now = true ∧ c' = Cell.empty)) :
    Touches fp wrote now a c c' := by
  rcases h with rfl | ⟨hl, rfl⟩
  · exact refl
  · refine ⟨fun _ => ?_, fun hne => absurd rfl hne, fun _ => .inr ⟨rfl, .inl hl⟩⟩
    rw [Cell.live_empty, Cell.live_of_lapsed hl]

theorem live : Touches fp wrote now a c (c.live now) := by
  rcases c.live_cases now with ⟨hl, he⟩ | ⟨_, he⟩
  · exact of_purge (.inr ⟨hl, he⟩)
  · exact of_purge (.inl he)

/-- A change of a cell inside the footprint that counts as a write. -/
theorem of_write (ha : a ∈ fp.reads) (h : c' ≠ Cell.empty → c ≠ Cell.empty ∨ a ∈ fp.adds) :
    Touches fp true now a c c' :=
  ⟨fun hn => absurd ha hn, h, fun hw => nomatch hw⟩

/-- Emptying a cell of the footprint is a write if there was a value. -/
theorem of_clear (ha : a ∈ fp.reads) (hw : wrote = false → c.1 = none) :
    Touches fp wrote now a c Cell.empty :=
  ⟨fun hn => absurd ha hn, fun hne => absurd rfl hne, fun h => .inr ⟨rfl, .inr (hw h)⟩⟩

theorem ne_empty_of_isSome (h : c.1.isSome) : c ≠ Cell.empty := by
  rintro rfl
  cases h

/-- What an operation on one cell does to it. -/
theorem onCell {φ : Phase} {o : DbOp F} (htarget : o.target = some a)
    (ho : Discipline.allowed fp φ o) :
    Touches fp (Discipline.next φ o (o.answer now c)).wrote now a c (o.onCell now c) := by
  cases o with
  | find i k => cases htarget; exact live
  | findMut i k => cases htarget; exact live
  | store i k v =>
    cases htarget
    refine of_write ho.1 fun hne => ?_
    rw [DbOp.onCell] at hne
    split at hne
    · rename_i hsome
      exact .inl (ne_empty_of_isSome hsome)
    · exact .inl hne
  | addOrUpdate i k v => cases htarget; exact of_write ho.1 fun _ => .inr ho.2
  | addIfAbsent i k v =>
    cases htarget
    rw [DbOp.onCell]
    cases hv : (c.live now).1 with
    | some w => exact live
    | none =>
      have hw : (Discipline.next φ (.addIfAbsent i k v)
          (DbOp.answer now (.addIfAbsent i k v) c)).wrote = true := by
        change (φ.wrote || (c.live now).1.isNone) = true
        rw [hv, Option.isNone_none, Bool.or_true]
      rw [hw]
      exact of_write ho.1 fun _ => .inr ho.2.1
  | del i k =>
    cases htarget
    refine of_clear ho.1 fun hw => ?_
    have hnone : c.1.isSome = false := (Bool.or_eq_false_iff.mp hw).2
    exact Option.not_isSome_iff_eq_none.mp (Bool.eq_false_iff.mp hnone)
  | addExpire i k d =>
    cases htarget
    refine of_write ho.1 fun hne => ?_
    rw [DbOp.onCell] at hne
    split at hne
    · rename_i hsome
      exact .inl (ne_empty_of_isSome hsome)
    · exact .inl hne
  | removeExpire i k =>
    cases htarget
    refine of_write ho.1 fun hne => .inl ?_
    rintro rfl
    exact hne rfl
  | ttlMs i k =>
    cases htarget
    rw [DbOp.onCell]
    split
    · exact live
    · exact refl
  | _ => cases htarget

end Touches

/-- What one allowed operation does to every cell. -/
theorem Discipline.step_touches {o : (dbOps F).Op} (ho : Discipline.allowed fp φ o)
    (ω : Listing Bytes) (x : Exec F) :
    (step ω o x).2.slice.nowMs = x.slice.nowMs ∧
      ∀ a, Touches fp (Discipline.next φ o (step ω o x).1).wrote x.slice.nowMs a (x.slice.cell a)
        ((step ω o x).2.slice.cell a) := by
  have hsingle : ∀ {a}, DbOp.target o = some a → (step ω o x).2.slice.nowMs = x.slice.nowMs ∧
      ∀ b, Touches fp (Discipline.next φ o (step ω o x).1).wrote x.slice.nowMs b (x.slice.cell b)
        ((step ω o x).2.slice.cell b) := by
    intro a htarget
    obtain ⟨hr, hc, hn⟩ := DbOp.apply_target htarget ω x.slice
    refine ⟨hn, fun b => ?_⟩
    rw [step]
    dsimp only
    rw [hr, hc]
    by_cases e : b = a
    · subst e
      rw [update_self]
      exact Touches.onCell htarget ho
    · rw [update_of_ne e]
      exact Touches.refl
  cases o with
  | nowMs => exact ⟨rfl, fun _ => Touches.refl⟩
  | select i => exact ⟨rfl, fun _ => Touches.refl⟩
  | dbSize i => exact ⟨rfl, fun _ => Touches.refl⟩
  | scan i cursor count pattern => exact ⟨rfl, fun _ => Touches.refl⟩
  | randomEntry i => exact ⟨rfl, fun _ => Touches.refl⟩
  | keys i pattern =>
    have hp := x.slice.purges_keys i ω pattern
    exact ⟨hp.nowMs, fun a => Touches.of_purge (hp.cell a)⟩
  | flushDb i =>
    refine ⟨rfl, fun ⟨j, k⟩ => ?_⟩
    change Touches fp true _ (j, k) _ ((x.slice.flushDb i).cell (j, k))
    rw [x.slice.cell_flushDb i (j, k)]
    split
    · rename_i e
      cases e
      exact Touches.of_clear (ho k).1 fun hw => nomatch hw
    · exact Touches.refl
  | rename i a b =>
    obtain ⟨ha, hb, hadd, -⟩ := ho
    cases hv : (x.slice.cell (i, a)).1 with
    | none =>
      obtain ⟨-, hc, hn⟩ := x.slice.rename_none i b hv
      refine ⟨hn, fun e => ?_⟩
      change Touches fp _ _ e _ ((x.slice.rename i a b).2.cell e)
      rw [hc]
      by_cases he : e = (i, a)
      · subst he
        rw [update_self]
        exact Touches.of_clear ha fun _ => hv
      · rw [update_of_ne he]
        exact Touches.refl
    | some v =>
      obtain ⟨hr, hc, hn⟩ := x.slice.rename_some i b hv
      refine ⟨hn, fun e => ?_⟩
      have hw : (Discipline.next φ (.rename i a b : DbOp F) (step ω (.rename i a b) x).1).wrote =
          true := by
        change (φ.wrote || (x.slice.rename i a b).1) = true
        rw [hr, Bool.or_true]
      rw [hw]
      change Touches fp _ _ e _ ((x.slice.rename i a b).2.cell e)
      rw [hc]
      by_cases hb' : e = (i, b)
      · subst hb'
        rw [update_self]
        exact Touches.of_write hb fun _ => .inr hadd
      · rw [update_of_ne hb']
        by_cases he : e = (i, a)
        · subst he
          rw [update_self]
          exact Touches.of_clear ha fun hw => nomatch hw
        · rw [update_of_ne he]
          exact Touches.refl
  | _ => exact hsingle rfl

theorem Discipline.wrote_next {o : DbOp F} {r : o.Result}
    (h : (Discipline.next φ o r).wrote = false) : φ.wrote = false := by
  cases o <;> first | exact h | exact (Bool.or_eq_false_iff.mp h).1 | exact nomatch h

/-- What a disciplined command does to every cell: it changes cells of its footprint
only, adds keys only where it may, and with an error reply spares every key that is
there and has not lapsed. -/
theorem Disciplined.touches (h : Disciplined fp p) (ω : Listing Bytes) (x : Exec F) :
    (Program.run (step ω) p x).2.slice.nowMs = x.slice.nowMs ∧
      ∃ wrote, (∀ reply, (Program.run (step ω) p x).1 = some reply → isError reply = true →
          wrote = false) ∧
        ∀ a, Touches fp wrote x.slice.nowMs a (x.slice.cell a)
          ((Program.run (step ω) p x).2.slice.cell a) := by
  let I (φ : Phase) (y : Exec F) : Prop := y.slice.nowMs = x.slice.nowMs ∧
    ∀ a, Touches fp φ.wrote x.slice.nowMs a (x.slice.cell a) (y.slice.cell a)
  have hkeep : ∀ φ (o : (dbOps F).Op) y, Discipline.allowed fp φ o → I φ y →
      I (Discipline.next φ o (step ω o y).1) (step ω o y).2 := by
    rintro φ o y ho ⟨hn, hI⟩
    obtain ⟨hn', hstep⟩ := Discipline.step_touches ho ω y
    refine ⟨hn'.trans hn, fun a => ?_⟩
    have ht := (hI a).trans (hn ▸ hstep a)
    refine ⟨ht.frame, ht.adds, fun hw => ht.spared ?_⟩
    exact Bool.or_eq_false_iff.mpr ⟨Discipline.wrote_next hw, hw⟩
  obtain ⟨φ, ⟨hn, hI⟩, -, hpost⟩ := Program.Follows.run_invariant hkeep h
    ⟨rfl, fun a => Touches.refl⟩
  exact ⟨hn, φ.wrote, fun reply hr herr => (hpost reply hr).2 herr, hI⟩

/-- As before, or lapsed and gone. -/
def Cell.Lapses (now : UInt64) (c c' : Cell F) :
    Prop := c' = c ∨ (c.lapsed now = true ∧ c' = Cell.empty)

namespace Cell.Lapses

variable {now : UInt64} {c c' : Cell F}

theorem refl : Cell.Lapses now c c := .inl rfl

/-- Without a deadline nothing lapses. -/
theorem eq (h : Cell.Lapses now c c') (hc : c.2 = none) : c' = c := by
  refine h.resolve_right fun hl => ?_
  rw [Cell.lapsed, hc] at hl
  cases hl.1

end Cell.Lapses

theorem Discipline.target_mem {o : DbOp F} {a : Addr} (htarget : o.target = some a)
    (ho : Discipline.allowed fp φ o) : a ∈ fp.reads := by
  cases o <;> cases htarget <;> exact ho.1

/-! ## States with the same cells -/

/-- The same clock and connection, and the same cells in a set. -/
structure Agree (A : Set Addr) (x y : Exec F) : Prop where
  nowMs : x.slice.nowMs = y.slice.nowMs
  conn : x.conn = y.conn
  cell : ∀ a ∈ A, x.slice.cell a = y.slice.cell a

namespace Agree

variable {A : Set Addr} {x y : Exec F}

/-- One cell gets the same new contents on both sides. -/
theorem update (h : Agree A x y) {x' y' : DbSlice F} {a : Addr} {c : Cell F}
    (hx : x'.cell = update x.slice.cell a c ∧ x'.nowMs = x.slice.nowMs)
    (hy : y'.cell = update y.slice.cell a c ∧ y'.nowMs = y.slice.nowMs) :
    Agree A ⟨x', x.conn⟩ ⟨y', y.conn⟩ := by
  refine ⟨hx.2.trans (h.nowMs.trans hy.2.symm), h.conn, fun b hb => ?_⟩
  dsimp only
  rw [hx.1, hy.1]
  simp only [update_apply, h.cell b hb]

theorem step_rename (h : Agree A x y) {ω ω' : Listing Bytes} {i : DbIndex} {a b : Bytes}
    (ha : (i, a) ∈ A) :
    Agree A (step ω (.rename i a b) x).2 (step ω' (.rename i a b) y).2 ∧
      (step ω (.rename i a b) x).1 = (step ω' (.rename i a b) y).1 := by
  have hcell := h.cell _ ha
  change Agree A ⟨(x.slice.rename i a b).2, x.conn⟩ ⟨(y.slice.rename i a b).2, y.conn⟩ ∧ _
  cases hv : (x.slice.cell (i, a)).1 with
  | none =>
    obtain ⟨hrx, hx⟩ := x.slice.rename_none i b hv
    obtain ⟨hry, hy⟩ := y.slice.rename_none i b (hcell ▸ hv)
    exact ⟨h.update hx hy, hrx.trans hry.symm⟩
  | some v =>
    obtain ⟨hrx, hcx, hnx⟩ := x.slice.rename_some i b hv
    obtain ⟨hry, hcy, hny⟩ := y.slice.rename_some i b (hcell ▸ hv)
    refine ⟨⟨hnx.trans (h.nowMs.trans hny.symm), h.conn, fun c hc => ?_⟩, hrx.trans hry.symm⟩
    dsimp only
    rw [hcx, hcy, hcell]
    simp only [update_apply, h.cell c hc]

/-- One operation of a strict command answers alike and keeps the cells of its footprint the
same. -/
theorem step {fp : Footprint} {φ : Phase} (h : Agree fp.reads x y) (ω ω' : Listing Bytes)
    (hs : fp.strict) {o : (dbOps F).Op} (ho : Discipline.allowed fp φ o) :
    Agree fp.reads (ShrikeDb.step ω o x).2 (ShrikeDb.step ω' o y).2 ∧
      (ShrikeDb.step ω o x).1 = (ShrikeDb.step ω' o y).1 := by
  have hsingle : ∀ {a}, DbOp.target o = some a →
      Agree fp.reads ⟨(DbOp.apply ω o x.slice).2, x.conn⟩ ⟨(DbOp.apply ω' o y.slice).2, y.conn⟩ ∧
        (DbOp.apply ω o x.slice).1 = (DbOp.apply ω' o y.slice).1 := by
    intro a htarget
    have hcell := h.cell a (Discipline.target_mem htarget ho)
    obtain ⟨hrx, hx⟩ := DbOp.apply_target htarget ω x.slice
    obtain ⟨hry, hy⟩ := DbOp.apply_target htarget ω' y.slice
    rw [← hcell, ← h.nowMs] at hry hy
    exact ⟨h.update hx ⟨hy.1, hy.2.trans h.nowMs⟩, hrx.trans hry.symm⟩
  cases o with
  | nowMs => exact ⟨h, h.nowMs⟩
  | select i => exact ⟨⟨h.nowMs, rfl, h.cell⟩, rfl⟩
  | dbSize i => exact absurd hs ho
  | scan i cursor count pattern => exact absurd hs ho
  | keys i pattern => exact absurd hs ho
  | randomEntry i => exact absurd hs ho
  | rename i a b => exact h.step_rename ho.1
  | flushDb i =>
    refine ⟨⟨h.nowMs, h.conn, fun a ha => ?_⟩, rfl⟩
    change (x.slice.flushDb i).cell a = (y.slice.flushDb i).cell a
    rw [x.slice.cell_flushDb, y.slice.cell_flushDb, h.cell a ha]
  | _ => exact hsingle rfl

end Agree

/-- A strict command cannot tell states apart that have the same cells where it looks, and leaves
the same cells there. -/
theorem Disciplined.run_agree (hs : fp.strict) (h : Disciplined fp p) {x y : Exec F}
    (hxy : Agree fp.reads x y) (ω ω' : Listing Bytes) :
    (Program.run (step ω) p x).1 = (Program.run (step ω') p y).1 ∧
      Agree fp.reads (Program.run (step ω) p x).2 (Program.run (step ω') p y).2 := by
  obtain ⟨heq, φ, hR, -⟩ := Program.Follows.run_related (R := fun _ : Phase => Agree fp.reads)
    (fun φ o x y ho hxy => (hxy.step ω ω' hs ho).imp_right .inl) h hxy
  exact ⟨heq, hR⟩

end ShrikeDb
