import ShrikeDb.Persistence.RdbStrings
import ShrikeDb.Server.Expiry
import ShrikeDb.Server.SetOptions

/-! The integer encoding of a string is not observable. Two values that differ in it only
become equal when an integer is written out in digits; every handler but that of
`INCRBYFLOAT` goes on in the same way with a value and with the written-out value, so
shards that differ in the encoding of some values answer alike and keep differing in
nothing else. The dump of a value does not tell the encodings apart either. -/

namespace ShrikeDb

open Program Command Function

variable {F α β ι κ : Type}

/-! ## Values -/

namespace PrimeValue

/-- The same value, up to the encoding of one integer. -/
def Twin (v w : PrimeValue F) : Prop :=
  v = w ∨ ∃ n, (v = .integer n ∧ w = .string (i64ToString n)) ∨
    (v = .string (i64ToString n) ∧ w = .integer n)

theorem twin_iff {v w : PrimeValue F} : v.Twin w ↔ v.ensureString = w.ensureString := by
  constructor
  · rintro (rfl | ⟨n, ⟨rfl, rfl⟩ | ⟨rfl, rfl⟩⟩) <;> rfl
  · intro h
    cases v with
    | integer n =>
      cases w with
      | integer m => exact .inl (congrArg _ (i64ToString_injective (string.inj h)))
      | string s => exact .inr ⟨n, .inl ⟨rfl, h.symm⟩⟩
      | _ => cases h
    | string s =>
      cases w with
      | integer m => exact .inr ⟨m, .inr ⟨h, rfl⟩⟩
      | _ => exact .inl h
    | _ => cases w with
      | integer m => cases h
      | _ => exact .inl h

/-! What the handlers read of a value. -/

variable (v : PrimeValue F)

@[simp] theorem ensureString_ensureString :
    v.ensureString.ensureString = v.ensureString := by cases v <;> rfl

@[simp] theorem asBytes_ensureString : v.ensureString.asBytes = v.asBytes := by cases v <;> rfl

@[simp] theorem strlen_ensureString : v.ensureString.strlen = v.strlen := by cases v <;> rfl

@[simp] theorem isString_ensureString : v.ensureString.isString = v.isString := by cases v <;> rfl

@[simp] theorem typeName_ensureString : v.ensureString.typeName = v.typeName := by cases v <;> rfl

@[simp] theorem asInteger_ensureString : v.ensureString.asInteger = v.asInteger := by
  cases v with
  | integer n =>
    rw [ensureString, asInteger, asInteger, fromUtf8_i64ToString, Option.bind_some,
      trim_i64ToString, parseI64_i64ToString]
  | _ => rfl

@[simp] theorem listOf_ensureString : listOf v.ensureString = listOf v := by cases v <;> rfl

@[simp] theorem setOf_ensureString : setOf v.ensureString = setOf v := by cases v <;> rfl

@[simp] theorem hashOf_ensureString : hashOf v.ensureString = hashOf v := by cases v <;> rfl

@[simp] theorem zsetOf_ensureString : zsetOf v.ensureString = zsetOf v := by cases v <;> rfl

end PrimeValue

open PrimeValue

def FindResult.plain (r : FindResult F) : FindResult F := { r with value := r.value.ensureString }

/-- The cell with an integer written out. -/
def Cell.plain (c : Cell F) : Cell F := (c.1.map ensureString, c.2)

namespace Cell

variable (c : Cell F)

@[simp] theorem isSome_plain : c.plain.1.isSome = c.1.isSome := Option.isSome_map

@[simp] theorem isNone_plain : c.plain.1.isNone = c.1.isNone := Option.isNone_map

theorem live_plain (now : UInt64) : c.plain.live now = (c.live now).plain := by
  rcases c.live_cases now with ⟨hl, he⟩ | ⟨hl, he⟩
  · rw [he]
    exact live_of_lapsed (c := c.plain) hl
  · rw [he]
    exact live_of_not_lapsed (c := c.plain) hl

@[simp] theorem plain_plain : c.plain.plain = c.plain := by
  obtain ⟨v, d⟩ := c
  cases v with
  | none => rfl
  | some v => exact congrArg (fun w => (some w, d)) v.ensureString_ensureString

end Cell

/-! ## Operations -/

/-- A result with the integer in it written out. -/
def DbOp.plain : (o : DbOp F) → o.Result → o.Result
  | .find _ _, r => r.map FindResult.plain
  | .findMut _ _, r => r.map FindResult.plain
  | _, r => r

theorem DbOp.found_plain (c : Cell F) :
    DbOp.found c.plain = (DbOp.found c).map FindResult.plain := by
  obtain ⟨v, d⟩ := c
  cases v <;> rfl

/-- The image of the answer, and of the cell left behind, is that of the image of the cell. -/
theorem DbOp.answer_plain (o : DbOp F) (now : UInt64) (c : Cell F) :
    o.plain (o.answer now c.plain) = o.plain (o.answer now c) := by
  have hfound : (DbOp.found (c.plain.live now)).map FindResult.plain =
      (DbOp.found (c.live now)).map FindResult.plain := by
    rw [Cell.live_plain, ← DbOp.found_plain, ← DbOp.found_plain, Cell.plain_plain]
  cases o with
  | find => exact hfound
  | findMut => exact hfound
  | addOrUpdate => exact c.isNone_plain
  | addIfAbsent =>
    change (c.plain.live now).1.isNone = (c.live now).1.isNone
    rw [Cell.live_plain, Cell.isNone_plain]
  | del => exact c.isSome_plain
  | ttlMs =>
    change DbOp.ttlOf now (c.plain.live now) = DbOp.ttlOf now (c.live now)
    rw [Cell.live_plain]
    obtain ⟨v, d⟩ := c.live now
    cases v <;> cases d <;> rfl
  | _ => rfl

theorem DbOp.onCell_plain (o : DbOp F) (now : UInt64) (c : Cell F) :
    (o.onCell now c.plain).plain = (o.onCell now c).plain := by
  have hlive : (c.plain.live now).plain =
      (c.live now).plain := by rw [Cell.live_plain, Cell.plain_plain]
  cases o with
  | find => exact hlive
  | findMut => exact hlive
  | store i key value =>
    simp only [DbOp.onCell, Cell.isSome_plain]
    split
    · rfl
    · exact c.plain_plain
  | addIfAbsent i key value =>
    simp only [DbOp.onCell, Cell.live_plain, Cell.isSome_plain]
    split
    · exact Cell.plain_plain _
    · rfl
  | addExpire i key deadline =>
    simp only [DbOp.onCell, Cell.isSome_plain]
    split
    · exact congrArg (fun d : Cell F => (d.1, some deadline)) c.plain_plain
    · exact c.plain_plain
  | removeExpire i key => exact congrArg (fun d : Cell F => (d.1, none)) c.plain_plain
  | ttlMs i key =>
    simp only [DbOp.onCell, Cell.isSome_plain]
    split
    · exact hlive
    · exact c.plain_plain
  | addOrUpdate => rfl
  | del => rfl
  | _ => exact c.plain_plain

/-! ## Databases -/

/-- The same clock and the same keys and deadlines, with values that are twins. -/
structure DbSlice.Twin (s t : DbSlice F) : Prop where
  nowMs : s.nowMs = t.nowMs
  value : ∀ a, Option.Rel PrimeValue.Twin (s.cell a).1 (t.cell a).1
  deadline : ∀ a, (s.cell a).2 = (t.cell a).2

theorem rel_twin_iff {v w : Option (PrimeValue F)} :
    Option.Rel PrimeValue.Twin v w ↔ v.map ensureString = w.map ensureString := by
  cases v <;> cases w <;> simp [twin_iff]

namespace DbSlice.Twin

variable {s t : DbSlice F}

theorem plain (h : s.Twin t) (a : Addr) : (s.cell a).plain = (t.cell a).plain :=
  Prod.ext (rel_twin_iff.mp (h.value a)) (h.deadline a)

theorem of_plain (hnow : s.nowMs = t.nowMs) (h : ∀ a, (s.cell a).plain = (t.cell a).plain) :
    s.Twin t where
  nowMs := hnow
  value := fun a => rel_twin_iff.mpr (congrArg Prod.fst (h a))
  deadline := fun a => show (s.cell a).plain.2 = (t.cell a).plain.2 from congrArg Prod.snd (h a)

theorem isSome (h : s.Twin t) (a : Addr) : (s.cell a).1.isSome = (t.cell a).1.isSome := by
  rw [← Cell.isSome_plain, h.plain, Cell.isSome_plain]

theorem keys_eq (h : s.Twin t) (i : DbIndex) : (s.dbs i).prime.keys = (t.dbs i).prime.keys := by
  ext k
  rw [mem_prime_keys, mem_prime_keys, h.isSome]

theorem expire_eq (h : s.Twin t) (i : DbIndex) : (s.dbs i).expire = (t.dbs i).expire :=
  Finmap.ext_lookup fun k => h.deadline (i, k)

theorem lapsed_eq (h : s.Twin t) (i : DbIndex) :
    (s.dbs i).lapsed s.nowMs = (t.dbs i).lapsed t.nowMs := by
  funext k
  rw [DbTable.lapsed, DbTable.lapsed, h.expire_eq, h.nowMs]

/-- One cell is written on both sides. -/
theorem update (h : s.Twin t) {s' t' : DbSlice F} {a : Addr} {c d : Cell F}
    (hs : s'.nowMs = s.nowMs) (ht : t'.nowMs = t.nowMs) (hcell : s'.cell = update s.cell a c)
    (hcell' : t'.cell = update t.cell a d) (hcd : c.plain = d.plain) : s'.Twin t' := by
  refine of_plain (by rw [hs, ht, h.nowMs]) fun b => ?_
  rw [hcell, hcell']
  by_cases hb : b = a
  · subst hb
    rw [update_self, update_self, hcd]
  · rw [update_of_ne hb, update_of_ne hb, h.plain]

/-- The same keys are forgotten on both sides. -/
theorem forget (h : s.Twin t) (i : DbIndex) (keys : List Bytes) :
    (s.setDb i (keys.foldl DbTable.forget (s.dbs i))).Twin
      (t.setDb i (keys.foldl DbTable.forget (t.dbs i))) := by
  refine of_plain h.nowMs fun ⟨j, k⟩ => ?_
  by_cases hj : j = i
  · subst hj
    rw [cell_setDb_self, cell_setDb_self, DbTable.cell_foldl_forget, DbTable.cell_foldl_forget]
    split
    · rfl
    · exact h.plain (j, k)
  · rw [cell_setDb_ne s _ hj, cell_setDb_ne t _ hj, h.plain]

theorem rename (h : s.Twin t) (i : DbIndex) (source dest : Bytes) :
    (s.rename i source dest).1 = (t.rename i source dest).1 ∧
      (s.rename i source dest).2.Twin (t.rename i source dest).2 := by
  have hsource := h.plain (i, source)
  have hsome := h.isSome (i, source)
  cases hv : (s.cell (i, source)).1 with
  | none =>
    rw [hv] at hsome
    have hw : (t.cell (i, source)).1 = none := by simpa using hsome
    obtain ⟨hs, hcell, hnow⟩ := s.rename_none i dest hv
    obtain ⟨ht, hcell', hnow'⟩ := t.rename_none i dest hw
    exact ⟨hs.trans ht.symm, h.update hnow hnow' hcell hcell' rfl⟩
  | some v =>
    rw [hv] at hsome
    obtain ⟨w, hw⟩ := Option.isSome_iff_exists.mp hsome.symm
    obtain ⟨hs, hcell, hnow⟩ := s.rename_some i dest hv
    obtain ⟨ht, hcell', hnow'⟩ := t.rename_some i dest hw
    refine ⟨hs.trans ht.symm, of_plain (by rw [hnow, hnow', h.nowMs]) fun a => ?_⟩
    rw [hcell, hcell']
    by_cases hd : a = (i, dest)
    · subst hd
      rw [update_self, update_self, ← hv, ← hw]
      exact hsource
    · rw [update_of_ne hd, update_of_ne hd]
      by_cases hs : a = (i, source)
      · subst hs
        rw [update_self, update_self]
      · rw [update_of_ne hs, update_of_ne hs, h.plain]

/-- Every operation answers twins alike, up to the encoding, and leaves twins. -/
theorem apply (h : s.Twin t) (o : DbOp F) (ω : Listing Bytes) :
    o.plain (o.apply ω s).1 = o.plain (o.apply ω t).1 ∧ (o.apply ω s).2.Twin (o.apply ω t).2 := by
  have hsingle : ∀ {a}, o.target = some a →
      o.plain (o.apply ω s).1 = o.plain (o.apply ω t).1 ∧ (o.apply ω s).2.Twin (o.apply ω t).2 := by
    intro a htarget
    obtain ⟨hres, hcell, hnow⟩ := DbOp.apply_target htarget ω s
    obtain ⟨hres', hcell', hnow'⟩ := DbOp.apply_target htarget ω t
    have hplain := h.plain a
    refine ⟨?_, h.update hnow hnow' hcell hcell' ?_⟩
    · rw [hres, hres', ← DbOp.answer_plain, hplain, DbOp.answer_plain, h.nowMs]
    · rw [← DbOp.onCell_plain, hplain, DbOp.onCell_plain, h.nowMs]
  cases o with
  | nowMs => exact ⟨h.nowMs, h⟩
  | dbSize i => exact ⟨congrArg Finset.card (h.keys_eq i), h⟩
  | scan i cursor count pattern =>
    refine ⟨?_, h⟩
    change s.scan ω i cursor count pattern = t.scan ω i cursor count pattern
    rw [scan, scan, h.keys_eq]
  | randomEntry i =>
    refine ⟨?_, h⟩
    change s.randomEntry ω i = t.randomEntry ω i
    rw [randomEntry, randomEntry, h.keys_eq]
  | select => exact ⟨rfl, h⟩
  | keys i pattern =>
    change (s.keys ω i pattern).1 = (t.keys ω i pattern).1 ∧
      (s.keys ω i pattern).2.Twin (t.keys ω i pattern).2
    rw [keys, keys, h.keys_eq, h.lapsed_eq]
    exact ⟨rfl, h.forget i _⟩
  | rename i source dest => exact h.rename i source dest
  | flushDb i =>
    refine ⟨rfl, of_plain h.nowMs fun a => ?_⟩
    change ((s.flushDb i).cell a).plain = ((t.flushDb i).cell a).plain
    rw [cell_flushDb, cell_flushDb]
    split
    · rfl
    · exact h.plain a
  | _ => exact hsingle rfl

theorem expireSweep (h : s.Twin t) (ω : Listing Bytes) (i : DbIndex) (count : Nat) :
    (s.expireSweep ω i count).2.Twin (t.expireSweep ω i count).2 := by
  rw [DbSlice.expireSweep, DbSlice.expireSweep, h.expire_eq, h.lapsed_eq]
  exact h.forget i _

end DbSlice.Twin

/-! ## Programs -/

/-- The program goes on in the same way when an integer it finds is written out. -/
def Indifferent (p : Command F α) : Prop := Blind (S := dbOps F) DbOp.plain p

theorem stringOf_map {f : PrimeValue F → α} (hf : ∀ v, f v.ensureString = f v) (v : PrimeValue F) :
    (stringOf v.ensureString).map f = (stringOf v).map f := by
  rw [stringOf, stringOf, isString_ensureString]
  split
  · exact congrArg some (hf v)
  · rfl

namespace Indifferent

theorem pure (a : α) : Indifferent (pure a : Command F α) := trivial

theorem panic : Indifferent (.panic : Command F α) := trivial

theorem bind {p : Command F β} {f : β → Command F α} (hp : Indifferent p)
    (hf : ∀ b, Indifferent (f b)) : Indifferent (p >>= f) :=
  Blind.bind hp hf

theorem ofOption_bind {o : Option β} {f : β → Command F α} (h : ∀ b, Indifferent (f b)) :
    Indifferent (ofOption o >>= f) :=
  Blind.ofOption h

theorem perform_bind {o : DbOp F} {f : o.Result → Command F α} (heq : ∀ r, f (o.plain r) = f r)
    (h : ∀ r, Indifferent (f r)) : Indifferent (perform (S := dbOps F) o >>= f) :=
  Blind.perform heq h

theorem invoke (o : DbOp F) : Indifferent (invoke (S := dbOps F) o) := Blind.invoke (S := dbOps F) o

theorem invoke_bind {o : DbOp F} {f : Unit → Command F α} (h : Indifferent (f ())) :
    Indifferent (Program.invoke (S := dbOps F) o >>= f) :=
  (invoke o).bind fun _ => h

theorem forEach {f : ι → Command F β} {items : List ι} (h : ∀ it, Indifferent (f it)) :
    Indifferent (forEach f items) :=
  Blind.forEach h

variable {i : DbIndex} {key : Bytes} {kind : PrimeValue F → Option κ}

theorem find_bind {f : Option (FindResult F) → Command F α}
    (heq : ∀ r, f (some r.plain) = f (some r)) (h : ∀ r, Indifferent (f r)) :
    Indifferent (find i key >>= f) := by
  refine perform_bind (o := .find i key) (fun r => ?_) h
  cases r with
  | none => rfl
  | some r => exact heq r

theorem existsKey_bind {f : Bool → Command F α} (h : ∀ b, Indifferent (f b)) :
    Indifferent (existsKey i key >>= f) :=
  (find_bind (fun _ => rfl) fun r => pure r.isSome).bind h

theorem view {present : κ → Bytes} {absent : Bytes}
    (hkind : ∀ v, (kind v.ensureString).map present = (kind v).map present) :
    Indifferent (view kind i key present absent) := by
  refine find_bind (fun r => ?_) fun r => ?_
  · have hmap := hkind r.value
    dsimp only [FindResult.plain]
    cases hk : kind r.value with
    | none =>
      rw [hk] at hmap
      simp only [Option.map_eq_none_iff.mp hmap]
    | some x =>
      rw [hk] at hmap
      obtain ⟨y, hk', hxy⟩ := Option.map_eq_some_iff.mp hmap
      simp only [hk', hxy]
  · cases r with
    | none => exact pure _
    | some r =>
      dsimp only
      cases kind r.value <;> exact pure _

theorem viewOf (hkind : ∀ v, kind v.ensureString = kind v) {present : κ → Bytes} {absent : Bytes} :
    Indifferent (Command.view kind i key present absent) :=
  view fun v => congrArg (Option.map present) (hkind v)

theorem create {reply : Bytes} {value : PrimeValue F} :
    Indifferent (create i key value reply) :=
  invoke_bind (pure reply)

theorem editValue (e : Edit F) : Indifferent (editValue i key e) := by
  cases e with
  | keep reply => exact pure reply
  | put value empty reply =>
    refine invoke_bind ?_
    cases empty with
    | false => exact pure reply
    | true => exact invoke_bind (pure reply)

theorem tryEdit {present : κ → Except (PrimeValue F) (Edit F)} {absent : Command F Bytes}
    (hkind : ∀ v, (kind v.ensureString).map present = (kind v).map present)
    (habsent : Indifferent absent) : Indifferent (tryEdit kind i key present absent) := by
  refine perform_bind (o := .findMut i key) (fun r => ?_) fun r => ?_
  · cases r with
    | none => rfl
    | some r =>
      have hmap := hkind r.value
      dsimp only [DbOp.plain, Option.map_some, FindResult.plain]
      cases hk : kind r.value with
      | none =>
        rw [hk] at hmap
        simp only [Option.map_eq_none_iff.mp hmap]
      | some x =>
        rw [hk] at hmap
        obtain ⟨y, hk', hxy⟩ := Option.map_eq_some_iff.mp hmap
        simp only [hk', hxy]
  · cases r with
    | none => exact habsent
    | some r =>
      dsimp only
      cases kind r.value with
      | none => exact pure _
      | some x =>
        dsimp only
        cases present x with
        | ok e => exact editValue e
        | error value => exact invoke_bind .panic

/-- Twins give the program the same result and stay twins. -/
theorem run_twin {p : Command F α} (h : Indifferent p) (ω : Listing Bytes) {x y : Exec F}
    (hxy : x.slice.Twin y.slice) (hconn : x.conn = y.conn) :
    (run (step ω) p x).1 = (run (step ω) p y).1 ∧
      (run (step ω) p x).2.slice.Twin (run (step ω) p y).2.slice := by
  have hstep : ∀ (o : DbOp F) (x y : Exec F), x.slice.Twin y.slice ∧ x.conn = y.conn →
      o.plain (step ω o x).1 = o.plain (step ω o y).1 ∧
        (step ω o x).2.slice.Twin (step ω o y).2.slice ∧
        (step ω o x).2.conn = (step ω o y).2.conn := by
    intro o x y hxy
    obtain ⟨hres, htwin⟩ := hxy.1.apply o ω
    exact ⟨hres, htwin, congrArg (DbOp.connAfter · o) hxy.2⟩
  obtain ⟨hres, htwin, -⟩ := Blind.run_related hstep h ⟨hxy, hconn⟩
  exact ⟨hres, htwin⟩

theorem editOf (hkind : ∀ v, kind v.ensureString = kind v)
    {present : κ → Except (PrimeValue F) (Edit F)} {absent : Command F Bytes}
    (habsent : Indifferent absent) : Indifferent (Command.tryEdit kind i key present absent) :=
  tryEdit (fun v => congrArg (Option.map present) (hkind v)) habsent

end Indifferent

/-! ## Handlers -/

variable {ctx : CommandContext}

section Generic

open GenericFamily CommandRegistry

theorem setExpireRelative_indifferent (unit : UInt64) :
    Indifferent (setExpireRelative (F := F) ctx unit) := by
  refine .ofOption_bind fun key => ?_
  split
  · exact .pure _
  · split
    · refine .existsKey_bind fun b => ?_
      split
      · exact .invoke_bind (.pure _)
      · exact .pure _
    · refine .existsKey_bind fun b => ?_
      split
      · exact .pure _
      · exact .perform_bind (fun _ => rfl) fun now => .invoke_bind (.pure _)

theorem setExpireAbsolute_indifferent (unit : UInt64) :
    Indifferent (setExpireAbsolute (F := F) ctx unit) := by
  refine .ofOption_bind fun key => ?_
  split
  · exact .pure _
  · refine .existsKey_bind fun b => ?_
    split
    · exact .pure _
    · refine .perform_bind (fun _ => rfl) fun now => ?_
      split
      · exact .invoke_bind (.pure _)
      · exact .invoke_bind (.pure _)

theorem ttlReply_indifferent (unit : UInt64) : Indifferent (ttlReply (F := F) ctx unit) := by
  refine .ofOption_bind fun key => .perform_bind (fun _ => rfl) fun ttl => ?_
  cases ttl <;> exact .pure _

theorem cmdRenamenx_indifferent : Indifferent (cmdRenamenx (F := F) ctx) := by
  refine .ofOption_bind fun source => .ofOption_bind fun dest => .existsKey_bind fun b => ?_
  split
  · exact .pure _
  · refine .existsKey_bind fun b' => ?_
    split
    · exact .pure _
    · exact .invoke_bind (.pure _)

theorem cmdType_indifferent : Indifferent (cmdType (F := F) ctx) := by
  refine .ofOption_bind fun key => .find_bind (fun r => ?_) fun r => ?_
  · dsimp only [FindResult.plain]
    rw [typeName_ensureString]
  · cases r <;> exact .pure _

theorem genericTable_indifferent {e : CommandEntry F} (he : e ∈ genericTable) :
    Indifferent (e.handler ctx) := by
  have hpure : ∀ b : Bytes, Indifferent (pure b : Command F Bytes) := fun b => .pure b
  simp only [genericTable, List.mem_cons, List.not_mem_nil, or_false] at he
  rcases he with rfl | rfl | rfl | rfl | rfl | rfl | rfl | rfl | rfl | rfl | rfl | rfl | rfl | rfl |
    rfl | rfl | rfl | rfl | rfl | rfl | rfl | rfl | rfl | rfl | rfl | rfl | rfl | rfl
  · dsimp only [cmdPing]
    split
    · exact .ofOption_bind fun _ => hpure _
    · exact hpure _
  · exact .ofOption_bind fun _ => hpure _
  · exact hpure _
  · exact .perform_bind (fun _ => rfl) fun _ => hpure _
  · dsimp only [cmdSelect]
    split
    · exact .invoke_bind (hpure _)
    · exact hpure _
  · exact .perform_bind (fun _ => rfl) fun _ => hpure _
  · exact .invoke_bind (hpure _)
  · exact .bind (.forEach fun _ => .invoke _) fun _ => hpure _
  · exact .ofOption_bind fun _ =>
      .bind (.forEach fun _ => ⟨fun _ => rfl, fun _ => trivial⟩) fun _ => hpure _
  · exact .ofOption_bind fun _ =>
      .bind (.forEach fun _ => ⟨fun _ => rfl, fun _ => trivial⟩) fun _ => hpure _
  · exact .ofOption_bind fun _ =>
      .bind (.forEach fun _ => .find_bind (fun _ => rfl) fun r => .pure r.isSome) fun _ => hpure _
  · exact cmdType_indifferent
  · refine .ofOption_bind fun source => .ofOption_bind fun dest =>
      .perform_bind (fun _ => rfl) fun renamed => ?_
    split <;> exact hpure _
  · exact cmdRenamenx_indifferent
  · exact setExpireRelative_indifferent 1000
  · exact setExpireRelative_indifferent 1
  · exact setExpireAbsolute_indifferent 1000
  · exact setExpireAbsolute_indifferent 1
  · exact ttlReply_indifferent 1000
  · exact ttlReply_indifferent 1
  · refine .ofOption_bind fun key => .existsKey_bind fun b => ?_
    split
    · exact hpure _
    · exact .perform_bind (fun _ => rfl) fun _ => hpure _
  · exact .perform_bind (fun _ => rfl) fun _ => hpure _
  · dsimp only [cmdScan]
    split
    · exact hpure _
    · exact .perform_bind (fun _ => rfl) fun page => .ofOption_bind fun _ => hpure _
  · exact .perform_bind (fun _ => rfl) fun _ => hpure _
  · exact hpure _
  · exact hpure _
  · exact hpure _
  · exact .invoke_bind (hpure _)

end Generic

section Strings

open StringFamily CommandRegistry

theorem oldString_indifferent (i : DbIndex) (key : Bytes) :
    Indifferent (oldString (F := F) i key) := by
  refine .find_bind (fun r => ?_) fun r => ?_
  · dsimp only [FindResult.plain]
    rw [isString_ensureString, asBytes_ensureString]
  · cases r with
    | none => exact .pure _
    | some r =>
      dsimp only
      split <;> exact .pure _

theorem capturedDeadline_indifferent (keep : Bool) (i : DbIndex) (key : Bytes) :
    Indifferent (capturedDeadline (F := F) keep i key) := by
  rw [capturedDeadline]
  split
  · refine .perform_bind (fun _ => rfl) fun ttl => ?_
    cases ttl with
    | expires ms => exact .perform_bind (fun _ => rfl) fun _ => .pure _
    | keyNotFound => exact .pure _
    | noExpiry => exact .pure _
  · exact .pure _

theorem setDeadline_indifferent (i : DbIndex) (key : Bytes) (o : SetOptions) (old : Option UInt64) :
    Indifferent (setDeadline (F := F) i key o old) := by
  unfold setDeadline
  split
  · exact .perform_bind (fun _ => rfl) fun _ => .invoke _
  · exact .invoke _
  · split
    · exact .invoke _
    · exact .pure _

theorem anyExists_indifferent (i : DbIndex) (keys : List Bytes) :
    Indifferent (anyExists (F := F) i keys) := by
  induction keys with
  | nil => exact .pure _
  | cons key rest ih =>
    refine .existsKey_bind fun b => ?_
    split
    · exact .pure _
    · exact ih

theorem setValue_indifferent (i : DbIndex) (key value : Bytes) (o : SetOptions)
    (old : Option Bytes) : Indifferent (setValue (F := F) i key value o old) := by
  refine .existsKey_bind fun present => ?_
  split
  · exact .pure _
  · split
    · exact .pure _
    · refine .bind (capturedDeadline_indifferent _ i key) fun deadline => .invoke_bind ?_
      exact .bind (setDeadline_indifferent i key o deadline) fun _ => .pure _

theorem cmdSet_indifferent : Indifferent (cmdSet (F := F) ctx) := by
  refine .ofOption_bind fun key => .ofOption_bind fun value => ?_
  split
  · exact .pure _
  · split
    · exact .pure _
    · refine .bind ?_ fun old => ?_
      · rw [capturedString]
        split
        · exact oldString_indifferent _ _
        · exact .pure _
      · cases old with
        | error reply => exact .pure _
        | ok old => exact setValue_indifferent _ _ _ _ _

theorem setWithExpiry_indifferent (unit : UInt64) :
    Indifferent (setWithExpiry (F := F) ctx unit) := by
  refine .ofOption_bind fun key => ?_
  split
  · exact .pure _
  · split
    · refine .ofOption_bind fun value => .invoke_bind ?_
      exact .perform_bind (fun _ => rfl) fun _ => .invoke_bind (.pure _)
    · exact .pure _

theorem mgetOne_indifferent (i : DbIndex) (key : Bytes) : Indifferent (mgetOne (F := F) i key) := by
  refine .find_bind (fun r => ?_) fun r => ?_
  · dsimp only [FindResult.plain]
    rw [isString_ensureString, asBytes_ensureString]
  · cases r with
    | none => exact .pure _
    | some r =>
      dsimp only
      split <;> exact .pure _

theorem cmdMset_indifferent : Indifferent (cmdMset (F := F) ctx) := by
  rw [cmdMset]
  split
  · exact .pure _
  · refine .ofOption_bind fun words => .bind (.forEach fun pair => ?_) fun _ => .pure _
    exact .invoke_bind (.invoke _)

theorem cmdMsetnx_indifferent : Indifferent (cmdMsetnx (F := F) ctx) := by
  rw [cmdMsetnx]
  split
  · exact .pure _
  · refine .ofOption_bind fun words => .bind (anyExists_indifferent _ _) fun b => ?_
    split
    · exact .pure _
    · exact .bind (.forEach fun pair => .invoke _) fun _ => .pure _

theorem cmdGetset_indifferent : Indifferent (cmdGetset (F := F) ctx) := by
  refine .ofOption_bind fun key => .ofOption_bind fun value => .bind (oldString_indifferent _ _)
    fun old => ?_
  cases old with
  | error reply => exact .pure _
  | ok old => exact .invoke_bind (.invoke_bind (.pure _))

theorem cmdGetdel_indifferent : Indifferent (cmdGetdel (F := F) ctx) := by
  refine .ofOption_bind fun key => .bind (oldString_indifferent _ _) fun old => ?_
  rcases old with reply | _ | v
  · exact .pure _
  · exact .pure _
  · exact .invoke_bind (.pure _)

theorem cmdGetex_indifferent : Indifferent (cmdGetex (F := F) ctx) := by
  refine .ofOption_bind fun key => .bind (oldString_indifferent _ _) fun old => ?_
  rcases old with reply | _ | v
  · exact .pure _
  · exact .pure _
  · dsimp only
    split
    · refine .perform_bind (fun _ => rfl) fun now => ?_
      split
      · exact .pure _
      · exact .invoke_bind (.pure _)
      · exact .invoke_bind (.pure _)
    · exact .pure _

theorem incrBy_indifferent (delta : Int64) : Indifferent (incrBy (F := F) ctx delta) := by
  refine .ofOption_bind fun key => .find_bind (fun r => ?_) fun r => ?_
  · dsimp only [FindResult.plain]
    rw [asInteger_ensureString]
  · dsimp only
    split
    · exact .pure _
    · split
      · exact .pure _
      · exact .invoke_bind (.pure _)

theorem cmdAppend_indifferent : Indifferent (cmdAppend (F := F) ctx) := by
  refine .ofOption_bind fun key => .ofOption_bind fun data =>
    .tryEdit (stringOf_map fun v => ?_) .create
  rw [asBytes_ensureString]

theorem cmdGetrange_indifferent : Indifferent (cmdGetrange (F := F) ctx) := by
  refine .ofOption_bind fun key => ?_
  split
  · exact .view (stringOf_map fun v => by rw [asBytes_ensureString])
  · exact .pure _

theorem cmdSetrange_indifferent : Indifferent (cmdSetrange (F := F) ctx) := by
  refine .ofOption_bind fun key => ?_
  split
  · exact .pure _
  · refine .ofOption_bind fun value => .perform_bind (fun r => ?_) fun r => ?_
    · cases r with
      | none => rfl
      | some r =>
        dsimp only [DbOp.plain, Option.map_some, FindResult.plain]
        rw [isString_ensureString, asBytes_ensureString, ensureString_ensureString]
    · cases r with
      | none =>
        dsimp only
        split
        · exact .panic
        · exact .create
      | some r =>
        dsimp only
        split
        · exact .pure _
        · refine .invoke_bind ?_
          split
          · exact .panic
          · exact .invoke_bind (.pure _)

/-- `INCRBYFLOAT` reads an integer as a float of its own. -/
theorem stringTable_indifferent [F64 F] {e : CommandEntry F} (he : e ∈ stringTable)
    (hne : e.name ≠ ascii "INCRBYFLOAT") : Indifferent (e.handler ctx) := by
  simp only [stringTable, List.mem_cons, List.not_mem_nil, or_false] at he
  rcases he with rfl | rfl | rfl | rfl | rfl | rfl | rfl | rfl | rfl | rfl | rfl | rfl | rfl | rfl |
    rfl | rfl | rfl | rfl | rfl | rfl
  · exact .ofOption_bind fun _ => .view (stringOf_map fun v => by rw [asBytes_ensureString])
  · exact cmdSet_indifferent
  · exact .ofOption_bind fun _ => .ofOption_bind fun value => .perform_bind (fun _ => rfl) fun _ =>
      .pure _
  · exact setWithExpiry_indifferent 1000
  · exact setWithExpiry_indifferent 1
  · exact .ofOption_bind fun keys => .bind (.forEach fun key => mgetOne_indifferent _ _) fun _ =>
      .pure _
  · exact cmdMset_indifferent
  · exact cmdMsetnx_indifferent
  · exact cmdGetset_indifferent
  · exact cmdGetdel_indifferent
  · exact cmdGetex_indifferent
  · exact incrBy_indifferent 1
  · exact incrBy_indifferent (-1)
  · dsimp only [cmdIncrby]
    split
    · exact incrBy_indifferent _
    · exact .pure _
  · dsimp only [cmdDecrby]
    split
    · exact incrBy_indifferent _
    · exact .pure _
  · exact absurd rfl hne
  · exact cmdAppend_indifferent
  · exact .ofOption_bind fun _ => .view (stringOf_map fun v => by rw [strlen_ensureString])
  · exact cmdGetrange_indifferent
  · exact cmdSetrange_indifferent

end Strings

section Collections

open CommandRegistry

/-! A string is of none of the other kinds, whatever its encoding. -/

variable {e : CommandEntry F}

theorem listTable_indifferent (he : e ∈ listTable) : Indifferent (e.handler ctx) := by
  have hview : ∀ {i key present absent}, Indifferent (view (F := F) listOf i key present absent) :=
    .viewOf listOf_ensureString
  have hedit : ∀ {i key present absent}, Indifferent absent →
      Indifferent (edit (F := F) listOf i key present absent) :=
    .editOf listOf_ensureString
  simp only [listTable, List.mem_cons, List.not_mem_nil, or_false] at he
  rcases he with rfl | rfl | rfl | rfl | rfl | rfl | rfl | rfl | rfl | rfl | rfl
  · exact .ofOption_bind fun _ => .ofOption_bind fun _ => hedit .create
  · exact .ofOption_bind fun _ => .ofOption_bind fun _ => hedit .create
  · exact .ofOption_bind fun _ => hedit (.pure _)
  · exact .ofOption_bind fun _ => hedit (.pure _)
  · exact .ofOption_bind fun _ => hview
  · exact .ofOption_bind fun _ => hview
  · exact .ofOption_bind fun _ => hview
  · exact .ofOption_bind fun _ => .ofOption_bind fun _ => hedit (.pure _)
  · exact .ofOption_bind fun _ => .ofOption_bind fun _ => hedit (.pure _)
  · exact .ofOption_bind fun _ => hedit (.pure _)
  · exact .ofOption_bind fun _ => .ofOption_bind fun _ => .ofOption_bind fun _ => .ofOption_bind
      fun _ =>
      hedit (.pure _)

theorem collectSets_indifferent (i : DbIndex) (keys : List Bytes) :
    Indifferent (SetFamily.collectSets (F := F) i keys) := by
  induction keys with
  | nil => exact .pure _
  | cons key rest ih =>
    refine .find_bind (fun r => ?_) fun r => ?_
    · dsimp only [FindResult.plain]
      rw [setOf_ensureString]
    · dsimp only
      split
      · exact .pure _
      · refine .bind ih fun sets => ?_
        cases sets <;> exact .pure _

theorem setOp_indifferent [HashOrder] (op : SetFamily.SetOp) :
    Indifferent (SetFamily.setOp (F := F) ctx op) := by
  refine .ofOption_bind fun keys => .bind (collectSets_indifferent _ _) fun sets => ?_
  rcases sets with _ | _ | ⟨first, rest⟩ <;> exact .pure _

theorem setTable_indifferent [HashOrder] (he : e ∈ setTable) :
    Indifferent (e.handler ctx) := by
  have hview : ∀ {i key present absent}, Indifferent (view (F := F) setOf i key present absent) :=
    .viewOf setOf_ensureString
  have hedit : ∀ {i key present absent}, Indifferent absent →
      Indifferent (edit (F := F) setOf i key present absent) :=
    .editOf setOf_ensureString
  simp only [setTable, List.mem_cons, List.not_mem_nil, or_false] at he
  rcases he with rfl | rfl | rfl | rfl | rfl | rfl | rfl | rfl | rfl | rfl | rfl
  · exact .ofOption_bind fun _ => .ofOption_bind fun _ => hedit .create
  · exact .ofOption_bind fun _ => .ofOption_bind fun _ => hedit (.pure _)
  · exact .ofOption_bind fun _ => hview
  · exact .ofOption_bind fun _ => .ofOption_bind fun _ => hview
  · exact .ofOption_bind fun _ => .ofOption_bind fun _ => hview
  · exact .ofOption_bind fun _ => hview
  · exact .ofOption_bind fun _ => hview
  · exact .ofOption_bind fun _ => hedit (.pure _)
  · exact setOp_indifferent .inter
  · exact setOp_indifferent .union
  · exact setOp_indifferent .diff

theorem setFields_indifferent (name : Bytes) (reply : Int64 → Bytes) :
    Indifferent (HashFamily.setFields (F := F) name reply ctx) := by
  refine .ofOption_bind fun key => ?_
  split
  · exact .pure _
  · exact .ofOption_bind fun _ => .editOf hashOf_ensureString .create

theorem hashTable_indifferent [F64 F] [HashOrder] (he : e ∈ hashTable) :
    Indifferent (e.handler ctx) := by
  have hview : ∀ {i key present absent}, Indifferent (view (F := F) hashOf i key present absent) :=
    .viewOf hashOf_ensureString
  have hedit : ∀ {i key present absent}, Indifferent absent →
      Indifferent (edit (F := F) hashOf i key present absent) :=
    .editOf hashOf_ensureString
  simp only [hashTable, List.mem_cons, List.not_mem_nil, or_false] at he
  rcases he with rfl | rfl | rfl | rfl | rfl | rfl | rfl | rfl | rfl | rfl | rfl | rfl | rfl
  · exact setFields_indifferent (ascii "hset") ReplyBuilder.sendInteger
  · exact .ofOption_bind fun _ => .ofOption_bind fun _ => hview
  · exact .ofOption_bind fun _ => .ofOption_bind fun _ => hedit (.pure _)
  · exact .ofOption_bind fun _ => .ofOption_bind fun _ => hview
  · exact .ofOption_bind fun _ => hview
  · exact .ofOption_bind fun _ => hview
  · exact .ofOption_bind fun _ => hview
  · exact .ofOption_bind fun _ => hview
  · exact setFields_indifferent (ascii "hmset") fun _ => ReplyBuilder.sendOk
  · exact .ofOption_bind fun _ => .ofOption_bind fun _ => hview
  · refine .ofOption_bind fun _ => .ofOption_bind fun _ => ?_
    split
    · exact .pure _
    · exact hedit .create
  · refine .ofOption_bind fun _ => .ofOption_bind fun _ => ?_
    dsimp only
    split
    · exact .pure _
    · exact hedit .create
  · exact .ofOption_bind fun _ => .ofOption_bind fun _ => .ofOption_bind fun _ => hedit .create

theorem zsetTable_indifferent [F64 F] (he : e ∈ zsetTable) :
    Indifferent (e.handler ctx) := by
  have hview : ∀ {i key present absent}, Indifferent (view (F := F) zsetOf i key present absent) :=
    .viewOf zsetOf_ensureString
  have hedit : ∀ {i key present absent}, Indifferent absent →
      Indifferent (tryEdit (F := F) zsetOf i key present absent) :=
    .editOf zsetOf_ensureString
  simp only [zsetTable, List.mem_cons, List.not_mem_nil, or_false] at he
  rcases he with rfl | rfl | rfl | rfl | rfl | rfl | rfl | rfl | rfl | rfl | rfl | rfl | rfl
  · refine .ofOption_bind fun key => ?_
    split
    · exact .pure _
    · refine .ofOption_bind fun pairs => ?_
      split
      · exact .pure _
      · exact hedit .create
  · exact .ofOption_bind fun _ => .ofOption_bind fun _ => hedit (.pure _)
  · exact .ofOption_bind fun _ => .ofOption_bind fun _ => hview
  · exact .ofOption_bind fun _ => .ofOption_bind fun _ => hview
  · exact .ofOption_bind fun _ => .ofOption_bind fun _ => hview
  · exact .ofOption_bind fun _ => hview
  · exact .ofOption_bind fun _ => hview
  · exact .ofOption_bind fun _ => hview
  · exact .ofOption_bind fun _ => hview
  · refine .ofOption_bind fun key => ?_
    split
    · exact .pure _
    · exact .ofOption_bind fun _ => hedit .create
  · exact .ofOption_bind fun _ => hedit (.pure _)
  · exact .ofOption_bind fun _ => hedit (.pure _)
  · exact .ofOption_bind fun _ => .ofOption_bind fun _ => hview

end Collections

section Runs

open CommandRegistry

variable [F64 F] [HashOrder]

theorem registry_indifferent {e : CommandEntry F} (he : e ∈ buildCommandRegistry)
    (hne : e.name ≠ ascii "INCRBYFLOAT") (ctx : CommandContext) : Indifferent (e.handler ctx) := by
  simp only [buildCommandRegistry, List.mem_append] at he
  rcases he with ((((he | he) | he) | he) | he) | he
  · exact genericTable_indifferent he
  · exact stringTable_indifferent he hne
  · exact listTable_indifferent he
  · exact setTable_indifferent he
  · exact hashTable_indifferent he
  · exact zsetTable_indifferent he

variable [CaseTable]

/-- Shards that differ in the encoding of integers only. -/
structure EngineShard.Twin (s t : EngineShard F) : Prop where
  dbSlice : s.dbSlice.Twin t.dbSlice
  commandsProcessed : s.commandsProcessed = t.commandsProcessed

/-- The event is not an `INCRBYFLOAT` command. -/
def ShardEvent.NoFloat : ShardEvent → Prop
  | .command _ args => commandName args ≠ .ok (ascii "INCRBYFLOAT")
  | _ => True

namespace EngineShard.Twin

variable {s t : EngineShard F}

theorem dispatch (h : s.Twin t) (ω : Listing Bytes) {args : List RespExpr} (conn : ConnContext)
    (hargs : commandName args ≠ .ok (ascii "INCRBYFLOAT")) :
    (CommandRegistry.dispatch ω args conn s).reply =
    (CommandRegistry.dispatch ω args conn t).reply ∧
      (CommandRegistry.dispatch ω args conn s).shard.Twin
        (CommandRegistry.dispatch ω args conn t).shard := by
  rw [CommandRegistry.dispatch, CommandRegistry.dispatch]
  cases hr : resolve (F := F) args with
  | reply data keepAlive => exact ⟨rfl, h⟩
  | run e =>
    obtain ⟨hfind, hname⟩ := resolve_run hr
    have hne : e.name ≠ ascii "INCRBYFLOAT" := fun he => hargs (he ▸ hname)
    have hrun := (registry_indifferent (find_mem hfind).1 hne ⟨args, conn.dbIndex⟩).run_twin ω
      (x := ⟨s.dbSlice, conn⟩) (y := ⟨t.dbSlice, conn⟩) h.dbSlice rfl
    exact ⟨hrun.1, hrun.2, congrArg (· + 1) h.commandsProcessed⟩

theorem next (h : s.Twin t) (ω : Listing Bytes) {e : ShardEvent} (he : e.NoFloat) :
    (s.next ω e).Twin (t.next ω e) := by
  cases e with
  | tick now => exact ⟨⟨rfl, h.dbSlice.value, h.dbSlice.deadline⟩, h.commandsProcessed⟩
  | command conn args => exact (h.dispatch ω conn he).2
  | sweep i count => exact ⟨h.dbSlice.expireSweep ω i count, h.commandsProcessed⟩

theorem transcript (h : s.Twin t) (ω : Nat → Listing Bytes) {events : List ShardEvent}
    (hevents : ∀ e ∈ events, e.NoFloat) :
    ShrikeDb.transcript ω events s = ShrikeDb.transcript ω events t := by
  induction events generalizing s t ω with
  | nil => rfl
  | cons e events ih =>
    obtain ⟨he, hevents⟩ := List.forall_mem_cons.mp hevents
    have hrest := ih (h.next (ω 0) he) (fun n => ω (n + 1)) hevents
    cases e with
    | tick now => exact hrest
    | sweep i count => exact hrest
    | command conn args =>
      rw [ShrikeDb.transcript, ShrikeDb.transcript]
      rw [(h.dispatch (ω 0) conn he).1]
      exact congrArg _ hrest

theorem through (h : s.Twin t) (ω : Nat → Listing Bytes) {events : List ShardEvent}
    (hevents : ∀ e ∈ events, e.NoFloat) : (s.through ω events).Twin (t.through ω events) := by
  induction events generalizing s t ω with
  | nil => exact h
  | cons e events ih =>
    obtain ⟨he, hevents⟩ := List.forall_mem_cons.mp hevents
    exact ih (h.next (ω 0) he) (fun n => ω (n + 1)) hevents

end EngineShard.Twin

end Runs

/-! ## The dump -/

namespace Persistence.RdbSaver

/-- Only numbers of more than four bytes are written in digits, and their digits are too many
to be taken for a number. -/
theorem writeString_i64ToString (w : RdbSaver) (n : Int64) :
    w.writeString (i64ToString n) = w.writeIntegerAsString n := by
  have hparse : tryParseInteger (i64ToString n) = some n := by
    rw [tryParseInteger, fromUtf8_i64ToString, Option.bind_some, parseI64_i64ToString,
      Option.bind_some, if_pos rfl]
  unfold writeString
  by_cases hlen : (i64ToString n).length ≤ 11
  · rw [if_pos hlen, hparse]
  · have hwide : ¬ (-2147483648 ≤ n.toInt ∧ n.toInt ≤ 2147483647) :=
      fun h => hlen (Decimal.length_ofInt_le (k := 10) (by decide) (by omega))
    unfold writeIntegerAsString
    rw [if_neg hlen, if_neg (by omega), if_neg (by omega), if_neg hwide]

theorem writeKeyValue_integer (w : RdbSaver) (key : PrimeKey) (n : Int64)
    (expireMs : Option UInt64) :
    w.writeKeyValue key (.integer n : PrimeValue F) expireMs =
      w.writeKeyValue key (.string (i64ToString n) : PrimeValue F) expireMs :=
  (writeString_i64ToString _ n).symm

end Persistence.RdbSaver

/-! ## Reading back -/

section ReadBack

open CommandRegistry ReplyBuilder StringFamily

theorem cmdSet_plain {ctx : CommandContext} {key value : Bytes} (hkey : ctx.argBytes 1 = some key)
    (hvalue : ctx.argBytes 2 = some value) (hargs : ctx.args.length = 3) (ω : Listing Bytes)
    (x : Exec F) :
    Leaves ω (cmdSet ctx) x sendOk
      (update x.slice.cell (ctx.dbIndex, key) (some (.fromBytes value), none)) := by
  have hopts : setOptions (ctx.args.drop 3) .initial = .ok .initial := by
    rw [List.drop_eq_nil_of_le (by omega)]
    rfl
  rw [cmdSet_ok hkey hvalue hopts]
  exact setValue_leaves value .initial none rfl

variable [F64 F] [HashOrder] [CaseTable]

/-- The bytes that were stored are the bytes that are read. -/
theorem get_after_set (ω ω' : Listing Bytes) (conn : ConnContext) (s : EngineShard F)
    (key value : Bytes) :
    asked ω' conn (dispatch ω [.string (ascii "SET"), .string key, .string value] conn s).shard key
      (ascii "GET") = some (sendBulkString value) := by
  have hset : resolve [.string (ascii "SET"), .string key, .string value] =
      .run ⟨ascii "SET", cmdSet (F := F), -3, 1⟩ :=
    resolve_string find_set rfl
  have hget := find_of_getElem (F := F) (n := 0) stringTable (by simp [tables]) rfl rfl
  have hkey : (⟨[.string (ascii "SET"), .string key, .string value], conn.dbIndex⟩ :
      CommandContext).argBytes 1 = some key := rfl
  obtain ⟨-, hheld⟩ := dispatch_held hset (cmdSet_plain hkey rfl rfl ω ⟨s.dbSlice, conn⟩)
  have hres : resolve [.string (ascii "GET"), .string key] =
      .run ⟨ascii "GET", cmdGet (F := F), 2, 1⟩ :=
    resolve_string hget rfl
  have hstring : stringOf (.fromBytes value : PrimeValue F) = some (.fromBytes value) := by
    rw [stringOf, if_pos (PrimeValue.isString_fromBytes value)]
  have hkey' : (⟨[.string (ascii "GET"), .string key], conn.dbIndex⟩ : CommandContext).argBytes 1 =
      some key := rfl
  have hreply :=
    (view_held (ω := ω') stringOf hres (hheld.trans rfl) hstring fun h => .arg_bind hkey' h).1
  rw [PrimeValue.asBytes_fromBytes] at hreply
  exact hreply

/-- Shards that differ in the encoding of integers only give the same replies in every run without
`INCRBYFLOAT` and keep differing in nothing else, the dump of a value does not tell the encodings
apart, and what was stored is read back byte by byte. -/
theorem integer_encoding_invisible :
    (∀ (s t : EngineShard F), s.Twin t → ∀ (ω : Nat → Listing Bytes) (events : List ShardEvent),
      (∀ e ∈ events, e.NoFloat) →
      transcript ω events s = transcript ω events t ∧
      (s.through ω events).Twin (t.through ω events)) ∧
    (∀ (w : Persistence.RdbSaver) (key : PrimeKey) (n : Int64) (expireMs : Option UInt64),
      w.writeKeyValue key (.integer n : PrimeValue F) expireMs =
        w.writeKeyValue key (.string (i64ToString n) : PrimeValue F) expireMs) ∧
    (∀ d : Bytes, (PrimeValue.fromBytes d : PrimeValue F).asBytes = d) ∧
    ∀ (ω ω' : Listing Bytes) (conn : ConnContext) (s : EngineShard F) (key d : Bytes),
      asked ω' conn (dispatch ω [.string (ascii "SET"), .string key, .string d] conn s).shard key
        (ascii "GET") = some (sendBulkString d) :=
  ⟨fun _ _ h ω _ hevents => ⟨h.transcript ω hevents, h.through ω hevents⟩,
    Persistence.RdbSaver.writeKeyValue_integer, PrimeValue.asBytes_fromBytes, get_after_set⟩

end ReadBack

section Fixed

open CommandRegistry

attribute [local instance] F64.whole CaseTable.identity HashOrder.arbitrary

/-- A shard with one value. -/
noncomputable def heldValue (v : PrimeValue Int) : EngineShard Int :=
  ⟨(DbSlice.new.addOrUpdate 0 (ascii "k") v).2, 0⟩

theorem heldValue_twin {v w : PrimeValue Int} (h : v.Twin w) :
    (heldValue v).Twin (heldValue w) := by
  have hnew : (DbSlice.new : DbSlice Int).Twin DbSlice.new := .of_plain rfl fun _ => rfl
  have hcell := fun v : PrimeValue Int =>
    (DbOp.apply_target (o := .addOrUpdate 0 (ascii "k") v) rfl (.arbitrary Bytes) DbSlice.new).2.1
  refine ⟨hnew.update rfl rfl (hcell v) (hcell w) ?_, rfl⟩
  exact congrArg (fun v => (some v, none)) (PrimeValue.twin_iff.mp h)

theorem integer_encoding_invisible_ten :
    transcript (fun _ => .arbitrary Bytes) [.command ⟨0⟩ (command ["append", "k", "0"])]
        (heldValue (.integer 10)) =
      transcript (fun _ => .arbitrary Bytes) [.command ⟨0⟩ (command ["append", "k", "0"])]
        (heldValue (.string (ascii "10"))) := by
  have htwin : (heldValue (.integer 10)).Twin (heldValue (.string (ascii "10"))) :=
    heldValue_twin (.inr ⟨10, .inl ⟨rfl, rfl⟩⟩)
  have hname : commandName (command ["append", "k", "0"]) ≠
      .ok (ascii "INCRBYFLOAT") := by decide +kernel
  exact ((integer_encoding_invisible (F := Int)).1 _ _ htwin _ _
    (by simpa [ShardEvent.NoFloat] using hname)).1

end Fixed

end ShrikeDb
