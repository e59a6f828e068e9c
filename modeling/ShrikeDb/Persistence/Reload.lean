import ShrikeDb.Persistence.RoundTrip

/-! What a reloaded dump contains. A skipped value writes its expiry opcode all
the same; the loader then takes that expiry for the next thing in the file. The
dump restores everything it should when no skipped value has an expiry, and it
does not when the first such expiry is the last thing in the file or is followed
by a string without expiry. -/

namespace ShrikeDb.Persistence

open ByteOrder RdbLoader List

variable {F : Type}

/-- Database, key, value bytes and expiry of a loaded entry. -/
def RdbEntry.view (e : RdbEntry F) : UInt32 × Bytes × Bytes × Option UInt64 :=
  (e.dbIndex, e.key, e.value.asBytes, e.expireMs)

/-- What should come back of some entries of a database: the strings and integers among them. -/
def persistedDb (d : UInt16) (es : List (SnapshotEntry F)) :
    List (UInt32 × Bytes × Bytes × Option UInt64) :=
  (es.filter fun e => e.value.isString).map fun e =>
    (d.toUInt32, e.key, e.value.asBytes, e.expireMs)

variable (snaps : List (ShardSnapshot F))

variable (dbs : List UInt16)

def persistedOf :
    List (UInt32 × Bytes × Bytes × Option UInt64) :=
  dbs.flatMap fun d => persistedDb d (dbEntries snaps d)

/-- What should come back of a dump, database by database and in snapshot order. -/
def persisted : List (UInt32 × Bytes × Bytes × Option UInt64) :=
  persistedOf snaps dbIndices

/-- The dump loads, and as what it persists. -/
def Restores : Prop :=
  ∃ es : List (RdbEntry F), loadAll (saveRdb snaps).writer = .ok es ∧
    es.map RdbEntry.view = persisted snaps

theorem view_restored (d : UInt16) (es : List (SnapshotEntry F)) :
    (restored d.toUInt32 es).map RdbEntry.view = persistedDb d es := by
  rw [restored, map_map]
  apply map_congr_left
  intro e _
  simp [restore, RdbEntry.view]

theorem view_restored_dbs :
    (dbs.flatMap fun d => restored d.toUInt32 (dbEntries snaps d)).map RdbEntry.view =
      persistedOf snaps dbs := by
  rw [map_flatMap]
  exact flatMap_congr fun d _ => view_restored d _

/-- The bytes of all databases. -/
def encDbs : Bytes :=
  dbs.flatMap fun d => encDb d (dbEntries snaps d)

/-- The end marker and the checksum of the file. -/
def trailer : Bytes :=
  rdbOpcodeEof :: toLeBytes 8 (crc64 0 (header ++ encContent snaps ++ [rdbOpcodeEof])).toNat

theorem loadAll_header (rest : Bytes) :
    loadAll (F := F) (header ++ rest) =
    (readEntries ⟨rest, crc64 0 header, 0, 9⟩).map Prod.fst := by
  rw [loadAll, readHeader_header]
  simp only [RdbLoader.past, RdbLoader.new]
  show Except.bind (readEntries _) _ = _
  cases readEntries (F := F) _ <;> rfl

/-- Loading a dump is reading its databases, from a loader whose checksum is that
of what stands before them. -/
theorem loadAll_saveRdb :
    ∃ l : RdbLoader, l.reader = encDbs snaps dbIndices ++ trailer snaps ∧
      crc64 (crc64 l.crc (encDbs snaps dbIndices)) [rdbOpcodeEof] =
        crc64 0 (header ++ encContent snaps ++ [rdbOpcodeEof]) ∧
      loadAll (F := F) (saveRdb snaps).writer =
        (readEntries l).map Prod.fst := by
  have hfile : (saveRdb snaps).writer = header ++ (encAux (ascii "redis-ver") (ascii "7.0.0") ++
      (encAux (ascii "shrikedb-ver") (ascii "0.1.0") ++
        (encDbs snaps dbIndices ++ trailer snaps))) := by
    rw [RdbSaver.saveRdb_writer]
    simp [encContent, encDbs, trailer]
  have hshort : ∀ s : String, s.length < 2 ^ 63 → (ascii s).length < 2 ^ 63 := by
    intro s hs
    rw [ascii, length_map, String.length_toList]
    exact hs
  have haux : ∀ rest crc,
      (readEntries : Load (List (RdbEntry F))) ⟨encAux (ascii "redis-ver") (ascii "7.0.0") ++
      (encAux (ascii "shrikedb-ver") (ascii "0.1.0") ++ rest), crc, 0, 9⟩ =
      readEntries ⟨rest, crc64 (crc64 crc (encAux (ascii "redis-ver") (ascii "7.0.0")))
        (encAux (ascii "shrikedb-ver") (ascii "0.1.0")), 0, 9⟩ := by
    intro rest crc
    rw [readEntries_aux (hshort _ (by decide)) (hshort _ (by decide)) rfl,
      readEntries_aux (hshort _ (by decide)) (hshort _ (by decide)) rfl]
    rfl
  refine ⟨⟨encDbs snaps dbIndices ++ trailer snaps, crc64 (crc64 (crc64 0 header)
    (encAux (ascii "redis-ver") (ascii "7.0.0"))) (encAux (ascii "shrikedb-ver") (ascii "0.1.0")),
    0, 9⟩, rfl, ?_, ?_⟩
  · simp [← crc64_append, encContent, encDbs]
  · rw [hfile, loadAll_header, haux]

/-- The databases of clean entries, then the end marker. -/
theorem restores_of_clean {snaps : List (ShardSnapshot F)}
    (hfit : ∀ s ∈ snaps, ∀ e ∈ s.entries, e.Fits) (hclean : ∀ s ∈ snaps, ∀ e ∈ s.entries, e.Clean) :
    Restores snaps := by
  have hmem : ∀ d, ∀ e ∈ dbEntries snaps d, ∃ s ∈ snaps, e ∈ s.entries := by
    intro d e he
    obtain ⟨s, hs, hes⟩ := mem_flatMap.mp he
    exact ⟨s, hs, (mem_filter.mp hes).1⟩
  obtain ⟨l, hreader, hcrc, hload⟩ := loadAll_saveRdb snaps
  obtain ⟨db, hdbs⟩ := readEntries_dbs (dbEntries snaps)
    (fun d _ e he => by obtain ⟨s, hs, hes⟩ := hmem d e he; exact hclean s hs e hes)
    (fun d _ e he => by obtain ⟨s, hs, hes⟩ := hmem d e he; exact hfit s hs e hes) hreader
  obtain ⟨l', heof⟩ := readEntries_eof
    (l := { l.past (encDbs snaps dbIndices) (trailer snaps) with currentDb := db }) hcrc rfl
  refine ⟨dbIndices.flatMap fun d => restored d.toUInt32 (dbEntries snaps d), ?_,
    view_restored_dbs snaps _⟩
  rw [hload, hdbs]
  change Except.map Prod.fst
    (prepend _ (readEntries { l.past (encDbs snaps dbIndices) (trailer snaps) with
    currentDb := db })) = _
  rw [heof]
  simp [prepend, Except.map]

/-! ## An expiry left behind -/

/-- If `x` meets the end of the file, at least `k` bytes were unread before. -/
def EndsAfter (k : Nat) (x : Load (Option (RdbEntry F))) : Prop :=
  ∀ l l', x l = .ok (none, l') → k ≤ l.reader.length

variable {k : Nat} {next : Load (Option (RdbEntry F))} {l : RdbLoader} {bs : Bytes}

theorem EndsAfter.bind {α : Type} {x : Load α} {f : α → Load (Option (RdbEntry F))} (hx : Shrinks x)
    (hf : ∀ a, EndsAfter k (f a)) : EndsAfter k (x >>= f) := by
  intro l l' h
  obtain ⟨a, l1, h1, h2⟩ := bind_eq_ok h
  exact (hf a l1 l' h2).trans (hx l a l1 h1)

theorem EndsAfter.ite {c : Prop} [Decidable c] {x y : Load (Option (RdbEntry F))}
    (hx : EndsAfter k x) (hy : EndsAfter k y) : EndsAfter k (if c then x else y) := by
  split
  · exact hx
  · exact hy

theorem endsAfter_fail (k : Nat) (e : RdbLoadError) :
    EndsAfter k (fail e : Load (Option (RdbEntry F))) := by
  intro l l' h
  cases h

theorem endsAfter_checksum : EndsAfter 8 (readChecksum : Load (Option (RdbEntry F))) := by
  intro l l' h
  obtain ⟨l0, l1, h1, h2⟩ := bind_eq_ok h
  cases h1
  obtain ⟨crc, l2, h3, _⟩ := bind_eq_ok h2
  obtain ⟨buf, l3, h5, _⟩ := bind_eq_ok h3
  have hlen := takeBytes_length h5
  omega

theorem endsAfter_entryWithType (h : EndsAfter k next) (typeByte : UInt8)
    (expireMs : Option UInt64) : EndsAfter k (readEntryWithType next typeByte expireMs) := by
  refine EndsAfter.bind shrinks_string fun _ =>
    EndsAfter.ite (EndsAfter.bind shrinks_string fun _ => ?_) h
  intro l l' hl
  cases hl

theorem endsAfter_typedEntry (h : EndsAfter k next) (expireMs : Option UInt64) :
    EndsAfter k (readTypedEntry next expireMs) :=
  EndsAfter.bind shrinks_byte fun _ => endsAfter_entryWithType h _ _

theorem endsAfter_opcode (h : EndsAfter 8 next) (opcode : UInt8) :
    EndsAfter 8 (readOpcode next opcode) := by
  refine EndsAfter.ite endsAfter_checksum (EndsAfter.ite ?_ (EndsAfter.ite ?_ (EndsAfter.ite ?_
    (EndsAfter.ite ?_ (EndsAfter.ite ?_ (EndsAfter.ite ?_ (EndsAfter.ite ?_
    (EndsAfter.ite (endsAfter_fail _ _) ?_))))))))
  · exact EndsAfter.bind shrinks_length fun len =>
      EndsAfter.bind (shrinks_modify (fun l => { l with currentDb := len.toUInt32 }) fun _ => rfl)
        fun _ => h
  · exact EndsAfter.bind shrinks_length fun _ => EndsAfter.bind shrinks_length fun _ => h
  · exact EndsAfter.bind shrinks_string fun _ => EndsAfter.bind shrinks_string fun _ => h
  · exact EndsAfter.bind ((shrinks_exact 4).bind fun _ => shrinks_pure _) fun _ =>
      endsAfter_typedEntry h _
  · exact EndsAfter.bind ((shrinks_exact 8).bind fun _ => shrinks_pure _) fun _ =>
      endsAfter_typedEntry h _
  · exact EndsAfter.bind shrinks_byte fun _ => h
  · exact EndsAfter.bind shrinks_length fun _ => h
  · exact endsAfter_entryWithType h _ _

/-- The end marker and its checksum are nine bytes. -/
theorem endsAfter_entryFuel (n : Nat) :
    EndsAfter 9 (readEntryFuel n : Load (Option (RdbEntry F))) := by
  induction n with
  | zero => exact endsAfter_fail _ _
  | succ n ih =>
    intro l l' h
    obtain ⟨b, l1, h1, h2⟩ := bind_eq_ok (x := readByte) h
    have hbyte := readByte_length h1
    have hrest :=
      endsAfter_opcode (fun l l' hl => (by decide : 8 ≤ 9).trans (ih l l' hl)) b l1 l' h2
    omega

theorem readEntries_needs {l l' : RdbLoader} {es : List (RdbEntry F)}
    (h : readEntries l = .ok (es, l')) : 9 ≤ l.reader.length := by
  cases hr : (readEntry : Load (Option (RdbEntry F))) l with
  | error e =>
    rw [readEntries_error hr] at h
    cases h
  | ok r =>
    obtain ⟨entry, l1⟩ := r
    cases entry with
    | none => exact endsAfter_entryFuel _ l l1 hr
    | some entry =>
      have hlen := readEntry_length hr
      rw [readEntries_cons hr] at h
      cases hr' : readEntries (F := F) l1 with
      | error e =>
        rw [hr'] at h
        cases h
      | ok r =>
        obtain ⟨es1, l2⟩ := r
        have ih := readEntries_needs hr'
        omega
termination_by l.reader.length

/-- Reading on from `l` does not give the entries expected. -/
def Misreads (F : Type) (l : RdbLoader) (expected : List (UInt32 × Bytes × Bytes × Option UInt64)) :
    Prop :=
  ∀ (es : List (RdbEntry F)) l', readEntries l = .ok (es, l') → es.map RdbEntry.view ≠ expected

theorem Misreads.prepend {l' : RdbLoader} {xs : List (RdbEntry F)}
    {expected : List (UInt32 × Bytes × Bytes × Option UInt64)} (h : Misreads F l' expected)
    (heq : readEntries l = RdbLoader.prepend xs (readEntries l')) :
    Misreads F l (xs.map RdbEntry.view ++ expected) := by
  intro es l1 hes hview
  rw [heq] at hes
  cases hr : readEntries (F := F) l' with
  | error e =>
    rw [hr] at hes
    cases hes
  | ok r =>
    obtain ⟨es', l2⟩ := r
    rw [hr] at hes
    cases hes
    rw [map_append] at hview
    exact h es' _ hr (append_cancel_left hview)

/-- A string without expiry takes over the expiry in front of it. -/
theorem misreads_string {d : UInt64} {e : SnapshotEntry F} (hs : e.value.isString = true)
    (hfit : e.Fits) {rest : Bytes} (hl : l.reader = encExpiry (some d) ++ encBody e ++ rest)
    {v : UInt32 × Bytes × Bytes × Option UInt64} (hv : v.2.2.2 = none)
    (expected : List (UInt32 × Bytes × Bytes × Option UInt64)) : Misreads F l (v :: expected) := by
  intro es l' hes hview
  rw [readEntries_cons (readEntry_expiry_body hs hfit (some d) hl)] at hes
  cases hr : (readEntries (l.past (encExpiry (some d) ++ encBody e) rest) :
      Except LoadFault (List (RdbEntry F) × RdbLoader)) with
  | error e =>
    rw [hr] at hes
    cases hes
  | ok r =>
    rw [hr] at hes
    cases hes
    rw [map_append, map_cons, cons_append] at hview
    have hhead := (cons.inj hview).1
    rw [← hhead] at hv
    cases hv

/-- An expiry in front of the end marker makes a key out of the checksum. -/
theorem misreads_eof {d : UInt64} (hbs : bs.length = 8)
    (hl : l.reader = encExpiry (some d) ++ (rdbOpcodeEof :: bs))
    (expected : List (UInt32 × Bytes × Bytes × Option UInt64)) : Misreads F l expected := by
  intro es l' hes _
  -- after the marker is taken for a type, fewer than nine bytes are left
  have hread : (readEntry : Load (Option (RdbEntry F))) l = (do
      let _key ← readString
      readEntry) (l.past (encExpiry (some d) ++ [rdbOpcodeEof]) bs) := by
    rw [encExpiry, cons_append] at hl
    rw [readEntry_cons hl, readOpcode_expiretimeMs, (reads_u64Le d).at _ rfl, readTypedEntry,
      (reads_byte rdbOpcodeEof).at _ rfl, past_past, past_past]
    rfl
  cases hr : (readEntry : Load (Option (RdbEntry F))) l with
  | error e =>
    rw [readEntries_error hr] at hes
    cases hes
  | ok r =>
    obtain ⟨entry, l1⟩ := r
    rw [hread] at hr
    obtain ⟨key, l2, h1, h2⟩ := bind_eq_ok hr
    have hlen : l2.reader.length ≤ 8 := by
      rw [← hbs]
      exact shrinks_string _ _ _ h1
    cases entry with
    | none =>
      have := endsAfter_entryFuel _ l2 l1 h2
      omega
    | some entry =>
      rw [readEntries_cons (hread.trans hr)] at hes
      have hlen' := readEntry_length h2
      cases hr' : readEntries (F := F) l1 with
      | error e =>
        rw [hr'] at hes
        cases hes
      | ok r =>
        obtain ⟨es1, l3⟩ := r
        have := readEntries_needs hr'
        omega

/-- The first expiry of a skipped value in the file is followed by a string
without expiry, or by the end of the file. -/
structure Dangles (snaps : List (ShardSnapshot F)) (before : List UInt16) (db : UInt16)
    (after : List UInt16) (pre : List (SnapshotEntry F)) (x : SnapshotEntry F)
    (skipped post : List (SnapshotEntry F)) : Prop where
  dbs : dbIndices = before ++ db :: after
  before_clean : ∀ d ∈ before, ∀ e ∈ dbEntries snaps d, e.Clean
  entries : dbEntries snaps db = pre ++ x :: (skipped ++ post)
  pre_clean : ∀ e ∈ pre, e.Clean
  skips : x.value.isString = false ∧ x.expireMs.isSome = true
  skipped_clean : ∀ e ∈ skipped, e.value.isString = false ∧ e.expireMs = none
  follows : (∃ y more, post = y :: more ∧ y.value.isString = true ∧ y.expireMs = none) ∨
    (post = [] ∧ ∀ d ∈ after, dbEntries snaps d = [])

theorem encEntries_skipped {es : List (SnapshotEntry F)}
    (h : ∀ e ∈ es, e.value.isString = false ∧ e.expireMs = none) : encEntries es = [] := by
  rw [encEntries, flatMap_eq_nil_iff]
  intro e he
  rw [encEntry_skipped (h e he).1, (h e he).2]
  rfl

theorem filter_skipped {es : List (SnapshotEntry F)}
    (h : ∀ e ∈ es, e.value.isString = false ∧ e.expireMs = none) :
    (es.filter fun e => e.value.isString) = [] := by
  rw [filter_eq_nil_iff]
  intro e he
  simp [(h e he).1]

variable {snaps : List (ShardSnapshot F)} {before after : List UInt16} {db : UInt16}
  {pre skipped post : List (SnapshotEntry F)} {x : SnapshotEntry F}

/-- From the expiry left behind on, the file is not read as it should be. -/
theorem Dangles.misreads_from (h : Dangles snaps before db after pre x skipped post)
    (hfit : ∀ e ∈ dbEntries snaps db, e.Fits) (hbs : bs.length = 8)
    (hl : l.reader = encEntries (x :: (skipped ++ post)) ++
      (encDbs snaps after ++ (rdbOpcodeEof :: bs))) :
    Misreads F l (persistedDb db post ++ persistedOf snaps after) := by
  obtain ⟨ms, hms⟩ := Option.isSome_iff_exists.mp h.skips.2
  have hx : encEntry x = encExpiry (some ms) := by rw [encEntry_skipped h.skips.1, hms]
  have henc : encEntries (x :: (skipped ++ post)) = encExpiry (some ms) ++ encEntries post := by
    rw [encEntries, flatMap_cons, flatMap_append, hx]
    have hskip := encEntries_skipped h.skipped_clean
    rw [encEntries] at hskip
    rw [hskip, nil_append]
    rfl
  rw [henc] at hl
  rcases h.follows with ⟨y, more, rfl, hy, hnone⟩ | ⟨rfl, hempty⟩
  · have hyfit : y.Fits := hfit y (by rw [h.entries]; simp)
    have hybody : encEntry y = encBody y := by
      rw [encEntry, hnone]
      rfl
    rw [encEntries, flatMap_cons, hybody, append_assoc, append_assoc,
      ← append_assoc] at hl
    rw [persistedDb, filter_cons_of_pos (by simp [hy]), map_cons, cons_append]
    exact misreads_string hy hyfit hl hnone _
  · have hdbs : encDbs snaps after = [] := by
      rw [encDbs, flatMap_eq_nil_iff]
      intro d hd
      rw [hempty d hd]
      rfl
    have hpost : encEntries ([] : List (SnapshotEntry F)) = [] := rfl
    rw [hdbs, nil_append, hpost, append_nil] at hl
    exact misreads_eof hbs hl _

/-- The database with the skipped value is read up to it. -/
theorem Dangles.misreads_db (h : Dangles snaps before db after pre x skipped post)
    (hfit : ∀ e ∈ dbEntries snaps db, e.Fits) (hbs : bs.length = 8)
    (hl : l.reader = encDbHeader db (dbEntries snaps db) ++ (encEntries pre ++
      (encEntries (x :: (skipped ++ post)) ++ (encDbs snaps after ++ (rdbOpcodeEof :: bs))))) :
    Misreads F l ((restored db.toUInt32 pre).map RdbEntry.view ++
      (persistedDb db post ++ persistedOf snaps after)) := by
  have hpre : ∀ e ∈ pre, e.Fits := by
    intro e he
    exact hfit e (by rw [h.entries]; exact mem_append_left _ he)
  have hread := (readEntries_dbHeader hl).trans (readEntries_entries h.pre_clean hpre rfl)
  exact Misreads.prepend (h.misreads_from hfit hbs rfl) hread

theorem Dangles.misreads (h : Dangles snaps before db after pre x skipped post)
    (hfit : ∀ d, ∀ e ∈ dbEntries snaps d, e.Fits) (hbs : bs.length = 8)
    (hl : l.reader = encDbs snaps dbIndices ++ (rdbOpcodeEof :: bs)) :
    Misreads F l (persisted snaps) := by
  have hne : (dbEntries snaps db).isEmpty = false := by rw [h.entries]; simp
  have hblock : encDb db (dbEntries snaps db) = encDbHeader db (dbEntries snaps db) ++
      (encEntries pre ++ encEntries (x :: (skipped ++ post))) := by
    have happ : encEntries (dbEntries snaps db) =
        encEntries pre ++ encEntries (x :: (skipped ++ post)) := by
      rw [h.entries, encEntries, flatMap_append]
      rfl
    rw [encDb, if_neg (by rw [hne]; decide), happ]
  have hbytes : encDbs snaps dbIndices = (before.flatMap fun d => encDb d (dbEntries snaps d)) ++
      (encDb db (dbEntries snaps db) ++ encDbs snaps after) := by
    rw [encDbs, h.dbs, flatMap_append, flatMap_cons]
    rfl
  have hexpected : persisted snaps =
      (before.flatMap fun d => restored d.toUInt32 (dbEntries snaps d)).map
      RdbEntry.view ++ ((restored db.toUInt32 pre).map RdbEntry.view ++
      (persistedDb db post ++ persistedOf snaps after)) := by
    have hfilter : persistedDb db (dbEntries snaps db) =
        persistedDb db pre ++ persistedDb db post := by
      rw [h.entries, persistedDb, filter_append, filter_cons_of_neg (by simp [h.skips.1]),
        filter_append, filter_skipped h.skipped_clean, nil_append, map_append]
      rfl
    rw [persisted, persistedOf, h.dbs, flatMap_append, flatMap_cons, hfilter,
      view_restored_dbs, view_restored, append_assoc]
    rfl
  rw [hbytes, hblock, append_assoc, append_assoc, append_assoc, append_assoc] at hl
  obtain ⟨db', h1⟩ := readEntries_dbs (dbEntries snaps) h.before_clean (fun d _ => hfit d) hl
  rw [hexpected]
  exact Misreads.prepend (h.misreads_db (hfit db) hbs rfl) h1

theorem Dangles.not_restores (h : Dangles snaps before db after pre x skipped post)
    (hfit : ∀ s ∈ snaps, ∀ e ∈ s.entries, e.Fits) : ¬ Restores snaps := by
  rintro ⟨es, hload, hview⟩
  obtain ⟨l, hreader, _, heq⟩ := loadAll_saveRdb snaps
  have hfit' : ∀ d, ∀ e ∈ dbEntries snaps d, e.Fits := by
    intro d e he
    obtain ⟨s, hs, hes⟩ := mem_flatMap.mp he
    exact hfit s hs e (mem_filter.mp hes).1
  have hmis := h.misreads hfit' (length_toLeBytes 8 _) hreader
  rw [heq] at hload
  cases hr : readEntries (F := F) l with
  | error e =>
    rw [hr] at hload
    cases hload
  | ok r =>
    obtain ⟨es', l'⟩ := r
    rw [hr] at hload
    cases hload
    exact hmis _ _ hr hview

/-- A dump restores exactly what it persists if no skipped value carries an
expiry; it does not if the first such expiry is followed by a string without
expiry or by the end of the file. -/
theorem reload_restores_persisted (snaps : List (ShardSnapshot F))
    (hfit : ∀ s ∈ snaps, ∀ e ∈ s.entries, e.Fits) :
    ((∀ s ∈ snaps, ∀ e ∈ s.entries, e.Clean) → Restores snaps) ∧
    (∀ before db after pre x skipped post, Dangles snaps before db after pre x skipped post →
      ¬ Restores snaps) :=
  ⟨fun hclean => restores_of_clean hfit hclean, fun _ _ _ _ _ _ _ h => h.not_restores hfit⟩

/-- A list without expiry between a string with one and an integer. -/
def mixedSnapshot : List (ShardSnapshot Float) :=
  [⟨[⟨0, ascii "s", .string (ascii "v"), some 1000⟩, ⟨0, ascii "l", .list [ascii "a"], none⟩,
    ⟨3, ascii "n", .integer (-300), none⟩]⟩]

theorem reload_restores_mixed :
    (∀ s ∈ mixedSnapshot, ∀ e ∈ s.entries, e.Fits) ∧ Restores mixedSnapshot := by
  have hfit : ∀ s ∈ mixedSnapshot, ∀ e ∈ s.entries, e.Fits := by
    intro s hs e he
    simp only [mixedSnapshot, mem_singleton] at hs
    subst hs
    simp only [mem_cons, not_mem_nil, or_false] at he
    rcases he with rfl | rfl | rfl
    · exact ⟨by decide, by decide⟩
    · exact ⟨by decide, by decide⟩
    · exact ⟨by decide, by decide⟩
  refine ⟨hfit, (reload_restores_persisted mixedSnapshot hfit).1 ?_⟩
  intro s hs e he
  simp only [mixedSnapshot, mem_singleton] at hs
  subst hs
  simp only [mem_cons, not_mem_nil, or_false] at he
  rcases he with rfl | rfl | rfl
  · intro h
    cases h
  · intro _
    rfl
  · intro h
    cases h

/-- A list with an expiry in front of a string without one. -/
def expiringList : List (ShardSnapshot Float) :=
  [⟨[⟨0, ascii "l", .list [ascii "a"], some 1000⟩, ⟨0, ascii "k", .string (ascii "v"), none⟩]⟩]

/-- The string comes back with the expiry of the list. -/
theorem expiringList_not_restored : ¬ Restores expiringList := by
  have h : Dangles expiringList [] 0 (dbIndices.tail) [] ⟨0, ascii "l", .list [ascii "a"],
      some 1000⟩ [] [⟨0, ascii "k", .string (ascii "v"), none⟩] :=
    { dbs := rfl
      before_clean := by simp
      entries := rfl
      pre_clean := by simp
      skips := ⟨rfl, rfl⟩
      skipped_clean := by simp
      follows := Or.inl ⟨_, _, rfl, rfl, rfl⟩ }
  refine h.not_restores ?_
  intro s hs e he
  simp only [expiringList, mem_singleton] at hs
  subst hs
  simp only [mem_cons, not_mem_nil, or_false] at he
  rcases he with rfl | rfl
  · exact ⟨by decide, by decide⟩
  · exact ⟨by decide, by decide⟩

end ShrikeDb.Persistence
