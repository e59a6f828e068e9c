import ShrikeDb.Persistence.Checksum
import ShrikeDb.Persistence.LoadPanics

/-! Damaged dumps. The checksum notices every change within eight bytes in a row, but only
where the loader compares it: at an end marker. A change can make the loader meet one
earlier in the file, and a stored checksum of zero is not compared. -/

namespace ShrikeDb.Persistence

open ByteOrder RdbLoader

/-! ## Files of the saver -/

section Saver

variable {F : Type}

/-- What is written between the header and the end marker. -/
inductive SaverOp (F : Type)
  | aux (key value : Bytes)
  | selectDb (dbIndex : UInt32)
  | resizeDb (dbSize expireSize : UInt64)
  | keyValue (e : SnapshotEntry F)

namespace SaverOp

def write (w : RdbSaver) : SaverOp F → RdbSaver
  | aux key value => w.writeAux key value
  | selectDb dbIndex => w.writeSelectDb dbIndex
  | resizeDb dbSize expireSize => w.writeResizeDb dbSize expireSize
  | keyValue e => w.writeKeyValue (PrimeKey.new e.key) e.value e.expireMs

/-- Strings and integers only, and byte strings of at most `isize::MAX` bytes. -/
def Plain : SaverOp F → Prop
  | aux key value => key.length < 2 ^ 63 ∧ value.length < 2 ^ 63
  | selectDb _ | resizeDb _ _ => True
  | keyValue e => e.value.isString = true ∧ e.Fits

def enc : SaverOp F → Bytes
  | aux key value => encAux key value
  | selectDb dbIndex => rdbOpcodeSelectdb :: encLength dbIndex.toUInt64
  | resizeDb dbSize expireSize => rdbOpcodeResizedb :: (encLength dbSize ++ encLength expireSize)
  | keyValue e => encEntry e

theorem write_eq (w : RdbSaver) (op : SaverOp F) : op.write w = w.writeBytes op.enc := by
  cases op with
  | aux key value =>
    simp only [write, enc, RdbSaver.writeAux, RdbSaver.writeString_eq, RdbSaver.writeByte,
      RdbSaver.writeBytes_append, encAux]
    simp
  | selectDb dbIndex =>
    simp only [write, enc, RdbSaver.writeSelectDb, RdbSaver.writeLength_eq, RdbSaver.writeByte,
      RdbSaver.writeBytes_append]
    simp
  | resizeDb dbSize expireSize =>
    simp only [write, enc, RdbSaver.writeResizeDb, RdbSaver.writeLength_eq, RdbSaver.writeByte,
      RdbSaver.writeBytes_append]
    simp
  | keyValue e => exact RdbSaver.writeKeyValue_eq w e

theorem foldl_write_eq (ops : List (SaverOp F)) (w : RdbSaver) :
    ops.foldl write w = w.writeBytes (ops.flatMap enc) := by
  induction ops generalizing w with
  | nil => simp [RdbSaver.writeBytes]
  | cons op ops ih =>
    rw [List.foldl_cons, ih, write_eq, RdbSaver.writeBytes_append]
    rfl

end SaverOp

variable (ops : List (SaverOp F))

/-- The saver after the file. -/
def written : RdbSaver := (ops.foldl SaverOp.write RdbSaver.new.writeHeader).writeEof

/-- The part of the file that the checksum is of. -/
def covered : Bytes := header ++ (ops.flatMap SaverOp.enc ++ [rdbOpcodeEof])

theorem written_writer :
    (written ops).writer = covered ops ++ toLeBytes 8 (crc64 0 (covered ops)).toNat := by
  simp only [written, SaverOp.foldl_write_eq, RdbSaver.writeHeader, RdbSaver.writeBytes_append,
    RdbSaver.writeEof, RdbSaver.writeByte, RdbSaver.new]
  simp [RdbSaver.writeBytes, covered, header]

/-- What a reader reads is a word of its grammar. -/
theorem Parses.word_of_reads {α : Type} {x : Load α} {word : Bytes → α → Prop} {trap : Bytes → Prop}
    (hx : Parses x word trap) {w : Bytes} {a : α} (h : Reads x w a) : word w a := by
  have hread := h ⟨w, 0, 0, 0⟩ [] (List.append_nil w).symm
  obtain ⟨v, rest, hv, hl⟩ := hx.of_ok hread
  have hpast := Except.ok.inj (hread.symm.trans (hx.reads hv _ _ hl))
  obtain rfl : [] = rest := congrArg (fun r => r.2.reader) hpast
  have hwv : w = v := hl.trans (List.append_nil v)
  rw [hwv]
  exact hv

theorem SaverOp.enc_item {op : SaverOp F} (h : op.Plain) :
    ∃ b w item, op.enc = b :: w ∧ ItemBody b w item := by
  have hstring : ∀ {data : Bytes}, data.length < 2 ^ 63 → StringWord (encString data) data :=
    fun hdata => parses_string.word_of_reads (reads_encString hdata)
  have hlength : ∀ len, LengthWord (encLength len) (len, false) :=
    fun len => parses_lengthWithEncoding.word_of_reads (reads_encLength len)
  cases op with
  | aux key value => exact ⟨_, _, _, rfl, .aux (hstring h.1) (hstring h.2)⟩
  | selectDb dbIndex => exact ⟨_, _, _, rfl, .select (hlength _)⟩
  | resizeDb dbSize expireSize => exact ⟨_, _, _, rfl, .resizedb (hlength _) (hlength _)⟩
  | keyValue e =>
    obtain ⟨v, hbody, hv⟩ := encBody_of_isString h.1 h.2
    have htyped : ∀ expireMs, TypedBody rdbTypeString expireMs (encString e.key ++ v)
        (.entry e.key e.value.asBytes expireMs) :=
      fun expireMs => .entry (hstring h.2.key) (parses_string.word_of_reads hv)
    cases hexp : e.expireMs with
    | none =>
      refine ⟨rdbTypeString, encString e.key ++ v, _, ?_, .typed (by decide) (htyped none)⟩
      rw [enc, encEntry, hexp, hbody]
      rfl
    | some ms =>
      refine ⟨rdbOpcodeExpiretimeMs,
        toLeBytes 8 ms.toNat ++ rdbTypeString :: (encString e.key ++ v), _, ?_,
        .expiretimeMs (length_toLeBytes 8 _) (htyped _)⟩
      rw [enc, encEntry, hexp, hbody]
      rfl

theorem body_ops {ops : List (SaverOp F)} (h : ∀ op ∈ ops, op.Plain) :
    ∃ items, Body (ops.flatMap SaverOp.enc) items := by
  induction ops with
  | nil => exact ⟨[], .nil⟩
  | cons op ops ih =>
    obtain ⟨items, hitems⟩ := ih fun op hop => h op (List.mem_cons_of_mem _ hop)
    obtain ⟨b, w, item, henc, hitem⟩ := SaverOp.enc_item (h op List.mem_cons_self)
    refine ⟨item :: items, ?_⟩
    rw [List.flatMap_cons, henc]
    exact .cons hitem hitems

/-- A file of the saver loads as its items. -/
theorem loadAll_written {ops : List (SaverOp F)} {items : List Item}
    (h : Body (ops.flatMap SaverOp.enc) items) :
    loadAll (written ops).writer = .ok (Item.allEntries 0 items : List (RdbEntry F)) := by
  have hval : UInt64.ofNat (ofLeBytes (toLeBytes 8 (crc64 0 (covered ops)).toNat)) =
      crc64 0 (covered ops) := by
    rw [ofLeBytes_toLeBytes, Nat.mod_eq_of_lt (toNat_lt_eight_bytes _), UInt64.ofNat_toNat]
  have haccepted : Accepted (crc64 0 header) (ops.flatMap SaverOp.enc ++ rdbOpcodeEof ::
      (toLeBytes 8 (crc64 0 (covered ops)).toNat ++ [])) items := by
    refine .mk h (length_toLeBytes 8 _) (.inr ?_)
    rw [hval, covered, crc64_append]
  refine loadAll_ok_iff.mpr ⟨header, _, items, headerWord_header, ?_, haccepted, rfl⟩
  rw [written_writer, covered]
  simp

/-! ## Changes -/

/-- The changed file is refused, or loads as the same entries. -/
def Noticed (F : Type) (file changed : Bytes) : Prop :=
  (∃ e, loadAll (F := F) changed = .error (.err e)) ∨
    loadAll (F := F) changed = loadAll file

/-- The file can be read up to an end marker that stands before the last nine bytes or
has a stored checksum of zero, and which passes the comparison of checksums. -/
inductive EndsEarly : Bytes → List Item → Prop
  | mk {w body stored rest : Bytes} {items : List Item} (hw : HeaderWord w)
    (hbody : Body body items) (hlen : stored.length = 8)
    (hcrc : UInt64.ofNat (ofLeBytes stored) = 0 ∨
      (rest ≠ [] ∧ UInt64.ofNat (ofLeBytes stored) = crc64 0 (w ++ (body ++ [rdbOpcodeEof])))) :
    EndsEarly (w ++ (body ++ rdbOpcodeEof :: (stored ++ rest))) items

theorem EndsEarly.loads {file : Bytes} {items : List Item} (h : EndsEarly file items) :
    loadAll file = .ok (Item.allEntries 0 items : List (RdbEntry F)) := by
  cases h with
  | mk hw hbody hlen hcrc =>
    refine loadAll_ok_iff.mpr ⟨_, _, items, hw, rfl, .mk hbody hlen (hcrc.imp_right fun h => ?_),
      rfl⟩
    rw [h.2, crc64_append]

/-- A change within eight bytes in a row of what the checksum is of is noticed exactly if
the changed file declares no overlong string and, wherever it ends early, has the entries
of the unchanged one there. -/
theorem change_noticed_iff {ops : List (SaverOp F)} (hops : ∀ op ∈ ops, op.Plain) {u x y v : Bytes}
    (hfile : covered ops = u ++ (x ++ v)) (hlen : x.length = y.length) (hx : x.length ≤ 8)
    (hne : x ≠ y) :
    Noticed F (written ops).writer (u ++ (y ++ v) ++ toLeBytes 8 (crc64 0 (covered ops)).toNat) ↔
      ¬DeclaresOverlong (u ++ (y ++ v) ++ toLeBytes 8 (crc64 0 (covered ops)).toNat) ∧
      ∀ items, EndsEarly (u ++ (y ++ v) ++ toLeBytes 8 (crc64 0 (covered ops)).toNat) items →
        loadAll (written ops).writer = .ok (Item.allEntries 0 items : List (RdbEntry F)) := by
  obtain ⟨original, horiginal⟩ := body_ops hops
  have hes := loadAll_written horiginal
  generalize hs : toLeBytes 8 (crc64 0 (covered ops)).toNat = s
  constructor
  · intro h
    refine ⟨fun hover => ?_, fun items hends => ?_⟩
    · have hload := loadAll_overflow_iff (F := F).mpr hover
      rcases h with ⟨e, he⟩ | heq
      · cases hload.symm.trans he
      · cases hload.symm.trans (heq.trans hes)
    · rcases h with ⟨e, he⟩ | heq
      · cases hends.loads.symm.trans he
      · exact heq.symm.trans hends.loads
  · rintro ⟨hover, hends⟩
    cases hload : loadAll (F := F) (u ++ (y ++ v) ++ s) with
    | error e =>
      cases e with
      | err e => exact .inl ⟨e, hload⟩
      | capacityOverflow => exact absurd (loadAll_overflow_iff.mp hload) hover
    | ok es' =>
      obtain ⟨w, rest, items, hw, hfile', haccepted, rfl⟩ := loadAll_ok_iff.mp hload
      refine .inr (hload.trans (hends items ?_).symm)
      cases haccepted with
      | @mk body stored rest _ hbody hstored hcrc =>
        rw [hfile']
        refine .mk hw hbody hstored (hcrc.imp_right fun hcrc => ⟨?_, by rw [hcrc, ← crc64_append]⟩)
        -- At the last place for an end marker the checksum of the unchanged file is stored.
        rintro rfl
        have hsplit : u ++ (y ++ v) ++ s = (w ++ (body ++ [rdbOpcodeEof])) ++ stored := by
          rw [hfile', List.append_nil]
          simp
        have hslen : s.length = stored.length := by rw [← hs, length_toLeBytes, hstored]
        obtain ⟨hchanged, rfl⟩ := List.append_inj' hsplit hslen
        have hval : UInt64.ofNat (ofLeBytes s) = crc64 0 (covered ops) := by
          rw [← hs, ofLeBytes_toLeBytes, Nat.mod_eq_of_lt (toNat_lt_eight_bytes _),
            UInt64.ofNat_toNat]
        rw [hval, ← crc64_append, ← hchanged, hfile] at hcrc
        exact crc64_ne 0 hlen hx hne hcrc

end Saver

section Fixed

/-- A value that holds an end marker and eight zeros. -/
def markerInside : List (SaverOp Int) :=
  [.keyValue ⟨0, [107], .string (65 :: rdbOpcodeEof :: List.replicate 8 0), none⟩]

/-- The end of the file from the value on. -/
def fromValue : Bytes := 65 :: rdbOpcodeEof :: (List.replicate 8 0 ++ [rdbOpcodeEof])

theorem covered_markerInside :
    covered markerInside = (header ++ [0, 1, 107]) ++ ([10] ++ fromValue) := by
  decide

theorem body_value {n : UInt8} {data : Bytes} (hn : n.toNat < 64) (hlen : data.length = n.toNat) :
    Body (rdbTypeString :: ([1, 107] ++ (n :: data)) ++ []) [.entry [107] data none] := by
  have hkey : StringWord [1, 107] [107] :=
    @StringWord.plain [1] [107] 1 (.six (by decide)) (by decide) rfl
  have hlt : (UInt64.ofNat n.toNat).toNat = n.toNat := by
    rw [UInt64.toNat_ofNat']
    omega
  have hvalue : StringWord (n :: data) data :=
    @StringWord.plain [n] data _ (.six hn) (by omega) (by omega)
  exact .cons (.typed (by decide) (.entry hkey hvalue)) .nil

theorem change_noticed_markerInside :
    (∀ op ∈ markerInside, op.Plain) ∧
    covered markerInside = (header ++ [0, 1, 107]) ++ ([10] ++ fromValue) ∧
      (Noticed Int (written markerInside).writer ((header ++ [0, 1, 107]) ++ ([11] ++ fromValue) ++
          toLeBytes 8 (crc64 0 (covered markerInside)).toNat) ↔
        ¬DeclaresOverlong ((header ++ [0, 1, 107]) ++ ([11] ++ fromValue) ++
          toLeBytes 8 (crc64 0 (covered markerInside)).toNat) ∧
        ∀ items, EndsEarly ((header ++ [0, 1, 107]) ++ ([11] ++ fromValue) ++
            toLeBytes 8 (crc64 0 (covered markerInside)).toNat) items →
          loadAll (written markerInside).writer = .ok
          (Item.allEntries 0 items : List (RdbEntry Int))) := by
  have hops : ∀ op ∈ markerInside, op.Plain := by
    intro op hop
    rw [List.mem_singleton.mp hop]
    exact ⟨rfl, by decide, by decide⟩
  exact ⟨hops, covered_markerInside,
    change_noticed_iff hops covered_markerInside rfl (by decide) (by decide)⟩

/-- With its length changed from ten to one the value ends before the marker inside it. -/
theorem change_unnoticed :
    covered markerInside = (header ++ [0, 1, 107]) ++ ([10] ++ fromValue) ∧
      ¬Noticed Int (written markerInside).writer ((header ++ [0, 1, 107]) ++ ([1] ++ fromValue) ++
        toLeBytes 8 (crc64 0 (covered markerInside)).toNat) := by
  refine ⟨covered_markerInside, ?_⟩
  have hfile : loadAll (written markerInside).writer = .ok (Item.allEntries 0
      [.entry [107] (65 :: rdbOpcodeEof :: List.replicate 8 0) none] : List (RdbEntry Int)) := by
    refine loadAll_written ?_
    have hbytes : markerInside.flatMap SaverOp.enc =
        rdbTypeString :: ([1, 107] ++ (10 :: 65 :: rdbOpcodeEof :: List.replicate 8 0)) ++ [] := by
      decide
    rw [hbytes]
    exact body_value (by decide) (by decide)
  have hchanged : ∀ crc : Bytes, loadAll ((header ++ [0, 1, 107]) ++ ([1] ++ fromValue) ++ crc) =
      .ok (Item.allEntries 0 [.entry [107] [65] none] : List (RdbEntry Int)) := by
    intro crc
    have hends : EndsEarly (header ++ ((rdbTypeString :: ([1, 107] ++ [1, 65]) ++ []) ++
        rdbOpcodeEof :: (List.replicate 8 0 ++ (rdbOpcodeEof :: crc)))) [.entry [107] [65] none] :=
      .mk headerWord_header (body_value (by decide) rfl) rfl (.inl rfl)
    exact hends.loads
  rintro (⟨e, he⟩ | heq)
  · cases (hchanged _).symm.trans he
  · have hentries := Except.ok.inj ((hchanged _).symm.trans (heq.trans hfile))
    exact absurd (congrArg (List.map fun e => e.value.asBytes) hentries) (by decide)

end Fixed

end ShrikeDb.Persistence
