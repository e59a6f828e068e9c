import ShrikeDb.Persistence.RdbFiles
import ShrikeDb.Server.Loading

/-! Which database an entry of a file ends up in. The number of a `SELECTDB` is cut to 32
bits by the loader and to 16 bits on the way to the shards, and then used as an index:
the entries go where the file says exactly if it names databases below sixteen only. -/

namespace ShrikeDb

open Persistence EngineShardSet

variable {F : Type}

namespace Persistence

/-- The file loads, and these are its items. -/
def FileItems (reader : Bytes) (items : List Item) : Prop :=
  ∃ w rest, HeaderWord w ∧ reader = w ++ rest ∧ Accepted (crc64 0 w) rest items

/-- The entries of a file, each with the number of the last `SELECTDB` before it. -/
def Item.named (db : UInt64) : List Item → List (UInt64 × RdbEntry F)
  | [] => []
  | .select db' :: items => named db' items
  | .skipped :: items => named db items
  | .entry key data expireMs :: items =>
    (db, ⟨db.toUInt32, key, PrimeValue.fromBytes data, expireMs⟩) :: named db items

theorem Item.allEntries_eq (db : UInt64) (items : List Item) :
    (allEntries db.toUInt32 items : List (RdbEntry F)) = (named db items).map Prod.snd := by
  induction items generalizing db with
  | nil => rfl
  | cons item items ih =>
    cases item with
    | select db' => exact ih db'
    | skipped => exact ih db
    | entry key data expireMs => exact congrArg (_ :: ·) (ih db)

theorem Item.dbIndex_of_mem_named {db : UInt64} {items : List Item} {p : UInt64 × RdbEntry F}
    (hp : p ∈ named db items) : p.2.dbIndex = p.1.toUInt32 := by
  induction items generalizing db with
  | nil => cases hp
  | cons item items ih =>
    cases item with
    | select db' => exact ih hp
    | skipped => exact ih hp
    | entry key data expireMs =>
      rcases List.mem_cons.mp hp with rfl | hp
      · rfl
      · exact ih hp

end Persistence

/-- No shard indexes out of bounds, and every entry that is applied goes into the
database the file names for it. -/
def GoesWhereNamed {n : Nat} [NeZero n] (now : UInt64) (c : Cluster F n) (items : List Item) :
    Prop :=
  (∀ sid, (loadEntries now c ((Item.named 0 items).map Prod.snd) sid).isSome = true) ∧
    ∀ p ∈ (Item.named 0 items : List (UInt64 × RdbEntry F)),
    (LoadEntry.ofRdb p.2).expired now = false →
      ∀ i, (LoadEntry.ofRdb p.2).slot = some i → p.1.toNat = i.val

theorem goesWhereNamed_iff {n : Nat} [NeZero n] (now : UInt64) (c : Cluster F n)
    (items : List Item) :
    GoesWhereNamed now c items ↔ ∀ p ∈ (Item.named 0 items : List (UInt64 × RdbEntry F)),
      (LoadEntry.ofRdb p.2).expired now = false → p.1.toNat < 16 := by
  have hindex : ∀ p ∈ (Item.named 0 items : List (UInt64 × RdbEntry F)),
      (LoadEntry.ofRdb p.2).dbIndex.toNat = p.1.toNat % 65536 := by
    intro p hp
    change p.2.dbIndex.toUInt16.toNat = _
    rw [Item.dbIndex_of_mem_named hp, UInt32.toNat_toUInt16, UInt64.toNat_toUInt32]
    omega
  rw [GoesWhereNamed, loadEntries_isSome_iff, List.forall_mem_map]
  constructor
  · rintro ⟨hin, hslot⟩ p hp hexp
    have hlt : (LoadEntry.ofRdb p.2).dbIndex.toNat < 16 := (hin p hp).resolve_left (by simp [hexp])
    rw [hslot p hp hexp ⟨_, hlt⟩ (dif_pos hlt)]
    exact hlt
  · intro h
    refine ⟨fun p hp => ?_, fun p hp hexp i hi => ?_⟩
    · cases hexp : (LoadEntry.ofRdb p.2).expired now with
      | true => exact .inl hexp
      | false =>
        have hlt := h p hp hexp
        exact .inr (by rw [hindex p hp]; omega)
    · have hlt := h p hp hexp
      have hnat := hindex p hp
      rw [LoadEntry.slot, dif_pos (by omega)] at hi
      cases hi
      change _ = (LoadEntry.ofRdb p.2).dbIndex.toNat
      omega

/-- A file that loads consists of items, and what it loads as are their entries. These go
into the databases the file names, with no index out of bounds, exactly if the entries
that are not expired stand under numbers below sixteen. -/
theorem load_databases_iff (reader : Bytes) :
    (∀ es : List (RdbEntry F), loadAll reader = .ok es → ∃ items, FileItems reader items) ∧
      ∀ items, FileItems reader items →
        loadAll reader = .ok ((Item.named 0 items : List (UInt64 × RdbEntry F)).map Prod.snd) ∧
        ∀ (n : Nat) [NeZero n] (now : UInt64) (c : Cluster F n), GoesWhereNamed now c items ↔
          ∀ p ∈ (Item.named 0 items : List (UInt64 × RdbEntry F)),
            (LoadEntry.ofRdb p.2).expired now = false → p.1.toNat < 16 := by
  refine ⟨fun es h => ?_, fun items hitems => ⟨?_, fun n _ now c => goesWhereNamed_iff now c items⟩⟩
  · obtain ⟨w, rest, items, hw, hreader, haccepted, -⟩ := loadAll_ok_iff.mp h
    exact ⟨items, w, rest, hw, hreader, haccepted⟩
  · obtain ⟨w, rest, hw, hreader, haccepted⟩ := hitems
    exact loadAll_ok_iff.mpr ⟨w, rest, items, hw, hreader, haccepted,
      (Item.allEntries_eq 0 items).symm⟩

section Fixed

/-- A file with one key under the given encoded database number. -/
def oneKeyFile (db : Bytes) : Bytes :=
  header ++ ((rdbOpcodeSelectdb :: db ++ (rdbTypeString :: ([1, 107] ++ [1, 118]) ++ [])) ++
    rdbOpcodeEof :: (List.replicate 8 0 ++ []))

theorem fileItems_oneKeyFile {db : Bytes} {r : UInt64 × Bool} (h : LengthWord db r) :
    FileItems (oneKeyFile db) [.select r.1, .entry [107] [118] none] := by
  have hstring : ∀ b : UInt8, StringWord [1, b] [b] :=
    fun b => .plain (u := [1]) (.six (by decide)) (by decide) rfl
  exact ⟨header, _, headerWord_header, rfl, .mk (.cons (.select h) (.cons (.typed (by decide)
    (.entry (hstring 107) (hstring 118))) .nil)) rfl (.inl rfl)⟩

theorem load_databases_three :
    FileItems (oneKeyFile [3]) [.select 3, .entry [107] [118] none] ∧
      GoesWhereNamed 0 (fun _ : Fin 2 => (EngineShard.new : EngineShard Int))
        [.select 3, .entry [107] [118] none] := by
  have hitems : FileItems (oneKeyFile [3]) [.select 3, .entry [107] [118] none] :=
    fileItems_oneKeyFile (.six (b := 3) (by decide))
  refine ⟨hitems, (((load_databases_iff _).2 _ hitems).2 2 0 _).mpr fun p hp _ => ?_⟩
  rw [List.mem_singleton.mp hp]
  decide

/-- The database 16 is indexed, and the database 65536 is taken for the first. -/
theorem load_misplaces :
    (∃ es : List (RdbEntry Int), loadAll (oneKeyFile [16]) = .ok es ∧
      (loadEntries 0 (fun _ : Fin 1 => EngineShard.new) es 0).isNone = true) ∧
    ∃ es : List (RdbEntry Int), loadAll (oneKeyFile [0x80, 0, 1, 0, 0]) = .ok es ∧
      ((loadEntries 0 (fun _ : Fin 1 => EngineShard.new) es 0).bind fun shard =>
        (shard.dbSlice.cell (0, [107])).1.map PrimeValue.asBytes) = some [118] := by
  have hload : ∀ {db : Bytes} {r : UInt64 × Bool}, LengthWord db r → loadAll (oneKeyFile db) =
      .ok (Item.allEntries 0 [.select r.1, .entry [107] [118] none] : List (RdbEntry Int)) := by
    intro db r h
    obtain ⟨w, rest, hw, hreader, haccepted⟩ := fileItems_oneKeyFile h
    exact loadAll_ok_iff.mpr ⟨w, rest, _, hw, hreader, haccepted, rfl⟩
  exact ⟨⟨_, hload (.six (b := 16) (by decide)), by decide⟩,
    ⟨_, hload (.thirtyTwo (w := [0, 1, 0, 0]) rfl), by decide⟩⟩

end Fixed

end ShrikeDb
