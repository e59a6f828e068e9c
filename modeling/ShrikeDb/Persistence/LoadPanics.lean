import ShrikeDb.Persistence.RdbFiles

/-! The loader on arbitrary files. Its loops end after at most as many rounds as the file
has bytes, and it returns a result or an error unless the file declares a string of more
than `isize::MAX` bytes where the loader gets to. -/

namespace ShrikeDb.Persistence

open RdbLoader

variable {F : Type}

/-! ## Bounded rounds -/

/-- One round of the loop of `load_all`. -/
def entriesRound (entry : Load (Option (RdbEntry F))) (next : Load (List (RdbEntry F))) :
    Load (List (RdbEntry F)) := do
  match ← entry with
  | none => pure []
  | some entry =>
    let entries ← next
    pure (entry :: entries)

/-- `load_all` with at most `n` rounds for each loop; a loop that is not through by then
goes on with `out` or `outs`. -/
def loadWithin (n : Nat) (out : Load (Option (RdbEntry F))) (outs : Load (List (RdbEntry F)))
    (reader : Bytes) : Except LoadFault (List (RdbEntry F)) := do
  let (_, l) ← readHeader (RdbLoader.new reader)
  let (entries, _) ← (entriesRound (entryRound^[n] out))^[n] outs l
  pure entries

variable (out : Load (Option (RdbEntry F)))

theorem agree_entryRounds {k n : Nat} (hk : k ≤ n) :
    AgreeBelow k (entryRound^[n] out) readEntry := by
  induction k generalizing n with
  | zero =>
    intro l hl
    omega
  | succ k ih =>
    obtain ⟨n, rfl⟩ := Nat.exists_eq_succ_of_ne_zero (by omega : n ≠ 0)
    rw [Function.iterate_succ_apply', readEntry_eq]
    exact agree_entryRound (ih (Nat.le_of_succ_le_succ hk))

theorem agree_entriesRounds (outs : Load (List (RdbEntry F))) {k n m : Nat} (hn : k ≤ n)
    (hm : k ≤ m) : AgreeBelow k ((entriesRound (entryRound^[n] out))^[m] outs) readEntries := by
  induction k generalizing m with
  | zero =>
    intro l hl
    omega
  | succ k ih =>
    obtain ⟨m, rfl⟩ := Nat.exists_eq_succ_of_ne_zero (by omega : m ≠ 0)
    intro l hl
    rw [Function.iterate_succ_apply']
    show Except.bind ((entryRound^[n] out) l) _ = _
    rw [agree_entryRounds out hn l hl]
    cases hr : (readEntry : Load (Option (RdbEntry F))) l with
    | error e => exact (readEntries_error hr).symm
    | ok r =>
      obtain ⟨entry, l'⟩ := r
      cases entry with
      | none => exact (readEntries_none hr).symm
      | some entry =>
        have hlen := readEntry_length hr
        rw [readEntries_some hr]
        show Except.bind ((entriesRound (entryRound^[n] out))^[m] outs l') _ = _
        rw [ih (by omega) (by omega) l' (by omega)]
        cases readEntries (F := F) l' <;> rfl

/-- More rounds than the file has bytes are enough: what the loops would do after them
makes no difference. -/
theorem loadWithin_eq (outs : Load (List (RdbEntry F))) {n : Nat} {reader : Bytes}
    (hn : reader.length < n) : loadWithin n out outs reader = loadAll reader := by
  rw [loadWithin, loadAll]
  cases hread : readHeader (RdbLoader.new reader) with
  | error e => rfl
  | ok r =>
    obtain ⟨w, rest, hw, rfl⟩ := readHeader_ok hread
    obtain ⟨version, hheader⟩ := readHeader_headerWord hw rest
    cases hread.symm.trans hheader
    have hrest : rest.length < n := by
      rw [List.length_append] at hn
      omega
    have hagree := agree_entriesRounds out outs (Nat.le_refl n) (Nat.le_refl n)
      ⟨rest, crc64 0 w, 0, version⟩ hrest
    exact congrArg (fun r => Except.bind r fun p => pure p.1) hagree

/-! ## Panics -/

/-- The file declares a string that no buffer can hold, behind a header and complete items. -/
def DeclaresOverlong (reader : Bytes) :
    Prop := ∃ w rest, HeaderWord w ∧ reader = w ++ rest ∧ Trapped rest

/-- The loader is total on arbitrary files, up to declared lengths above `isize::MAX`. -/
theorem loadAll_returns_iff (reader : Bytes) :
    (∀ (out : Load (Option (RdbEntry F))) outs n, reader.length < n →
        loadWithin n out outs reader = loadAll reader) ∧
      (((∃ es : List (RdbEntry F), loadAll reader = .ok es) ∨
          ∃ e, loadAll (F := F) reader = .error (.err e)) ↔
        ¬DeclaresOverlong reader) := by
  refine ⟨fun out outs n hn => loadWithin_eq out outs hn, ?_⟩
  rw [DeclaresOverlong, ← loadAll_overflow_iff]
  cases loadAll reader with
  | ok es => exact iff_of_true (.inl ⟨es, rfl⟩) (by rintro ⟨⟩)
  | error e =>
    cases e with
    | err e => exact iff_of_true (.inr ⟨e, rfl⟩) (by rintro ⟨⟩)
    | capacityOverflow =>
      refine iff_of_false ?_ fun h => h rfl
      rintro (⟨_, h⟩ | ⟨_, h⟩) <;> cases h

/-- A header and an auxiliary field whose key declares `2 ^ 64 - 1` bytes. -/
theorem loadAll_panics : (loadAll (header ++ rdbOpcodeAux :: 0x81 :: List.replicate 8 0xFF) :
    Except LoadFault (List (RdbEntry Int))) = .error .capacityOverflow := by
  rfl

end ShrikeDb.Persistence
