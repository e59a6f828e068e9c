import ShrikeDb.Persistence.RdbLoad

/-! The loops of the loader without fuel. Every read leaves at most as many bytes
unread as there were, and each round of a loop starts with one byte, so the
fuel the loops are given is enough and the loops satisfy their own equations. -/

namespace ShrikeDb.Persistence.RdbLoader

variable {α β : Type}

/-- A reader never puts bytes back. -/
def Shrinks (x : Load α) : Prop :=
  ∀ l a l', x l = .ok (a, l') → l'.reader.length ≤ l.reader.length

variable {x : Load α} {f : α → Load β} {l l' : RdbLoader}

theorem bind_eq_ok {b : β} (h : (x >>= f) l = .ok (b, l')) :
    ∃ a l1, x l = .ok (a, l1) ∧ f a l1 = .ok (b, l') := by
  change Except.bind (x l) _ = _ at h
  cases hx : x l with
  | error e =>
    rw [hx] at h
    cases h
  | ok r =>
    rw [hx] at h
    exact ⟨r.1, r.2, rfl, h⟩

theorem Shrinks.bind (hx : Shrinks x) (hf : ∀ a, Shrinks (f a)) :
    Shrinks (x >>= f) := by
  intro l b l' h
  obtain ⟨a, l1, h1, h2⟩ := bind_eq_ok h
  exact (hf a l1 b l' h2).trans (hx l a l1 h1)

theorem shrinks_pure (a : α) : Shrinks (pure a : Load α) := by
  intro l b l' h
  cases h
  exact Nat.le_refl _

theorem shrinks_fail (e : RdbLoadError) : Shrinks (fail e : Load α) := by
  intro l b l' h
  cases h

theorem shrinks_ite {c : Prop} [Decidable c] {y : Load α} (hx : Shrinks x) (hy : Shrinks y) :
    Shrinks (if c then x else y) := by
  split
  · exact hx
  · exact hy

theorem takeBytes_length {n : Nat} {bs : Bytes} (h : takeBytes n l = .ok (bs, l')) :
    l'.reader.length + n = l.reader.length := by
  unfold takeBytes at h
  split at h
  · rename_i hn
    cases h
    rw [List.length_drop]
    omega
  · cases h

theorem readExact_length {n : Nat} {bs : Bytes} (h : readExact n l = .ok (bs, l')) :
    l'.reader.length + n = l.reader.length := by
  obtain ⟨buf, l1, h1, h2⟩ := bind_eq_ok h
  obtain ⟨_, l2, h3, h4⟩ := bind_eq_ok h2
  have hlen := takeBytes_length h1
  cases h3
  cases h4
  exact hlen

theorem shrinks_exact (n : Nat) : Shrinks (readExact n) := by
  intro l a l' h
  have := readExact_length h
  omega

theorem readByte_length {b : UInt8} (h : readByte l = .ok (b, l')) :
    l'.reader.length + 1 = l.reader.length := by
  obtain ⟨buf, l1, h1, h2⟩ := bind_eq_ok h
  cases h2
  exact readExact_length h1

theorem shrinks_byte : Shrinks readByte := (shrinks_exact 1).bind fun _ => shrinks_pure _

theorem shrinks_lengthTail (encType : UInt8) (low : UInt64) :
    Shrinks (readLengthTail encType low) := by
  refine shrinks_ite (shrinks_pure _)
    (shrinks_ite ?_ (shrinks_ite (shrinks_ite ?_ (shrinks_ite ?_ ?_)) ?_))
  · exact shrinks_byte.bind fun _ => shrinks_pure _
  · exact (shrinks_exact 4).bind fun _ => shrinks_pure _
  · exact (shrinks_exact 8).bind fun _ => shrinks_pure _
  · exact shrinks_fail _
  · exact shrinks_pure _

theorem shrinks_lengthWithEncoding : Shrinks readLengthWithEncoding :=
  shrinks_byte.bind fun _ => shrinks_lengthTail _ _

theorem shrinks_length :
    Shrinks readLength := shrinks_lengthWithEncoding.bind fun _ => shrinks_pure _

theorem shrinks_buffer (len : UInt64) : Shrinks (readBuffer len) := by
  refine shrinks_ite ?_ (shrinks_exact _)
  intro l a l' h
  cases h

theorem shrinks_signed (w : Nat) :
    Shrinks (readSigned w) := (shrinks_exact w).bind fun _ => shrinks_pure _

theorem shrinks_string : Shrinks readString := by
  refine shrinks_lengthWithEncoding.bind fun r => ?_
  refine shrinks_ite (shrinks_ite (shrinks_signed 1) (shrinks_ite (shrinks_signed 2)
    (shrinks_ite (shrinks_signed 4) (shrinks_ite ?_ (shrinks_fail _))))) (shrinks_buffer _)
  exact shrinks_length.bind fun clen => shrinks_length.bind fun _ =>
    (shrinks_buffer clen).bind fun _ => shrinks_pure _

/-! ## Rounds -/

variable {F : Type}

/-- Two readers agree wherever fewer than `k` bytes are unread. -/
def AgreeBelow (k : Nat) (x y : Load α) : Prop := ∀ l, l.reader.length < k → x l = y l

variable {k : Nat} {next next' : Load (Option (RdbEntry F))}

theorem AgreeBelow.bind {g : α → Load β} (hx : Shrinks x) (h : ∀ a, AgreeBelow k (f a) (g a)) :
    AgreeBelow k (x >>= f) (x >>= g) := by
  intro l hl
  show Except.bind (x l) _ = Except.bind (x l) _
  cases hr : x l with
  | error e => rfl
  | ok r => exact h r.1 r.2 (Nat.lt_of_le_of_lt (hx l r.1 r.2 hr) hl)

theorem AgreeBelow.refl (x : Load α) : AgreeBelow k x x := fun _ _ => rfl

theorem AgreeBelow.ite {c : Prop} [Decidable c] {x' y y' : Load α} (hx : AgreeBelow k x x')
    (hy : AgreeBelow k y y') : AgreeBelow k (if c then x else y) (if c then x' else y') := by
  split
  · exact hx
  · exact hy

theorem agree_entryWithType (h : AgreeBelow k next next') (typeByte : UInt8)
    (expireMs : Option UInt64) :
    AgreeBelow k (readEntryWithType next typeByte expireMs)
      (readEntryWithType next' typeByte expireMs) :=
  AgreeBelow.bind shrinks_string fun _ => AgreeBelow.ite (AgreeBelow.refl _) h

theorem agree_typedEntry (h : AgreeBelow k next next') (expireMs : Option UInt64) :
    AgreeBelow k (readTypedEntry next expireMs) (readTypedEntry next' expireMs) :=
  AgreeBelow.bind shrinks_byte fun _ => agree_entryWithType h _ _

theorem shrinks_modify (f : RdbLoader → RdbLoader) (hf : ∀ l, (f l).reader = l.reader) :
    Shrinks (modify f : Load PUnit) := by
  intro l a l' h
  cases h
  rw [hf]

theorem agree_opcode (h : AgreeBelow k next next') (opcode : UInt8) :
    AgreeBelow k (readOpcode next opcode) (readOpcode next' opcode) := by
  refine AgreeBelow.ite (AgreeBelow.refl _) (AgreeBelow.ite ?_ (AgreeBelow.ite ?_ (AgreeBelow.ite ?_
    (AgreeBelow.ite ?_ (AgreeBelow.ite ?_ (AgreeBelow.ite ?_ (AgreeBelow.ite ?_
    (AgreeBelow.ite (AgreeBelow.refl _) ?_))))))))
  · exact AgreeBelow.bind shrinks_length fun _ =>
      AgreeBelow.bind (shrinks_modify _ fun _ => rfl) fun _ => h
  · exact AgreeBelow.bind shrinks_length fun _ => AgreeBelow.bind shrinks_length fun _ => h
  · exact AgreeBelow.bind shrinks_string fun _ => AgreeBelow.bind shrinks_string fun _ => h
  · exact AgreeBelow.bind ((shrinks_exact 4).bind fun _ => shrinks_pure _) fun _ =>
      agree_typedEntry h _
  · exact AgreeBelow.bind ((shrinks_exact 8).bind fun _ => shrinks_pure _) fun _ =>
      agree_typedEntry h _
  · exact AgreeBelow.bind shrinks_byte fun _ => h
  · exact AgreeBelow.bind shrinks_length fun _ => h
  · exact agree_entryWithType h _ _

/-- A round reads a byte before it reads on. -/
theorem agree_entryRound (h : AgreeBelow k next next') :
    AgreeBelow (k + 1) (entryRound next) (entryRound next') := by
  intro l hl
  show Except.bind (readByte l) _ = Except.bind (readByte l) _
  cases hr : readByte l with
  | error e => rfl
  | ok r =>
    have hlen := readByte_length hr
    exact agree_opcode h r.1 r.2 (by omega)

theorem agree_entryFuel (k n m : Nat) (hn : k ≤ n) (hm : k ≤ m) :
    AgreeBelow k (readEntryFuel n : Load (Option (RdbEntry F))) (readEntryFuel m) := by
  induction k generalizing n m with
  | zero =>
    intro l hl
    omega
  | succ k ih =>
    obtain ⟨n, rfl⟩ := Nat.exists_eq_succ_of_ne_zero (by omega : n ≠ 0)
    obtain ⟨m, rfl⟩ := Nat.exists_eq_succ_of_ne_zero (by omega : m ≠ 0)
    exact agree_entryRound (ih n m (by omega) (by omega))

/-- `read_entry` satisfies the equation of its loop. -/
theorem readEntry_eq : (readEntry : Load (Option (RdbEntry F))) = entryRound readEntry := by
  funext l
  have hnext : AgreeBelow l.reader.length (readEntryFuel l.reader.length)
      (readEntry : Load (Option (RdbEntry F))) := by
    intro l' hl'
    exact agree_entryFuel (l'.reader.length + 1) _ _ hl' (Nat.le_refl _) l' (Nat.lt_succ_self _)
  exact agree_entryRound hnext l (Nat.lt_succ_self _)

theorem shrinks_checksum : Shrinks (readChecksum : Load (Option (RdbEntry F))) := by
  intro l r l' h
  obtain ⟨l0, l1, h1, h2⟩ := bind_eq_ok h
  cases h1
  obtain ⟨crc, l2, h3, h4⟩ := bind_eq_ok h2
  obtain ⟨buf, l3, h5, h6⟩ := bind_eq_ok h3
  have hlen := takeBytes_length h5
  cases h6
  have h4' := shrinks_ite (shrinks_fail _) (shrinks_pure _) _ _ _ h4
  omega

theorem shrinks_entryWithType (h : Shrinks next) (typeByte : UInt8) (expireMs : Option UInt64) :
    Shrinks (readEntryWithType next typeByte expireMs) := by
  refine shrinks_string.bind fun _ => shrinks_ite (shrinks_string.bind fun _ => ?_) h
  intro l r l' hl
  cases hl
  exact Nat.le_refl _

theorem shrinks_typedEntry (h : Shrinks next) (expireMs : Option UInt64) :
    Shrinks (readTypedEntry next expireMs) :=
  shrinks_byte.bind fun _ => shrinks_entryWithType h _ _

theorem shrinks_opcode (h : Shrinks next) (opcode : UInt8) :
    Shrinks (readOpcode next opcode) := by
  refine shrinks_ite shrinks_checksum (shrinks_ite ?_ (shrinks_ite ?_ (shrinks_ite ?_
    (shrinks_ite ?_ (shrinks_ite ?_ (shrinks_ite ?_ (shrinks_ite ?_
    (shrinks_ite (shrinks_fail _) ?_))))))))
  · exact shrinks_length.bind fun len =>
      (shrinks_modify (fun l => { l with currentDb := len.toUInt32 }) fun _ => rfl).bind fun _ => h
  · exact shrinks_length.bind fun _ => shrinks_length.bind fun _ => h
  · exact shrinks_string.bind fun _ => shrinks_string.bind fun _ => h
  · exact ((shrinks_exact 4).bind fun _ => shrinks_pure _).bind fun _ => shrinks_typedEntry h _
  · exact ((shrinks_exact 8).bind fun _ => shrinks_pure _).bind fun _ => shrinks_typedEntry h _
  · exact shrinks_byte.bind fun _ => h
  · exact shrinks_length.bind fun _ => h
  · exact shrinks_entryWithType h _ _

theorem shrinks_entryFuel (n : Nat) : Shrinks (readEntryFuel n : Load (Option (RdbEntry F))) := by
  induction n with
  | zero => exact shrinks_fail _
  | succ n ih => exact shrinks_byte.bind fun _ => shrinks_opcode ih _

/-- Every entry takes at least one byte. -/
theorem readEntry_length {r : Option (RdbEntry F)} (h : readEntry l = .ok (r, l')) :
    l'.reader.length < l.reader.length := by
  obtain ⟨b, l1, h1, h2⟩ := bind_eq_ok (x := readByte) h
  have hbyte := readByte_length h1
  have hrest := shrinks_opcode (shrinks_entryFuel _) b l1 r l' h2
  omega

theorem agree_entriesFuel (k n m : Nat) (hn : k ≤ n) (hm : k ≤ m) :
    AgreeBelow k (readEntriesFuel n : Load (List (RdbEntry F))) (readEntriesFuel m) := by
  induction k generalizing n m with
  | zero =>
    intro l hl
    omega
  | succ k ih =>
    obtain ⟨n, rfl⟩ := Nat.exists_eq_succ_of_ne_zero (by omega : n ≠ 0)
    obtain ⟨m, rfl⟩ := Nat.exists_eq_succ_of_ne_zero (by omega : m ≠ 0)
    intro l hl
    show Except.bind (readEntry l) _ = Except.bind (readEntry l) _
    cases hr : readEntry l with
    | error e => rfl
    | ok r =>
      obtain ⟨entry, l'⟩ := r
      have hlen := readEntry_length hr
      cases entry with
      | none => rfl
      | some entry =>
        show Except.bind (readEntriesFuel n l') _ = Except.bind (readEntriesFuel m l') _
        rw [ih n m (by omega) (by omega) l' (by omega)]

/-- The end of the file ends the loop of `load_all`. -/
theorem readEntries_none (h : (readEntry : Load (Option (RdbEntry F))) l = .ok (none, l')) :
    (readEntries : Load (List (RdbEntry F))) l = .ok ([], l') := by
  show (readEntry >>= _) l = _
  show Except.bind (readEntry l) _ = _
  rw [h]
  rfl

/-- An entry read is the first of the entries. -/
theorem readEntries_some {entry : RdbEntry F} (h : readEntry l = .ok (some entry, l')) :
    readEntries l = (readEntries l').map fun r => (entry :: r.1, r.2) := by
  have hlen := readEntry_length h
  have hfuel : readEntriesFuel l.reader.length l' = (readEntries : Load (List (RdbEntry F))) l' :=
    agree_entriesFuel (l'.reader.length + 1) _ _ hlen (Nat.le_refl _) l' (Nat.lt_succ_self _)
  show Except.bind (readEntry l) _ = _
  rw [h]
  show Except.bind (readEntriesFuel l.reader.length l') _ = _
  rw [hfuel]
  cases readEntries l' <;> rfl

theorem readEntries_error {e : LoadFault}
    (h : (readEntry : Load (Option (RdbEntry F))) l = .error e) :
    (readEntries : Load (List (RdbEntry F))) l = .error e := by
  show Except.bind (readEntry l) _ = _
  rw [h]
  rfl

end ShrikeDb.Persistence.RdbLoader
