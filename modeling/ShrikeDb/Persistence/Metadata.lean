import ShrikeDb.Persistence.RdbFiles

/-! The opcodes that stand before an entry and say something about it. `read_entry` goes round
its loop after `FREQ` and `IDLE`, but takes what follows an expiry for the type of the entry. -/

namespace ShrikeDb.Persistence

open ByteOrder RdbLoader List

inductive MetaOpcode
  | expiretime
  | expiretimeMs
  | freq
  | idle
  deriving DecidableEq

namespace MetaOpcode

def isExpiry : MetaOpcode → Bool
  | expiretime | expiretimeMs => true
  | freq | idle => false

def byte : MetaOpcode → UInt8
  | expiretime => rdbOpcodeExpiretime
  | expiretimeMs => rdbOpcodeExpiretimeMs
  | freq => rdbOpcodeFreq
  | idle => rdbOpcodeIdle

end MetaOpcode

/-- An opcode and its operand, and the expiry it gives in milliseconds. -/
inductive MetaWord : MetaOpcode → Bytes → Option UInt64 → Prop
  | expiretime {w : Bytes} (hw : w.length = 4) :
    MetaWord .expiretime w (some (UInt64.ofNat (1000 * ofLeBytes w)))
  | expiretimeMs {w : Bytes} (hw : w.length = 8) :
      MetaWord .expiretimeMs w (some (UInt64.ofNat (ofLeBytes w)))
  | freq (b : UInt8) : MetaWord .freq [b] none
  | idle {u : Bytes} {len : UInt64} (hu : LengthWord u (len, false)) : MetaWord .idle u none

/-- A sequence of opcodes with their operands. -/
inductive MetaWords : List MetaOpcode → Bytes → Option UInt64 → Prop
  | nil : MetaWords [] [] none
  | cons {op : MetaOpcode} {ops : List MetaOpcode} {w w' : Bytes} {e e' : Option UInt64}
    (h : MetaWord op w e) (hrest : MetaWords ops w' e') :
    MetaWords (op :: ops) (op.byte :: w ++ w') (e <|> e')

/-- After these opcodes, whatever their operands are, a string entry is read with its key, its
value and the expiry, and the loader stands right behind it. -/
def Combine (F : Type) (ops : List MetaOpcode) : Prop :=
  ∀ (l : RdbLoader) (w u v key data rest : Bytes) (expireMs : Option UInt64),
  MetaWords ops w expireMs →
    StringWord u key → StringWord v data → l.reader = w ++ (rdbTypeString :: (u ++ v) ++ rest) →
    (readEntry : Load (Option (RdbEntry F))) l =
      .ok (some ⟨l.currentDb, key, PrimeValue.fromBytes data, expireMs⟩,
        l.past (w ++ rdbTypeString :: (u ++ v)) rest)

section Words

variable {F : Type} {op : MetaOpcode} {ops : List MetaOpcode} {w : Bytes} {e : Option UInt64}

theorem MetaWord.item_of_skipped (h : MetaWord op w e) (hop : op.isExpiry = false) :
    ItemBody op.byte w .skipped ∧ e = none := by
  cases h with
  | expiretime _ | expiretimeMs _ => cases hop
  | freq b => exact ⟨.freq b, rfl⟩
  | idle hu => exact ⟨.idle hu, rfl⟩

/-- The seconds of the older opcode do not overflow as milliseconds. -/
theorem seconds_eq {w : Bytes} (hw : w.length = 4) :
    (UInt32.ofNat (ofLeBytes w)).toUInt64 * 1000 = UInt64.ofNat (1000 * ofLeBytes w) := by
  have hlt := ofLeBytes_lt w
  rw [hw] at hlt
  apply UInt64.toNat_inj.mp
  rw [UInt64.toNat_mul, UInt32.toNat_toUInt64, UInt32.toNat_ofNat', UInt64.toNat_ofNat',
    Nat.mod_eq_of_lt (b := 2 ^ 32) (by omega)]
  have hthousand : (1000 : UInt64).toNat = 1000 := rfl
  rw [hthousand, Nat.mul_comm]

theorem MetaWord.item_of_expiry (h : MetaWord op w e) (hop : op.isExpiry = true) {t : UInt8}
    {v : Bytes} {item : Item} (hv : TypedBody t e v item) :
    ItemBody op.byte (w ++ t :: v) item := by
  cases h with
  | expiretime hw =>
    rw [← seconds_eq hw] at hv
    exact .expiretime hw hv
  | expiretimeMs hw => exact .expiretimeMs hw hv
  | freq _ | idle _ => cases hop

variable {ops' : List MetaOpcode}

theorem MetaWords.append {w' : Bytes} {e' : Option UInt64} (h : MetaWords ops w e)
    (h' : MetaWords ops' w' e') : MetaWords (ops ++ ops') (w ++ w') (e <|> e') := by
  induction h with
  | nil => exact h'
  | @cons op ops w₁ w₂ e₁ e₂ hword hrest ih =>
    have hcons := MetaWords.cons hword ih
    rw [← append_assoc] at hcons
    cases e₁ <;> exact hcons

theorem MetaWords.split (h : MetaWords (ops ++ ops') w e) : ∃ w₁ w₂ e₁ e₂,
    MetaWords ops w₁ e₁ ∧ MetaWords ops' w₂ e₂ ∧ w = w₁ ++ w₂ ∧ e = (e₁ <|> e₂) := by
  induction ops generalizing w e with
  | nil => exact ⟨[], w, none, e, .nil, h, rfl, rfl⟩
  | cons op ops ih =>
    cases h with
    | @cons _ _ w₀ w' e₀ e' hword hrest =>
      obtain ⟨w₁, w₂, e₁, e₂, h₁, h₂, rfl, rfl⟩ := ih hrest
      refine ⟨_, w₂, _, e₂, .cons hword h₁, h₂, (append_assoc ..).symm, ?_⟩
      cases e₀ <;> rfl

/-- Every opcode that gives no expiry is one round of the loop. -/
theorem MetaWords.readEntry_skipped (h : MetaWords ops w e) (hops : ∀ op ∈ ops, op.isExpiry = false)
    {l : RdbLoader} {rest : Bytes} (hl : l.reader = w ++ rest) :
    (readEntry : Load (Option (RdbEntry F))) l = readEntry (l.past w rest) ∧ e = none := by
  induction h generalizing l with
  | nil =>
    obtain ⟨reader, crc, currentDb, rdbVersion⟩ := l
    obtain rfl : reader = rest := hl
    rw [past, crc64_nil]
    exact ⟨rfl, rfl⟩
  | @cons op ops w w' e e' hword hrest ih =>
    obtain ⟨hitem, rfl⟩ := hword.item_of_skipped (hops op mem_cons_self)
    rw [append_assoc] at hl
    obtain ⟨hread, rfl⟩ :=
      ih (fun op hop => hops op (mem_cons_of_mem _ hop)) (l := l.past (op.byte :: w) _) rfl
    refine ⟨?_, rfl⟩
    rw [readEntry_item hitem hl]
    change readEntry (l.past (op.byte :: w) (w' ++ rest)) = _
    rw [hread, past_past]

theorem readEntry_entry {l : RdbLoader} {u v key data rest : Bytes} (hu : StringWord u key)
    (hv : StringWord v data) (hl : l.reader = rdbTypeString :: (u ++ v) ++ rest) :
    (readEntry : Load (Option (RdbEntry F))) l =
      .ok (some ⟨l.currentDb, key, PrimeValue.fromBytes data, none⟩,
        l.past (rdbTypeString :: (u ++ v)) rest) := by
  rw [readEntry_item (.typed (by decide) (.entry hu hv)) hl]
  rfl

theorem combine_of_none (hops : ∀ op ∈ ops, op.isExpiry = false) : Combine F ops := by
  intro l w u v key data rest e hw hu hv hl
  obtain ⟨hread, rfl⟩ := hw.readEntry_skipped hops hl
  rw [hread, readEntry_entry hu hv rfl, past_past]
  rfl

theorem combine_of_last (hops : ∀ op ∈ ops, op.isExpiry = false) (hop : op.isExpiry = true) :
    Combine F (ops ++ [op]) := by
  intro l w u v key data rest e hw hu hv hl
  obtain ⟨w₁, w₂, e₁, e₂, h₁, h₂, rfl, rfl⟩ := hw.split
  cases h₂ with
  | @cons _ _ w₂ w' e₂ e' hword hnil =>
    cases hnil
    rw [append_nil, append_assoc] at hl
    obtain ⟨hread, rfl⟩ := h₁.readEntry_skipped hops hl
    have hentry : TypedBody rdbTypeString e₂ (u ++ v) (.entry key data e₂) := .entry hu hv
    have hbytes : op.byte :: w₂ ++ (rdbTypeString :: (u ++ v) ++ rest) =
        op.byte :: (w₂ ++ rdbTypeString :: (u ++ v)) ++ rest := by simp
    rw [hread, readEntry_item (hword.item_of_expiry hop hentry) hbytes, past_past]
    cases e₂ <;> simp [Item.resume] <;> rfl

theorem stringWord_zero : StringWord [0] [] :=
  @StringWord.plain [0] [] 0 (.six (by decide)) (by decide) rfl

/-- The operand zero. -/
theorem metaWord_zero (hop : op.isExpiry = false) : MetaWord op [0] none := by
  cases op with
  | expiretime | expiretimeMs => cases hop
  | freq => exact .freq 0
  | idle => exact .idle (.six (by decide))

theorem metaWords_zero (hops : ∀ op ∈ ops, op.isExpiry = false) : ∃ w, MetaWords ops w none := by
  induction ops with
  | nil => exact ⟨[], .nil⟩
  | cons op ops ih =>
    obtain ⟨w, hw⟩ := ih fun op hop => hops op (mem_cons_of_mem _ hop)
    exact ⟨_, .cons (metaWord_zero (hops op mem_cons_self)) hw⟩

/-- The opcode behind the expiry is taken for the type of an entry. With the operand zero it
is skipped, and the expiry is lost with it. -/
theorem not_combine {op' : MetaOpcode} (hops : ∀ op ∈ ops, op.isExpiry = false)
    (hop : op.isExpiry = true) (hop' : op'.isExpiry = false)
    (hops' : ∀ op ∈ ops', op.isExpiry = false) : ¬Combine F (ops ++ op :: op' :: ops') := by
  intro hcombine
  obtain ⟨w, hw⟩ := metaWords_zero hops
  obtain ⟨v, ms, hv⟩ : ∃ v ms, MetaWord op v (some ms) := by
    cases op with
    | expiretime => exact ⟨replicate 4 0, _, .expiretime rfl⟩
    | expiretimeMs => exact ⟨replicate 8 0, _, .expiretimeMs rfl⟩
    | freq | idle => cases hop
  obtain ⟨w', hw'⟩ := metaWords_zero hops'
  have htype : op'.byte ≠ rdbTypeString := by cases op' <;> decide
  have hskip : ItemBody op.byte (v ++ op'.byte :: [0]) .skipped :=
    hv.item_of_expiry hop (.other htype stringWord_zero)
  have hall := hw.append (.cons hv (.cons (metaWord_zero hop') hw'))
  have hbytes : op.byte :: v ++ (op'.byte :: [0] ++ w') ++ (rdbTypeString :: ([0] ++ [0]) ++ []) =
      op.byte :: (v ++ op'.byte :: [0]) ++ (w' ++ (rdbTypeString :: ([0] ++ [0]) ++ [])) := by simp
  have hright := hcombine ⟨_, 0, 0, 0⟩ _ _ _ _ _ [] _ hall stringWord_zero stringWord_zero rfl
  rw [(hw.readEntry_skipped hops (append_assoc ..)).1, readEntry_item hskip hbytes] at hright
  change readEntry (RdbLoader.past (RdbLoader.past _ _ _) _ _) = _ at hright
  rw [(hw'.readEntry_skipped hops' rfl).1,
    readEntry_entry stringWord_zero stringWord_zero rfl] at hright
  cases hright

/-- The opcodes before an entry combine exactly if an expiry among them is the last. -/
theorem metadata_combines_iff (F : Type) (ops : List MetaOpcode)
    (hone : ops.countP MetaOpcode.isExpiry ≤ 1) :
    Combine F ops ↔ ∀ op ∈ ops.dropLast, op.isExpiry = false := by
  constructor
  · intro hcombine op hmem
    by_contra hop
    rw [Bool.not_eq_false] at hop
    obtain ⟨pre, post, hsplit⟩ := append_of_mem hmem
    have hne : ops ≠ [] := by
      rintro rfl
      cases hmem
    have hops : ops = pre ++ op :: (post ++ [ops.getLast hne]) := by
      rw [← cons_append, ← append_assoc, ← hsplit, dropLast_append_getLast]
    obtain ⟨op', rest, hrest⟩ := exists_cons_of_ne_nil (append_ne_nil_of_right_ne_nil post
      (cons_ne_nil (ops.getLast hne) []))
    rw [hrest] at hops
    rw [hops, countP_append, countP_cons_of_pos hop] at hone
    have hnone : ∀ {l : List MetaOpcode}, l.countP MetaOpcode.isExpiry = 0 → ∀ op ∈ l,
        op.isExpiry = false :=
      fun hl op hop => Bool.eq_false_iff.mpr (countP_eq_zero.mp hl op hop)
    obtain ⟨hop', hrest'⟩ := forall_mem_cons.mp (hnone (by omega : (op' :: rest).countP _ = 0))
    exact not_combine (hnone (by omega)) hop hop' hrest' (hops ▸ hcombine)
  · intro hlast
    rcases eq_nil_or_concat ops with rfl | ⟨pre, op, rfl⟩
    · exact combine_of_none hlast
    · rw [concat_eq_append] at hlast ⊢
      rw [dropLast_concat] at hlast
      cases hop : op.isExpiry with
      | true => exact combine_of_last hlast hop
      | false =>
        refine combine_of_none (forall_mem_append.mpr ⟨hlast, ?_⟩)
        exact forall_mem_singleton.mpr hop

theorem metadata_combines_freq_first :
    [MetaOpcode.freq, .idle, .expiretimeMs].countP MetaOpcode.isExpiry ≤ 1 ∧
      Combine Int [.freq, .idle, .expiretimeMs] :=
  ⟨by decide, (metadata_combines_iff Int [.freq, .idle, .expiretimeMs] (by decide)).mpr (by decide)⟩

/-- The expiry 1 and then the frequency 0: the entry comes without its expiry. -/
theorem expiry_before_freq_lost : ∃ l, (readEntry : Load (Option (RdbEntry Int)))
    (.new ([rdbOpcodeExpiretimeMs, 1, 0, 0, 0, 0, 0, 0, 0] ++ [rdbOpcodeFreq, 0] ++
      [rdbTypeString, 1, 107, 1, 118])) =
        .ok (some ⟨0, [107], PrimeValue.fromBytes [118], none⟩, l) := by
  have hkey : StringWord [1, 107] [107] :=
    @StringWord.plain [1] [107] 1 (.six (by decide)) (by decide) rfl
  have hvalue : StringWord [1, 118] [118] :=
    @StringWord.plain [1] [118] 1 (.six (by decide)) (by decide) rfl
  have hskip : ItemBody rdbOpcodeExpiretimeMs ([1, 0, 0, 0, 0, 0, 0, 0] ++ rdbOpcodeFreq :: [0])
      .skipped :=
    .expiretimeMs rfl (.other (by decide) stringWord_zero)
  rw [readEntry_item hskip rfl]
  exact ⟨_, readEntry_entry (l := RdbLoader.past _ _ _) hkey hvalue rfl⟩

end Words

end ShrikeDb.Persistence
