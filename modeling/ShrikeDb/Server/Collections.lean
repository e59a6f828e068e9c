import ShrikeDb.Server.FanOut
import ShrikeDb.Server.Loading
import ShrikeDb.Server.Values
import ShrikeDb.Persistence.RdbFiles

/-! No key holds an empty collection, in any state that events and the loading of files lead to,
so `EXISTS`, `TYPE` and the commands for lengths agree on which keys there are. -/

namespace ShrikeDb

open Program Command ReplyBuilder CommandRegistry GenericFamily

variable {F : Type}

inductive CollectionKind
  | list
  | set
  | hash
  | zset

/-- How many elements a collection of this kind has. -/
def CollectionKind.count : CollectionKind → PrimeValue F → Option Nat
  | .list, .list items => some items.length
  | .set, .set items => some items.card
  | .hash, .hash fields => some fields.keys.card
  | .zset, .zset members _ => some members.keys.card
  | _, _ => none

/-- Not an empty collection. -/
def PrimeValue.Stocked (v : PrimeValue F) : Prop := ∀ kind : CollectionKind, kind.count v ≠ some 0

variable {n : Nat}

theorem CollectionKind.count_unique {k k' : CollectionKind} {v : PrimeValue F} {m : Nat}
    (h : k.count v = some n) (h' : k'.count v = some m) : n = m := by
  cases v <;> cases k <;> cases h <;> cases k' <;> cases h' <;> rfl

namespace PrimeValue

theorem stocked_of_isString {v : PrimeValue F} (h : v.isString = true) : v.Stocked := by
  intro kind hc
  cases v with
  | string => cases kind <;> cases hc
  | integer => cases kind <;> cases hc
  | _ => cases h

theorem stocked_of_count {k : CollectionKind} {v : PrimeValue F} {n : Nat} (h : k.count v = some n)
    (hn : n ≠ 0) : v.Stocked :=
  fun _ hc => hn (CollectionKind.count_unique h hc)

theorem stocked_list {items : List Bytes} (h : items ≠ []) : (list items : PrimeValue F).Stocked :=
  stocked_of_count (k := .list) rfl fun hc => h (List.length_eq_zero_iff.mp hc)

theorem stocked_set {items : Finset Bytes} (h : items ≠ ∅) : (set items : PrimeValue F).Stocked :=
  stocked_of_count (k := .set) rfl fun hc => h (Finset.card_eq_zero.mp hc)

theorem stocked_hash {fields : Finmap fun _ : Bytes => Bytes} (h : fields.keys ≠ ∅) :
    (hash fields : PrimeValue F).Stocked :=
  stocked_of_count (k := .hash) rfl fun hc => h (Finset.card_eq_zero.mp hc)

theorem stocked_zset {members : Finmap fun _ : Bytes => F} {scores : List (SortedSetEntry F)}
    (h : members.keys ≠ ∅) : (zset members scores).Stocked :=
  stocked_of_count (k := .zset) rfl fun hc => h (Finset.card_eq_zero.mp hc)

end PrimeValue

open PrimeValue

section Handlers

variable {ω : Listing Bytes} {x : Exec F} {ctx : CommandContext}

/-! ## Sorted sets -/

section SortedSets

open ZsetFamily

variable [F64 F]

theorem zsetAdd_ne_empty (members : Members F) (scores : Scores F) (m : Bytes) (score : F) :
    (zsetAdd members scores m score).2.1.keys ≠ ∅ := by
  rw [zsetAdd]
  split <;> exact keys_insert_ne_empty _ _ _

theorem addAll_ne_empty {pairs : List (F × Bytes)} (h : pairs ≠ []) (members : Members F)
    (scores : Scores F) : (addAll pairs members scores).2.1.keys ≠ ∅ := by
  refine foldl_establishes (P := fun s : Int64 × Members F × Scores F => s.2.1.keys ≠ ∅) ?_ h
    (0, members, scores)
  exact fun s p => zsetAdd_ne_empty s.2.1 s.2.2 p.2 p.1

theorem cmdZadd_stocked (hlen : 4 ≤ ctx.args.length) : Preserves Stocked ω (cmdZadd ctx) x := by
  refine .ofOption_bind fun key _ => ?_
  split
  · exact .pure _
  · refine .ofOption_bind fun pairs _ => ?_
    split
    · exact .pure _
    · next hcount =>
      have hne : pairs ≠ [] := by
        rintro rfl
        rw [List.length_nil] at hcount
        omega
      refine .edit (fun v c _ _ _ value reply hput => ?_) fun y => .create ?_
      · cases hput
        exact stocked_zset (addAll_ne_empty hne c.1 c.2)
      · exact stocked_zset (addAll_ne_empty hne ∅ [])

theorem cmdZrem_stocked : Preserves Stocked ω (cmdZrem ctx) x := by
  refine .ofOption_bind fun key _ => .ofOption_bind fun mems _ => ?_
  refine .edit (fun v c _ _ _ value reply hput => ?_) fun y => .pure _
  obtain ⟨rfl, hempty, -⟩ := Edit.put.inj hput
  exact stocked_zset (of_decide_eq_false hempty)

theorem cmdZincrby_stocked : Preserves Stocked ω (cmdZincrby ctx) x := by
  refine .ofOption_bind fun key _ => ?_
  split
  · exact .pure _
  · refine .ofOption_bind fun member _ => ?_
    refine .edit (fun v c _ _ _ value reply hput => ?_) fun y => .create ?_
    · cases hput
      exact stocked_zset (zsetAdd_ne_empty c.1 c.2 _ _)
    · exact stocked_zset (zsetAdd_ne_empty ∅ [] _ _)

theorem zpopImpl_stocked (rev : Bool) : Preserves Stocked ω (zpopImpl ctx rev) x := by
  refine .ofOption_bind fun key _ => .tryEdit (fun v c _ hv hc =>
    ⟨fun value reply hput => ?_, fun value herror => ?_⟩) fun y => .pure _
  · obtain ⟨rfl, hempty, -⟩ := Edit.put.inj (ok_of_ite hput).2
    exact stocked_zset (of_decide_eq_false hempty)
  · cases (error_of_ite herror).2
    rw [← eq_of_zsetOf hc]
    exact hv

end SortedSets

end Handlers

/-! ## Runs -/

section Runs

theorem takesPlain_stocked : TakesPlain (Stocked (F := F)) where
  string _ := stocked_of_isString
  list _ := stocked_list
  set _ := stocked_set
  hash _ := stocked_hash

variable [F64 F] [HashOrder] [CaseTable]

theorem next_stocked {s : EngineShard F} (h : s.dbSlice.Values Stocked) (ω : Listing Bytes)
    (e : ShardEvent) : (s.next ω e).dbSlice.Values Stocked :=
  h.next takesPlain_stocked ω e fun _ _ _ _ hmem harity _ =>
    zsetTable_preserves hmem harity (fun _ => cmdZadd_stocked) (fun _ => cmdZincrby_stocked)
      cmdZrem_stocked zpopImpl_stocked

end Runs

open Persistence

theorem Persistence.Item.isString_of_mem {items : List Item} {db : UInt32} {e : RdbEntry F}
    (h : e ∈ Item.allEntries db items) : e.value.isString = true := by
  induction items generalizing db with
  | nil => cases h
  | cons item items ih =>
    rw [Item.allEntries, List.mem_append] at h
    rcases h with h | h
    · cases item with
      | entry key data expireMs =>
        obtain rfl := List.mem_singleton.mp h
        exact isString_fromBytes data
      | _ => cases h
    · exact ih h

/-- A dump loads as strings. -/
theorem isString_of_loadAll {file : Bytes} {entries : List (RdbEntry F)}
    (h : loadAll file = .ok entries) {e : RdbEntry F} (he : e ∈ entries) :
    e.value.isString = true := by
  obtain ⟨_, _, items, -, -, -, rfl⟩ := loadAll_ok_iff.mp h
  exact Item.isString_of_mem he

section Load

variable {good : PrimeValue F → Prop} {s s' : EngineShard F} {now : UInt64}

theorem loadEntry_values {entry : LoadEntry F} (hgood : good entry.value)
    (h : s.dbSlice.Values good) (hload : s.loadEntry now entry = some s') :
    s'.dbSlice.Values good := by
  rw [EngineShard.loadEntry] at hload
  split at hload
  · cases hload
    exact h
  · obtain ⟨i, -, rfl⟩ := Option.map_eq_some_iff.mp hload
    have hadded := h.apply (o := .addOrUpdate i entry.key entry.value) hgood (.arbitrary Bytes)
    dsimp only
    cases entry.expireMs with
    | none => exact hadded
    | some d => exact hadded.apply (o := .addExpire i entry.key d) trivial (.arbitrary Bytes)

theorem loadEntries_values {entries : List (LoadEntry F)} (hgood : ∀ e ∈ entries, good e.value)
    (h : s.dbSlice.Values good) (hload : s.loadEntries now entries = some s') :
    s'.dbSlice.Values good := by
  have hstart : (s.updateTime now).dbSlice.Values good := h
  rw [EngineShard.loadEntries] at hload
  generalize s.updateTime now = t at hstart hload
  induction entries generalizing t with
  | nil =>
    cases hload
    exact hstart
  | cons e entries ih =>
    rw [List.foldlM_cons] at hload
    obtain ⟨t', ht', hrest⟩ := Option.bind_eq_some_iff.mp hload
    refine ih (fun e he => hgood e (List.mem_cons_of_mem _ he)) t' ?_ hrest
    exact loadEntry_values (hgood e List.mem_cons_self) hstart ht'

end Load

/-- The shards that come about from an empty one: by commands, ticks and sweeps, and by
loading entries of a dump. -/
inductive Reached [F64 F] [HashOrder] [CaseTable] : EngineShard F → Prop
  | new : Reached .new
  | next {s : EngineShard F} (ω : Listing Bytes) (e : ShardEvent) (h : Reached s) :
      Reached (s.next ω e)
  | load {s s' : EngineShard F} {file : Bytes} {entries : List (RdbEntry F)}
      {part : List (LoadEntry F)} (now : UInt64) (h : Reached s)
      (hfile : loadAll file = .ok entries) (hpart : ∀ e ∈ part, ∃ entry ∈ entries, e = .ofRdb entry)
      (hload : s.loadEntries now part = some s') : Reached s'

theorem Reached.stocked [F64 F] [HashOrder] [CaseTable] {s : EngineShard F} (h : Reached s) :
    s.dbSlice.Values Stocked := by
  induction h with
  | new => exact DbSlice.values_new
  | next ω e _ ih => exact next_stocked ih ω e
  | load now _ hfile hpart hload ih =>
    refine loadEntries_values (fun e he => ?_) ih hload
    obtain ⟨entry, hentry, rfl⟩ := hpart e he
    exact stocked_of_isString (isString_of_loadAll hfile hentry)

/-! ## EXISTS, TYPE and the length commands -/

namespace CollectionKind

def typeName : CollectionKind → Bytes
  | .list => ascii "list"
  | .set => ascii "set"
  | .hash => ascii "hash"
  | .zset => ascii "zset"

def lengthCommand : CollectionKind → Bytes
  | .list => ascii "LLEN"
  | .set => ascii "SCARD"
  | .hash => ascii "HLEN"
  | .zset => ascii "ZCARD"

theorem typeName_of_count {kind : CollectionKind} {v : PrimeValue F} {n : Nat}
    (h : kind.count v = some n) : v.typeName = kind.typeName := by
  cases v <;> cases kind <;> first | rfl | cases h

theorem count_of_typeName {kind : CollectionKind} {v : PrimeValue F}
    (h : v.typeName = kind.typeName) : ∃ n, kind.count v = some n := by
  cases v <;> cases kind
    <;> first | exact ⟨_, rfl⟩ | exact absurd h (by simp [PrimeValue.typeName, typeName, ascii])

end CollectionKind

theorem typeName_ne_none (v : PrimeValue F) : v.typeName ≠ ascii "none" := by
  cases v <;> simp [PrimeValue.typeName, ascii]

section Replies

def CollectionKind.lengthHandler : CollectionKind → CommandContext → Command F Bytes
  | .list => ListFamily.cmdLlen
  | .set => SetFamily.cmdScard
  | .hash => HashFamily.cmdHlen
  | .zset => ZsetFamily.cmdZcard

/-- What a length command replies to the value of its key. -/
def CollectionKind.lengthReply (kind : CollectionKind) : Option (PrimeValue F) → Bytes :=
  viewed kind.count (fun n => sendInteger (Int64.ofNat n)) (sendInteger 0)

variable {ctx : CommandContext} {key : Bytes}

theorem lengthHandler_leaves (hkey : ctx.argBytes 1 = some key) (kind : CollectionKind)
    (ω : Listing Bytes) (x : Exec F) :
    Leaves ω (kind.lengthHandler ctx) x
      (kind.lengthReply ((x.slice.cell (ctx.dbIndex, key)).live x.slice.nowMs).1)
      (x.lookedUp (ctx.dbIndex, key)) := by
  have hread : ∀ {κ : Type} {f : PrimeValue F → Option κ} {present : κ → Bytes},
      (∀ v, (f v).map present = (kind.count v).map fun n => sendInteger (Int64.ofNat n)) →
      Leaves ω (arg ctx 1 >>= fun key => view f ctx.dbIndex key present (sendInteger 0)) x
        (kind.lengthReply ((x.slice.cell (ctx.dbIndex, key)).live x.slice.nowMs).1)
        (x.lookedUp (ctx.dbIndex, key)) := by
    intro κ f present hf
    have hreply : viewed f present (sendInteger 0) = kind.lengthReply := by
      funext v
      cases v with
      | none => rfl
      | some v => exact congrArg (Option.getD · _) (hf v)
    rw [← hreply]
    exact read_leaves hkey f present (sendInteger 0) ω x
  cases kind with
  | list => exact hread (f := listOf) fun v => by cases v <;> rfl
  | set => exact hread (f := setOf) fun v => by cases v <;> rfl
  | hash => exact hread (f := hashOf) fun v => by cases v <;> rfl
  | zset => exact hread (f := zsetOf) fun v => by cases v <;> rfl

def typeReply (v : Option (PrimeValue F)) : Bytes :=
  sendSimpleString ((v.map PrimeValue.typeName).getD (ascii "none"))

theorem cmdType_leaves (hkey : ctx.argBytes 1 = some key) (ω : Listing Bytes) (x : Exec F) :
    Leaves ω (cmdType ctx) x
      (typeReply ((x.slice.cell (ctx.dbIndex, key)).live x.slice.nowMs).1)
      (x.lookedUp (ctx.dbIndex, key)) := by
  have hreply : viewed some (fun v : PrimeValue F => sendSimpleString v.typeName)
      (sendSimpleString (ascii "none")) = typeReply := by
    funext v
    cases v <;> rfl
  have htype : cmdType ctx = arg (F := F) ctx 1 >>= fun key =>
      view some ctx.dbIndex key (fun v => sendSimpleString v.typeName)
        (sendSimpleString (ascii "none")) := by
    refine congrArg (arg ctx 1 >>= ·) (funext fun key =>
      congrArg (Command.find ctx.dbIndex key >>= ·) ?_)
    funext r
    cases r <;> rfl
  rw [htype, ← hreply]
  exact read_leaves hkey some _ _ ω x

theorem cmdExists_one (hkeys : ctx.argsBytes 1 = some [key]) (ω : Listing Bytes) (x : Exec F) :
    Leaves ω (cmdExists ctx) x
      (sendInteger (if ((x.slice.cell (ctx.dbIndex, key)).live x.slice.nowMs).1.isSome then 1
      else 0)) (x.lookedUp (ctx.dbIndex, key)) := by
  have hexists := cmdExists_leaves (ω := ω) (x := x) hkeys
  dsimp only [existsWalk, Walk.walk] at hexists
  rw [countTrue] at hexists
  cases hv : ((x.slice.cell (ctx.dbIndex, key)).live x.slice.nowMs).1.isSome <;> rw [hv] at hexists
    <;> exact hexists

end Replies

section Asked

variable [F64 F] [HashOrder]

theorem find_type : find (F := F) (ascii "TYPE") = some ⟨ascii "TYPE", cmdType, 2, 1⟩ :=
  find_of_getElem (n := 11) genericTable (by simp [tables]) rfl rfl

theorem find_length (kind : CollectionKind) :
    find (F := F) kind.lengthCommand = some ⟨kind.lengthCommand, kind.lengthHandler, 2, 1⟩ := by
  cases kind with
  | list => exact find_of_getElem (n := 4) listTable (by simp [tables]) rfl rfl
  | set => exact find_of_getElem (n := 5) setTable (by simp [tables]) rfl rfl
  | hash => exact find_of_getElem (n := 7) hashTable (by simp [tables]) rfl rfl
  | zset => exact find_of_getElem (n := 7) zsetTable (by simp [tables]) rfl rfl

variable [CaseTable]

section Key

variable (ω : Listing Bytes) (conn : ConnContext) (s : EngineShard F) (key : Bytes)

theorem asked_exists : asked ω conn s key (ascii "EXISTS") =
    some (sendInteger (if (s.held conn key).isSome then 1 else 0)) :=
  asked_eq find_exists rfl (cmdExists_one rfl ω _)

theorem asked_type : asked ω conn s key (ascii "TYPE") = some (typeReply (s.held conn key)) :=
  asked_eq find_type rfl (cmdType_leaves rfl ω _)

theorem asked_length (kind : CollectionKind) :
    asked ω conn s key kind.lengthCommand = some (kind.lengthReply (s.held conn key)) :=
  asked_eq (find_length kind) rfl
    (lengthHandler_leaves rfl kind ω _)

end Key

end Asked

theorem sendSimpleString_injective : Function.Injective sendSimpleString := by
  intro a b h
  exact List.append_cancel_left (List.append_cancel_right h)

theorem typeReply_none_iff {v : Option (PrimeValue F)} :
    typeReply v = sendSimpleString (ascii "none") ↔ v = none := by
  cases v with
  | none => exact iff_of_true rfl rfl
  | some v =>
    refine iff_of_false (fun h => typeName_ne_none v (sendSimpleString_injective h)) ?_
    exact Option.some_ne_none v

theorem sendInteger_ne_wrongType (n : Int64) : sendWrongType [] ≠ sendInteger n := by
  intro h
  have herr := congrArg isError h
  rw [isError_sendInteger] at herr
  cases herr

theorem ofNat_pos (hn : n ≠ 0) (hfit : n < 2 ^ 63) : 0 < Int64.ofNat n := by
  rw [Int64.lt_iff_toInt_lt, Int64.toInt_ofNat_of_lt hfit]
  exact Int.natCast_pos.mpr (Nat.pos_of_ne_zero hn)

namespace CollectionKind

variable {kind : CollectionKind} {v : Option (PrimeValue F)}

theorem lengthReply_some {n : Nat} {v : PrimeValue F} (h : kind.count v = some n) :
    kind.lengthReply (some v) = sendInteger (Int64.ofNat n) := by
  rw [lengthReply, viewed, h]
  rfl

theorem lengthReply_other {v : PrimeValue F} (h : kind.count v = none) :
    kind.lengthReply (some v) = sendWrongType [] := by
  rw [lengthReply, viewed, h]
  rfl

variable (hstocked : ∀ w, v = some w → w.Stocked ∧ ∀ n, kind.count w = some n → n < 2 ^ 63)

include hstocked

theorem lengthReply_zero_iff : kind.lengthReply v = sendInteger 0 ↔ v = none := by
  cases v with
  | none => exact iff_of_true rfl rfl
  | some w =>
    obtain ⟨hw, hfit⟩ := hstocked w rfl
    refine iff_of_false (fun h => ?_) (Option.some_ne_none w)
    cases hc : kind.count w with
    | none => exact sendInteger_ne_wrongType 0 ((lengthReply_other hc).symm.trans h)
    | some n =>
      have hpos := ofNat_pos (fun hn => hw kind (hn ▸ hc)) (hfit n hc)
      have hzero := sendInteger_injective ((lengthReply_some hc).symm.trans h)
      exact absurd (hzero ▸ hpos) (by decide)

theorem lengthReply_pos_iff : (∃ n : Int64, 0 < n ∧ kind.lengthReply v = sendInteger n) ↔
    typeReply v = sendSimpleString kind.typeName := by
  cases v with
  | none =>
    refine iff_of_false ?_ fun h => ?_
    · rintro ⟨n, hpos, h⟩
      obtain rfl : 0 = n := sendInteger_injective h
      exact absurd hpos (by decide)
    · have hname : ascii "none" = kind.typeName := sendSimpleString_injective h
      cases kind <;> exact absurd hname (by simp [typeName, ascii])
  | some w =>
    obtain ⟨hw, hfit⟩ := hstocked w rfl
    cases hc : kind.count w with
    | none =>
      refine iff_of_false ?_ fun h => ?_
      · rintro ⟨n, -, h⟩
        exact sendInteger_ne_wrongType n ((lengthReply_other hc).symm.trans h)
      · obtain ⟨n, hn⟩ := count_of_typeName (sendSimpleString_injective h)
        rw [hc] at hn
        cases hn
    | some n =>
      refine iff_of_true ⟨_, ofNat_pos (fun hn => hw kind (hn ▸ hc)) (hfit n hc),
        lengthReply_some hc⟩ ?_
      exact congrArg sendSimpleString (typeName_of_count hc)

end CollectionKind

section Result

variable [F64 F] [HashOrder] [CaseTable]

/-- No shard that comes about holds an empty collection. So the commands agree on which
collections there are, as long as their sizes fit an `i64`: `EXISTS` replies 0 where `TYPE`
replies none and every length command replies 0, and a length command replies a number above
zero where `TYPE` names its kind. -/
theorem no_empty_collection (s : EngineShard F) (h : Reached s) :
    (∀ a v, (s.dbSlice.cell a).1 = some v → ∀ kind : CollectionKind, kind.count v ≠ some 0) ∧
      ∀ (ω : Listing Bytes) (conn : ConnContext) (key : Bytes),
        (∀ v (kind : CollectionKind) n, (s.dbSlice.cell (conn.dbIndex, key)).1 = some v →
          kind.count v = some n → n < 2 ^ 63) →
        (asked ω conn s key (ascii "EXISTS") = some (sendInteger 0) ∨
          asked ω conn s key (ascii "EXISTS") = some (sendInteger 1)) ∧
        (asked ω conn s key (ascii "EXISTS") = some (sendInteger 0) ↔
          asked ω conn s key (ascii "TYPE") = some (sendSimpleString (ascii "none"))) ∧
        ∀ kind : CollectionKind,
          (asked ω conn s key kind.lengthCommand = some (sendInteger 0) ↔
            asked ω conn s key (ascii "EXISTS") = some (sendInteger 0)) ∧
          ((∃ n : Int64, 0 < n ∧ asked ω conn s key kind.lengthCommand = some (sendInteger n)) ↔
            asked ω conn s key (ascii "TYPE") = some (sendSimpleString kind.typeName)) := by
  have hstocked := h.stocked
  refine ⟨hstocked, fun ω conn key hfit => ?_⟩
  have hheld : ∀ (kind : CollectionKind) (w : PrimeValue F), s.held conn key = some w →
      w.Stocked ∧ ∀ n, kind.count w = some n → n < 2 ^ 63 := by
    intro kind w hw
    have hcell := Cell.value_of_live hw
    exact ⟨hstocked _ w hcell, fun n hn => hfit w kind n hcell hn⟩
  have hexists : asked ω conn s key (ascii "EXISTS") = some (sendInteger 0) ↔
      s.held conn key = none := by
    rw [asked_exists, Option.some.injEq, sendInteger_injective.eq_iff]
    cases s.held conn key <;> simp
  simp only [hexists, asked_type, asked_length, Option.some.injEq]
  refine ⟨?_, typeReply_none_iff.symm, fun kind => ⟨?_, ?_⟩⟩
  · rw [asked_exists]
    cases s.held conn key with
    | none => exact .inl rfl
    | some v => exact .inr rfl
  · exact CollectionKind.lengthReply_zero_iff (hheld kind)
  · exact CollectionKind.lengthReply_pos_iff (hheld kind)

end Result

section Fixed

attribute [local instance] F64.whole CaseTable.identity HashOrder.arbitrary

/-- The shard after `RPUSH k a`. -/
noncomputable def onePush : EngineShard Int :=
  EngineShard.new.next (.arbitrary Bytes) (.command ⟨0⟩ (command ["rpush", "k", "a"]))

theorem cell_onePush : (onePush.dbSlice.cell (0, ascii "k")).1 = some (.list [ascii "a"]) := by
  rfl

theorem no_empty_collection_onePush : Reached onePush ∧ ∃ n : Int64, 0 < n ∧
    asked (.arbitrary Bytes) ⟨0⟩ onePush (ascii "k") (ascii "LLEN") = some (sendInteger n) := by
  have hreached : Reached onePush := .next _ _ .new
  refine ⟨hreached, ?_⟩
  have hfit : ∀ v (kind : CollectionKind) n, (onePush.dbSlice.cell (0, ascii "k")).1 = some v →
      kind.count v = some n → n < 2 ^ 63 := by
    intro v kind n hv hn
    rw [cell_onePush] at hv
    cases hv
    cases kind <;> cases hn
    decide
  have hagree := (no_empty_collection onePush hreached).2 (.arbitrary Bytes) ⟨0⟩ (ascii "k") hfit
  exact (hagree.2.2 .list).2.mpr rfl

end Fixed

end ShrikeDb
