import ShrikeDb.Facade.Resp
import ShrikeDb.Lib.Incremental

/-! The incremental RESP parser (`resp_parser.rs`). One pass of the loop in `parse` is
a turn; the partial arguments live in the state and the partial line in the buffer. -/

namespace ShrikeDb

inductive ParseError
  | badArrayLen
  | badBulkLen
  | badInteger
  | badProtocol
deriving DecidableEq

namespace RespParser

inductive State
  | init
  | array (expected : Nat) (args : List RespExpr)
  | bulkString (expected : Nat) (args : List RespExpr) (arrayExpected : Nat)
  | inline

def maxArrLen : Nat := 1024 * 1024

def maxBulkLen : Nat := 512 * 1024 * 1024

abbrev Turn := Incremental.Turn State UInt8 (List RespExpr) ParseError

def parseInt (s : Bytes) : Option Int64 := (fromUtf8 s).bind fun s => parseI64 (Utf8.trim s)

/-! ## Lines -/

/-- What stands before the first CRLF of the data and what stands behind it. -/
def splitCrlf : Bytes → Option (Bytes × Bytes)
  | [] => none
  | b :: rest =>
    if b = 13 ∧ rest.head? = some 10 then some ([], rest.tail)
    else (splitCrlf rest).map fun r => (b :: r.1, r.2)

def splitLf : Bytes → Option (Bytes × Bytes)
  | [] => none
  | b :: rest => if b = 10 then some ([], rest) else (splitLf rest).map fun r => (b :: r.1, r.2)

/-- The line up to the first CRLF; only where the buffer has none, up to the first LF. -/
def consumeLine (buf : Bytes) : Option (Bytes × Bytes) :=
  match splitCrlf buf with
  | some r => some r
  | none => (splitLf buf).map fun r => (if r.1.getLast? = some 13 then r.1.dropLast else r.1, r.2)

def parseInlineArgs (line : Bytes) : List RespExpr :=
  match fromUtf8 line with
  | none => []
  | some s =>
    if (Utf8.trim s).isEmpty then [] else (Utf8.splitWhitespace (Utf8.trim s)).map .string

/-! ## Turns -/

/-- What the input of a turn leads to, the rest of the buffer apart. -/
inductive Action
  | next (out : Option (List RespExpr)) (state : State)
  | fail (e : ParseError)

def Action.leaving (rest : Bytes) : Action → Turn
  | .next out s => .next out s rest
  | .fail e => .fail e

def onLine (buf : Bytes) (act : Bytes → Action) : Turn :=
  match consumeLine buf with
  | some (line, rest) => (act line).leaving rest
  | none => .wait

/-- An element joins the arguments, and the last one completes the command. -/
def push (expected : Nat) (args : List RespExpr) (e : RespExpr) : Action :=
  if (args ++ [e]).length = expected then .next (some (args ++ [e])) .init
  else .next none (.array expected (args ++ [e]))

def arrayLine (line : Bytes) : Action :=
  match parseInt (line.drop 1) with
  | some n =>
    if 0 ≤ n.toInt ∧ n.toInt ≤ maxArrLen then
      if n.toInt.toNat = 0 then .next (some []) .init else .next none (.array n.toInt.toNat [])
    else .fail .badArrayLen
  | none => .fail .badArrayLen

def inlineLine (line : Bytes) : Action :=
  let args := parseInlineArgs line
  if args.isEmpty then .next none .init else .next (some args) .init

def bulkLine (expected : Nat) (args : List RespExpr) (line : Bytes) : Action :=
  match parseInt (line.drop 1) with
  | some n =>
    if n.toInt = -1 then push expected args .nil
    else if 0 ≤ n.toInt ∧ n.toInt ≤ maxBulkLen then
      .next none (.bulkString n.toInt.toNat args expected)
    else .fail .badBulkLen
  | none => .fail .badBulkLen

def intLine (expected : Nat) (args : List RespExpr) (line : Bytes) : Action :=
  match parseInt (line.drop 1) with
  | some n => push expected args (.int n)
  | none => .fail .badInteger

def turn : State → Bytes → Turn
  | .init, [] => .wait
  | .init, b :: rest =>
    if b = 42 then onLine (b :: rest) arrayLine
    else if b = 13 ∨ b = 10 then .next none .init rest
    else .next none .inline (b :: rest)
  | .inline, buf => onLine buf inlineLine
  | .array _ _, [] => .wait
  | .array expected args, b :: rest =>
    if b = 36 then onLine (b :: rest) (bulkLine expected args)
    else if b = 43 then onLine (b :: rest) fun line => push expected args (.string (line.drop 1))
    else if b = 58 then onLine (b :: rest) (intLine expected args)
    else if b = 45 then onLine (b :: rest) fun line => push expected args (.error (line.drop 1))
    else .fail .badProtocol
  | .bulkString expected args arrayExpected, buf =>
    -- the two bytes behind the payload are dropped unseen
    if buf.length < expected + 2 then .wait
    else (push arrayExpected args (.string (buf.take expected))).leaving (buf.drop (expected + 2))

/-! ## What a line leads to -/

section Lines

variable {expected : Nat} {args : List RespExpr} {e : RespExpr} {line : Bytes}
  {out : Option (List RespExpr)}
  {s : State}

theorem push_next (h : push expected args e = .next out s) :
    (args.length + 1 = expected ∧ out = some (args ++ [e]) ∧ s = .init) ∨
      (args.length + 1 ≠ expected ∧ out = none ∧ s = .array expected (args ++ [e])) := by
  rw [push, List.length_append] at h
  split at h
  · next hlen =>
    cases h
    exact .inl ⟨hlen, rfl, rfl⟩
  · next hlen =>
    cases h
    exact .inr ⟨hlen, rfl, rfl⟩

theorem arrayLine_next (h : arrayLine line = .next out s) :
    ∃ n, parseInt (line.drop 1) = some n ∧ 0 ≤ n.toInt ∧
      ((n.toInt.toNat = 0 ∧ out = some [] ∧ s = .init) ∨
        (n.toInt.toNat ≠ 0 ∧ out = none ∧ s = .array n.toInt.toNat [])) := by
  rw [arrayLine] at h
  split at h
  · next n hn =>
    split at h
    · next hrange =>
      refine ⟨n, hn, hrange.1, ?_⟩
      split at h
      · next hzero =>
        cases h
        exact .inl ⟨hzero, rfl, rfl⟩
      · next hzero =>
        cases h
        exact .inr ⟨hzero, rfl, rfl⟩
    · cases h
  · cases h

theorem inlineLine_next (h : inlineLine line = .next out s) : s = .init := by
  rw [inlineLine] at h
  split at h <;> cases h <;> rfl

theorem bulkLine_next (h : bulkLine expected args line = .next out s) :
    ∃ n, parseInt (line.drop 1) = some n ∧
      ((n.toInt = -1 ∧ push expected args .nil = .next out s) ∨
        (0 ≤ n.toInt ∧ n.toInt ≤ maxBulkLen ∧ out = none ∧
          s = .bulkString n.toInt.toNat args expected)) := by
  rw [bulkLine] at h
  split at h
  · next n hn =>
    refine ⟨n, hn, ?_⟩
    split at h
    · next hnil => exact .inl ⟨hnil, h⟩
    · split at h
      · next hrange =>
        cases h
        exact .inr ⟨hrange.1, hrange.2, rfl, rfl⟩
      · cases h
  · cases h

theorem intLine_next (h : intLine expected args line = .next out s) :
    ∃ n, parseInt (line.drop 1) = some n ∧ push expected args (.int n) = .next out s := by
  rw [intLine] at h
  split at h
  · next n hn => exact ⟨n, hn, h⟩
  · cases h

end Lines

/-! ## What a turn takes -/

variable {buf line rest : Bytes} {s : State} {act : Bytes → Action} {out : Option (List RespExpr)}

theorem splitCrlf_eq (h : splitCrlf buf = some (line, rest)) :
    buf = line ++ 13 :: 10 :: rest := by
  induction buf generalizing line with
  | nil => cases h
  | cons b buf ih =>
    rw [splitCrlf] at h
    split at h
    · next hb =>
      obtain ⟨rfl, hhead⟩ := hb
      cases h
      rw [List.nil_append, List.eq_cons_of_mem_head? hhead]
      rfl
    · obtain ⟨⟨l, r⟩, hr, heq⟩ := Option.map_eq_some_iff.mp h
      cases heq
      rw [ih hr]
      rfl

theorem splitLf_iff :
    splitLf buf = some (line, rest) ↔ buf = line ++ 10 :: rest ∧ 10 ∉ line := by
  induction buf generalizing line with
  | nil => simp [splitLf]
  | cons b buf ih =>
    rw [splitLf]
    by_cases hb : b = 10
    · subst hb
      rw [if_pos rfl]
      cases line with
      | nil => simp
      | cons c line => simp; grind
    · rw [if_neg hb]
      cases line with
      | nil => simp [hb]
      | cons c line =>
        have hmap : (splitLf buf).map (fun r => (b :: r.1, r.2)) = some (c :: line, rest) ↔
            b = c ∧ splitLf buf = some (line, rest) := by
          cases splitLf buf <;> simp [Prod.ext_iff]
          grind
        rw [hmap, ih]
        simp
        grind

/-- A line that is taken shortens the buffer. -/
theorem consumeLine_suffix (h : consumeLine buf = some (line, rest)) :
    ∃ taken, taken ≠ [] ∧ buf = taken ++ rest := by
  rw [consumeLine] at h
  split at h
  · next r hr =>
    cases h
    exact ⟨line ++ [13, 10], by simp, by simpa using splitCrlf_eq hr⟩
  · obtain ⟨⟨l, r⟩, hr, heq⟩ := Option.map_eq_some_iff.mp h
    cases heq
    exact ⟨l ++ [10], by simp, by simpa using (splitLf_iff.mp hr).1⟩

/-- A line keeps the type byte in front of it. -/
theorem consumeLine_head {b : UInt8} (hb : b ≠ 13 ∧ b ≠ 10)
    (h : consumeLine (b :: buf) = some (line, rest)) : ∃ text, line = b :: text := by
  rw [consumeLine, splitCrlf, if_neg fun h => hb.1 h.1, splitLf, if_neg hb.2] at h
  cases hcrlf : splitCrlf buf with
  | some r =>
    rw [hcrlf] at h
    cases h
    exact ⟨r.1, rfl⟩
  | none =>
    rw [hcrlf] at h
    obtain ⟨r, hr, heq⟩ := Option.map_eq_some_iff.mp h
    obtain ⟨r', -, rfl⟩ := Option.map_eq_some_iff.mp hr
    cases heq
    split
    · next hlast =>
      -- the CR that is dropped is not the type byte
      cases hr' : r'.1 with
      | nil =>
        rw [hr'] at hlast
        exact absurd (Option.some.inj hlast) hb.1
      | cons c front => exact ⟨_, rfl⟩
    · exact ⟨r'.1, rfl⟩

/-- What the state makes of a line, where the next thing it reads is one. -/
def lineAct : State → Bytes → Option (Bytes → Action)
  | .init, b :: _ => if b = 42 then some arrayLine else none
  | .inline, _ => some inlineLine
  | .array expected args, b :: _ =>
    if b = 36 then some (bulkLine expected args)
    else if b = 43 then some fun line => push expected args (.string (line.drop 1))
    else if b = 58 then some (intLine expected args)
    else if b = 45 then some fun line => push expected args (.error (line.drop 1))
    else none
  | _, _ => none

/-- The lines there are, by the state and the first byte of the buffer. -/
inductive ReadsLine : State → Bytes → (Bytes → Action) → Prop
  | inline (buf : Bytes) : ReadsLine .inline buf inlineLine
  | header (rest : Bytes) : ReadsLine .init (42 :: rest) arrayLine
  | bulk (expected : Nat) (args : List RespExpr) (rest : Bytes) :
    ReadsLine (.array expected args) (36 :: rest) (bulkLine expected args)
  | string (expected : Nat) (args : List RespExpr) (rest : Bytes) :
    ReadsLine (.array expected args) (43 :: rest) fun line =>
      push expected args (.string (line.drop 1))
  | int (expected : Nat) (args : List RespExpr) (rest : Bytes) :
    ReadsLine (.array expected args) (58 :: rest) (intLine expected args)
  | error (expected : Nat) (args : List RespExpr) (rest : Bytes) :
    ReadsLine (.array expected args) (45 :: rest) fun line =>
      push expected args (.error (line.drop 1))

theorem readsLine (h : lineAct s buf = some act) :
    ReadsLine s buf act := by
  rcases s with _ | ⟨expected, args⟩ | ⟨expected, args, n⟩ | _
  · rcases buf with _ | ⟨b, rest⟩
    · cases h
    · rw [lineAct] at h
      split at h
      · next hb =>
        cases h
        exact hb ▸ .header rest
      · cases h
  · rcases buf with _ | ⟨b, rest⟩
    · cases h
    · rw [lineAct] at h
      split at h
      · next hb =>
        cases h
        exact hb ▸ .bulk expected args rest
      · split at h
        · next hb =>
          cases h
          exact hb ▸ .string expected args rest
        · split at h
          · next hb =>
            cases h
            exact hb ▸ .int expected args rest
          · split at h
            · next hb =>
              cases h
              exact hb ▸ .error expected args rest
            · cases h
  · cases h
  · cases h
    exact .inline buf

theorem turn_line (h : lineAct s buf = some act) :
    turn s buf = onLine buf act := by
  rcases s with _ | ⟨expected, args⟩ | ⟨expected, args, n⟩ | _ <;> rcases buf with _ | ⟨b, rest⟩ <;>
    simp only [lineAct, reduceCtorEq] at h <;> grind [turn]

theorem lineAct_append (more : Bytes) (h : lineAct s buf = some act) :
    lineAct s (buf ++ more) = some act := by
  rcases s with _ | ⟨expected, args⟩ | ⟨expected, args, n⟩ | _ <;> rcases buf with _ | ⟨b, rest⟩ <;>
    first | exact h | exact absurd h nofun

theorem lineAct_of_append {more : Bytes} (hne : buf ≠ []) :
    lineAct s (buf ++ more) = lineAct s buf := by
  cases buf with
  | nil => exact absurd rfl hne
  | cons b rest => cases s <;> rfl

theorem push_eq_next (expected : Nat) (args : List RespExpr) (e : RespExpr) :
    ∃ out s, push expected args e = .next out s := by
  rw [push]
  split <;> exact ⟨_, _, rfl⟩

theorem onLine_eq_next : onLine buf act = .next out s rest ↔
      ∃ line, consumeLine buf = some (line, rest) ∧ act line = .next out s := by
  rw [onLine]
  rcases consumeLine buf with _ | ⟨line, rest'⟩
  · simp
  · cases hact : act line <;> simp [Action.leaving, hact]
    grind

theorem onLine_eq_fail {e : ParseError} :
    onLine buf act = .fail e ↔ ∃ line rest, consumeLine buf = some (line, rest) ∧
    act line = .fail e := by
  rw [onLine]
  rcases consumeLine buf with _ | ⟨line, rest'⟩
  · simp
  · cases hact : act line <;> simp [Action.leaving, hact]

theorem turn_bad {expected : Nat} {args : List RespExpr} {b : UInt8} (rest : Bytes)
    (h : lineAct (.array expected args) [b] = none) :
    turn (.array expected args) (b :: rest) = .fail .badProtocol := by
  simp only [lineAct] at h
  grind [turn]

/-- A turn that does not read a line takes one byte, none, or a payload. -/
inductive Plain : State → Bytes → Turn → Prop
  | idle : Plain .init [] .wait
  | skip {b : UInt8} (h : b = 13 ∨ b = 10) (rest : Bytes) :
      Plain .init (b :: rest) (.next none .init rest)
  | inline {b : UInt8} (hb : b ≠ 42) (h : ¬(b = 13 ∨ b = 10)) (rest : Bytes) :
    Plain .init (b :: rest) (.next none .inline (b :: rest))
  | element (expected : Nat) (args : List RespExpr) : Plain (.array expected args) [] .wait
  | bad {expected : Nat} {args : List RespExpr} {b : UInt8} (rest : Bytes)
    (h : lineAct (.array expected args) [b] = none) :
    Plain (.array expected args) (b :: rest) (.fail .badProtocol)
  | short {expected : Nat} (args : List RespExpr) (n : Nat) {buf : Bytes}
    (h : buf.length < expected + 2) : Plain (.bulkString expected args n) buf .wait
  | payload {args : List RespExpr} {n : Nat} {data tail : Bytes} {out : Option (List RespExpr)}
    {s : State} (ht : tail.length = 2) (h : push n args (.string data) = .next out s)
    (rest : Bytes) :
    Plain (.bulkString data.length args n) (data ++ tail ++ rest) (.next out s rest)

theorem turn_plain (h : lineAct s buf = none) : Plain s buf (turn s buf) := by
  rcases s with _ | ⟨expected, args⟩ | ⟨expected, args, n⟩ | _
  · rcases buf with _ | ⟨b, rest⟩
    · exact .idle
    · have hb : b ≠ 42 := by
        rintro rfl
        exact absurd h nofun
      rw [turn, if_neg hb]
      split
      · next hskip => exact .skip hskip rest
      · next hskip => exact .inline hb hskip rest
  · rcases buf with _ | ⟨b, rest⟩
    · exact .element expected args
    · rw [turn_bad rest h]
      exact .bad rest h
  · rw [turn]
    split
    · next hshort => exact .short args n hshort
    · next hlong =>
      have hdata : buf = buf.take expected ++ (buf.drop expected).take 2 ++
          buf.drop (expected + 2) := by
        rw [List.append_assoc, ← List.drop_drop, List.take_append_drop, List.take_append_drop]
      have hlen : (buf.take expected).length = expected := by
        rw [List.length_take]
        omega
      have htail : ((buf.drop expected).take 2).length = 2 := by
        rw [List.length_take, List.length_drop]
        omega
      obtain ⟨out, s, hpush⟩ := push_eq_next n args (.string (buf.take expected))
      have hp := Plain.payload htail hpush (buf.drop (expected + 2))
      rw [← hdata, hlen] at hp
      rw [hpush]
      exact hp
  · exact absurd h nofun

theorem Plain.turn_eq {t : Turn} (h : Plain s buf t) : turn s buf = t := by
  cases h with
  | idle => rfl
  | skip hb rest =>
    rcases hb with rfl | rfl <;> rfl
  | inline hb hskip rest => rw [turn, if_neg hb, if_neg hskip]
  | element expected args => rfl
  | bad rest h => exact turn_bad rest h
  | short args n hshort => exact if_pos hshort
  | payload ht hpush rest =>
    rename_i args n data tail out s
    have hlong : ¬(data ++ tail ++ rest).length < data.length + 2 := by
      rw [List.length_append, List.length_append]
      omega
    rw [turn, if_neg hlong, List.append_assoc, List.take_left, hpush, ← List.drop_drop,
      List.drop_left, ← ht, List.drop_left]
    rfl

theorem turn_suffix {s' : State} (h : turn s buf = .next out s' rest) :
    ∃ taken, buf = taken ++ rest ∧ (taken = [] → s = .init ∧ s' = .inline) := by
  cases hact : lineAct s buf with
  | some act =>
    rw [turn_line hact] at h
    obtain ⟨line, hline, _⟩ := onLine_eq_next.mp h
    obtain ⟨taken, hne, heq⟩ := consumeLine_suffix hline
    exact ⟨taken, heq, fun hnil => absurd hnil hne⟩
  | none =>
    have hp := turn_plain hact
    rw [h] at hp
    cases hp with
    | skip hb rest => exact ⟨[_], rfl, nofun⟩
    | inline hb h rest => exact ⟨[], rfl, fun _ => ⟨rfl, rfl⟩⟩
    | payload ht _ rest =>
      refine ⟨_, rfl, fun hnil => ?_⟩
      rw [List.append_eq_nil_iff] at hnil
      rw [hnil.2] at ht
      cases ht

/-- Every pass of the loop takes bytes or leaves the initial state. -/
def size (s : State) (buf : Bytes) : Nat :=
  match s with
  | .init => 2 * buf.length + 1
  | _ => 2 * buf.length

theorem size_turn {s' : State} (h : turn s buf = .next out s' rest) :
    size s' rest < size s buf := by
  have hle : size s' rest ≤ 2 * rest.length + 1 := by cases s' <;> simp [size]
  have hge : 2 * buf.length ≤ size s buf := by cases s <;> simp [size]
  obtain ⟨taken, hbuf, hinline⟩ := turn_suffix h
  cases taken with
  | nil =>
    obtain ⟨rfl, rfl⟩ := hinline rfl
    rw [hbuf]
    simp [size]
  | cons b taken =>
    have hlen := congrArg List.length hbuf
    rw [List.length_append, List.length_cons] at hlen
    omega

end RespParser

open RespParser in
def respParser : Incremental.Parser State UInt8 (List RespExpr) ParseError where
  turn := turn
  size := size
  size_next := size_turn

end ShrikeDb
