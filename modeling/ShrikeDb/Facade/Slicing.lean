import ShrikeDb.Facade.RespParser

/-! The parser as the source slices its buffer (`resp_parser.rs`). An index or a slice out of
range is a panic, each pass of the loop takes a unit of fuel, and a call leaves a state and a
buffer whatever it returns. Pass by pass this is the parser of turns, so no call panics, and
the size of the state and the buffer bounds the passes. -/

namespace ShrikeDb.RespParser

open List

inductive ParseResult
  | complete (args : List RespExpr)
  | incomplete
  | error (e : ParseError)

/-- What one pass of the loop does. -/
inductive Pass
  | again (state : State) (buf : Bytes)
  | done (result : ParseResult) (state : State) (buf : Bytes)

inductive Call
  | panic
  | outOfFuel
  | returned (result : ParseResult) (state : State) (buf : Bytes)

def Action.pass (rest : Bytes) : Action → Pass
  | .next none s => .again s rest
  | .next (some args) s => .done (.complete args) s rest
  | .fail e => .done (.error e) .init rest

namespace Sliced

variable {s s' : State} {buf rest : Bytes}

/-! ## Slices -/

/-- What `split_to` splits off, and what is left. -/
def splitTo (buf : Bytes) (i : Nat) : Option (Bytes × Bytes) :=
  if i ≤ buf.length then some (buf.take i, buf.drop i) else none

/-- Use `&line[1..]`. -/
def fromOne (act : Bytes → Action) (line : Bytes) : Option Action :=
  if 1 ≤ line.length then some (act line) else none

/-- The first loop of `consume_line`, with so many indices left. -/
def findCrlf (data : Bytes) (i : Nat) : Nat → Option (Option Nat)
  | 0 => some none
  | left + 1 =>
    data[i]?.bind fun b =>
      if b = 13 then
        data[i + 1]?.bind fun c => if c = 10 then some (some i) else findCrlf data (i + 1) left
      else findCrlf data (i + 1) left

def findLf (data : Bytes) (i : Nat) : Nat → Option (Option Nat)
  | 0 => some none
  | left + 1 => data[i]?.bind fun b => if b = 10 then some (some i) else findLf data (i + 1) left

/-- Where the line ends that an LF at an index ends. -/
def lineEnd (data : Bytes) (i : Nat) : Option Nat :=
  if 0 < i then data[i - 1]?.map fun b => if b = 13 then i - 1 else i else some i

def consumeLine (buf : Bytes) : Option (Option (Bytes × Bytes)) :=
  (findCrlf buf 0 (buf.length - 1)).bind fun
    | some i => (splitTo buf i).bind fun r => (splitTo r.2 2).map fun r' => some (r.1, r'.2)
    | none =>
      (findLf buf 0 buf.length).bind fun
        | some i =>
          (lineEnd buf i).bind fun stop =>
            (splitTo buf stop).bind fun r => (splitTo r.2 (i - stop + 1)).map fun r' =>
              some (r.1, r'.2)
        | none => some none

/-! ## The loop -/

def onLine (s : State) (buf : Bytes) (act : Bytes → Option Action) : Option Pass :=
  (consumeLine buf).bind fun
    | some (line, rest) => (act line).map (Action.pass rest)
    | none => some (.done .incomplete s buf)

/-- `none` is a panic. -/
def pass : State → Bytes → Option Pass
  | .init, buf =>
    if buf.isEmpty then some (.done .incomplete .init buf)
    else
      buf[0]?.bind fun b =>
        if b = 42 then onLine .init buf (fromOne arrayLine)
        else if b = 13 ∨ b = 10 then (splitTo buf 1).map fun r => .again .init r.2
        else some (.again .inline buf)
  | .inline, buf => onLine .inline buf fun line => some (inlineLine line)
  | .array expected args, buf =>
    if buf.isEmpty then some (.done .incomplete (.array expected args) buf)
    else
      buf[0]?.bind fun b =>
        if b = 36 then onLine (.array expected args) buf (fromOne (bulkLine expected args))
        else if b = 43 then
          onLine (.array expected args) buf
            (fromOne fun line => push expected args (.string (line.drop 1)))
        else if b = 58 then onLine (.array expected args) buf (fromOne (intLine expected args))
        else if b = 45 then
          onLine (.array expected args) buf (fromOne fun line =>
            push expected args (.error (line.drop 1)))
        else some (.done (.error .badProtocol) .init buf)
  | .bulkString expected args arrayExpected, buf =>
    -- a sum of two `usize`
    let needed := (expected + 2) % 2 ^ 64
    if buf.length < needed
      then some (.done .incomplete (.bulkString expected args arrayExpected) buf)
    else
      (splitTo buf expected).bind fun r =>
        (splitTo r.2 2).map fun r' => (push arrayExpected args (.string r.1)).pass r'.2

def parse : Nat → State → Bytes → Call
  | 0, _, _ => .outOfFuel
  | fuel + 1, s, buf =>
    match pass s buf with
    | none => .panic
    | some (.again s' rest) => parse fuel s' rest
    | some (.done result s' rest) => .returned result s' rest

/-- The states between calls; what is read in between can put anything into the buffer. -/
inductive Reachable : State → Prop
  | new : Reachable .init
  | parse {fuel : Nat} {s s' : State} {buf rest : Bytes} {result : ParseResult} (h : Reachable s)
    (hcall : parse fuel s buf = .returned result s' rest) : Reachable s'

/-! ## Lines -/

theorem splitTo_append (taken rest : Bytes) :
    splitTo (taken ++ rest) taken.length = some (taken, rest) := by
  rw [splitTo, if_pos, take_left, drop_left]
  rw [length_append]
  omega

/-- The end of a line with one byte more in front, counted from one byte less. -/
theorem map_length_cons (b : UInt8) (i : Nat) (found : Option (Bytes × Bytes)) :
    (found.map fun r => (b :: r.1, r.2)).map (fun r => i + r.1.length) =
      found.map fun r => i + [b].length + r.1.length := by
  rw [Option.map_map]
  refine congrFun (congrArg _ (funext fun r => ?_)) _
  simp only [Function.comp_apply, length_cons, length_nil]
  omega

theorem findCrlf_eq (before data : Bytes) :
    findCrlf (before ++ data) before.length (data.length - 1) =
      some ((splitCrlf data).map fun r => before.length + r.1.length) := by
  induction data generalizing before with
  | nil => rfl
  | cons b data ih =>
    cases data with
    | nil => simp [findCrlf, splitCrlf]
    | cons c data =>
      have hrest := ih (before ++ [b])
      rw [append_assoc, length_append] at hrest
      have hfirst : (before ++ b :: c :: data)[before.length]? = some b := by simp
      have hsecond : (before ++ b :: c :: data)[before.length + 1]? = some c := by simp
      change findCrlf _ _ (data.length + 1) = _
      rw [findCrlf, hfirst, hsecond, splitCrlf, Option.bind_some, Option.bind_some, head?_cons]
      rw [← map_length_cons b] at hrest
      by_cases hb : b = 13
      · by_cases hc : c = 10
        · subst hb hc
          rfl
        · rw [if_pos hb, if_neg hc, if_neg fun h => hc (Option.some.inj h.2)]
          exact hrest
      · rw [if_neg hb, if_neg fun h => hb h.1]
        exact hrest

theorem findLf_eq (before data : Bytes) :
    findLf (before ++ data) before.length data.length =
      some ((splitLf data).map fun r => before.length + r.1.length) := by
  induction data generalizing before with
  | nil => rfl
  | cons b data ih =>
    have hrest := ih (before ++ [b])
    rw [append_assoc, length_append] at hrest
    have hfirst : (before ++ b :: data)[before.length]? = some b := by simp
    rw [← map_length_cons b] at hrest
    rw [length_cons, findLf, hfirst, splitLf, Option.bind_some]
    by_cases hb : b = 10
    · rw [if_pos hb, if_pos hb]
      rfl
    · rw [if_neg hb, if_neg hb]
      exact hrest

theorem lineEnd_eq (line rest : Bytes) :
    lineEnd (line ++ rest) line.length =
      some (if line.getLast? = some 13 then line.dropLast else line).length := by
  rcases eq_nil_or_concat line with rfl | ⟨front, b, rfl⟩
  · rfl
  · have hget : (front.concat b ++ rest)[(front.concat b).length - 1]? = some b := by simp
    rw [lineEnd, hget, if_pos (by simp)]
    by_cases hb : b = 13
    · simp [hb]
    · simp [hb]

/-- The indices stay in range, and they cut off the line. -/
theorem consumeLine_eq (buf : Bytes) : consumeLine buf = some (RespParser.consumeLine buf) := by
  have hcrlf := findCrlf_eq [] buf
  have hlf := findLf_eq [] buf
  simp only [nil_append, length_nil, Nat.zero_add] at hcrlf hlf
  rw [consumeLine, RespParser.consumeLine, hcrlf]
  cases hsplit : splitCrlf buf with
  | some r =>
    obtain ⟨line, rest⟩ := r
    have hbuf := splitCrlf_eq hsplit
    have htwo : splitTo (13 :: 10 :: rest) 2 = some ([13, 10], rest) := splitTo_append [13, 10] rest
    dsimp only [Option.map_some, Option.bind_some]
    rw [hbuf, splitTo_append, Option.bind_some, htwo]
    rfl
  | none =>
    dsimp only [Option.map_none, Option.bind_some]
    rw [hlf]
    cases hsplit' : splitLf buf with
    | none => rfl
    | some r =>
      obtain ⟨line, rest⟩ := r
      obtain ⟨hbuf, -⟩ := splitLf_iff.mp hsplit'
      dsimp only [Option.map_some, Option.bind_some]
      rw [hbuf, lineEnd_eq, Option.bind_some]
      generalize hkept : (if line.getLast? = some 13 then line.dropLast else line) = kept
      obtain ⟨dropped, rfl⟩ : kept <+: line := by
        rw [← hkept]
        split
        · exact dropLast_prefix line
        · exact prefix_rfl
      have hsecond := splitTo_append (dropped ++ [10]) rest
      have hlen : (kept ++ dropped).length - kept.length + 1 = (dropped ++ [10]).length := by simp
      rw [append_assoc] at hsecond
      rw [append_assoc, splitTo_append, Option.bind_some, hlen]
      exact congrArg _ hsecond

/-! ## Passes and turns -/

/-- No payload is announced that is longer than the parser allows. -/
def Bounded : State → Prop
  | .bulkString expected _ _ => expected ≤ maxBulkLen
  | _ => True

/-- A pass does what the turn does; of a turn that fails it says what it leaves. -/
inductive Agrees (s : State) (buf : Bytes) : Turn → Pass → Prop
  | again {s' : State} {rest : Bytes} : Agrees s buf (.next none s' rest) (.again s' rest)
  | complete {args : List RespExpr} {s' : State} {rest : Bytes} :
    Agrees s buf (.next (some args) s' rest) (.done (.complete args) s' rest)
  | incomplete : Agrees s buf .wait (.done .incomplete s buf)
  | error {e : ParseError} {rest : Bytes} (h : rest <:+ buf) :
    Agrees s buf (.fail e) (.done (.error e) .init rest)

theorem Agrees.action (h : rest <:+ buf) (a : Action) :
    Agrees s buf (a.leaving rest) (a.pass rest) := by
  rcases a with ⟨_ | args, s'⟩ | e
  · exact .again
  · exact .complete
  · exact .error h

theorem onLine_agrees {act : Bytes → Action} {act' : Bytes → Option Action}
    (h : ∀ line rest, RespParser.consumeLine buf = some (line, rest) →
      act' line = some (act line)) :
    ∃ p, onLine s buf act' = some p ∧ Agrees s buf (RespParser.onLine buf act) p := by
  rw [onLine, consumeLine_eq, RespParser.onLine, Option.bind_some]
  rcases hline : RespParser.consumeLine buf with _ | ⟨line, rest⟩
  · exact ⟨_, rfl, .incomplete⟩
  · obtain ⟨taken, -, hbuf⟩ := consumeLine_suffix hline
    dsimp only
    rw [h line rest hline, Option.map_some]
    exact ⟨_, rfl, .action ⟨taken, hbuf.symm⟩ _⟩

theorem fromOne_agrees {b : UInt8} (hb : b ≠ 13 ∧ b ≠ 10) (act : Bytes → Action) :
    ∃ p, onLine s (b :: buf) (fromOne act) = some p ∧
      Agrees s (b :: buf) (RespParser.onLine (b :: buf) act) p :=
  onLine_agrees fun _ _ hline => by
    obtain ⟨text, rfl⟩ := consumeLine_head hb hline
    exact if_pos (Nat.succ_pos _)

theorem pass_agrees (h : Bounded s) (buf : Bytes) :
    ∃ p, pass s buf = some p ∧ Agrees s buf (turn s buf) p := by
  cases s with
  | init =>
    cases buf with
    | nil => exact ⟨_, rfl, .incomplete⟩
    | cons b buf =>
      change ∃ p, (if b = 42 then _ else if b = 13 ∨ b = 10 then _ else _) = some p ∧ _
      rw [turn]
      by_cases hstar : b = 42
      · rw [if_pos hstar, if_pos hstar]
        exact fromOne_agrees (hstar ▸ by decide) arrayLine
      · rw [if_neg hstar, if_neg hstar]
        by_cases hskip : b = 13 ∨ b = 10
        · rw [if_pos hskip, if_pos hskip, show splitTo (b :: buf) 1 = _ from splitTo_append [b] buf]
          exact ⟨_, rfl, .again⟩
        · rw [if_neg hskip, if_neg hskip]
          exact ⟨_, rfl, .again⟩
  | inline => exact onLine_agrees fun _ _ _ => rfl
  | array expected args =>
    cases buf with
    | nil => exact ⟨_, rfl, .incomplete⟩
    | cons b buf =>
      change ∃ p, (if b = 36 then _ else if b = 43 then _ else if b = 58 then _ else if b =
        45 then _
        else _) = some p ∧ _
      rw [turn]
      split
      · next hb => exact fromOne_agrees (hb ▸ by decide) _
      · split
        · next hb => exact fromOne_agrees (hb ▸ by decide) _
        · split
          · next hb => exact fromOne_agrees (hb ▸ by decide) _
          · split
            · next hb => exact fromOne_agrees (hb ▸ by decide) _
            · exact ⟨_, rfl, .error suffix_rfl⟩
  | bulkString expected args arrayExpected =>
    have hneeded : (expected + 2) % 2 ^ 64 = expected + 2 :=
      Nat.mod_eq_of_lt (lt_of_le_of_lt (Nat.add_le_add_right h 2) (by decide))
    rw [pass, turn, hneeded]
    split
    · exact ⟨_, rfl, .incomplete⟩
    · next hlong =>
      have hfirst : expected ≤ buf.length := by omega
      have hsecond : 2 ≤ (buf.drop expected).length := by
        rw [length_drop]
        omega
      rw [splitTo, if_pos hfirst, Option.bind_some, splitTo, if_pos hsecond, Option.map_some,
        drop_drop]
      exact ⟨_, rfl, .action (drop_suffix _ _) _⟩

variable {out : Option (List RespExpr)}

theorem push_bounded {expected : Nat} {args : List RespExpr} {e : RespExpr}
    (h : push expected args e = .next out s) : Bounded s := by
  obtain ⟨-, -, rfl⟩ | ⟨-, -, rfl⟩ := push_next h
  · trivial
  · trivial

theorem line_bounded {line : Bytes} {act : Bytes → Action} (hact : lineAct s buf = some act)
    (h : act line = .next out s') : Bounded s' := by
  cases readsLine hact with
  | inline =>
    cases inlineLine_next h
    trivial
  | header =>
    obtain ⟨n, -, -, ⟨-, -, rfl⟩ | ⟨-, -, rfl⟩⟩ := arrayLine_next h
    · trivial
    · trivial
  | bulk =>
    obtain ⟨n, -, ⟨-, hpush⟩ | ⟨-, hle, -, rfl⟩⟩ := bulkLine_next h
    · exact push_bounded hpush
    · exact Int.toNat_le.mpr hle
  | string => exact push_bounded h
  | int =>
    obtain ⟨n, -, hpush⟩ := intLine_next h
    exact push_bounded hpush
  | error => exact push_bounded h

theorem turn_bounded (h : turn s buf = .next out s' rest) : Bounded s' := by
  cases hact : lineAct s buf with
  | some act =>
    rw [turn_line hact] at h
    obtain ⟨line, -, hdo⟩ := onLine_eq_next.mp h
    exact line_bounded hact hdo
  | none =>
    have hplain := turn_plain hact
    rw [h] at hplain
    cases hplain with
    | skip => trivial
    | inline => trivial
    | payload ht hpush rest => exact push_bounded hpush

/-! ## Calls -/

variable {result : ParseResult} {fuel : Nat}

theorem parse_again (h : pass s buf = some (.again s' rest)) (hfuel : 0 < fuel) :
    parse fuel s buf = parse (fuel - 1) s' rest := by
  cases fuel with
  | zero => cases hfuel
  | succ fuel => rw [parse, h, Nat.add_sub_cancel]

theorem parse_done (h : pass s buf = some (.done result s' rest)) (hfuel : 0 < fuel) :
    parse fuel s buf = .returned result s' rest := by
  cases fuel with
  | zero => cases hfuel
  | succ fuel => rw [parse, h]

/-- What the call does, with any fuel above the size. -/
theorem parse_spec (h : Bounded s) (buf : Bytes) : ∃ result s' rest,
    (∀ fuel, size s buf < fuel → parse fuel s buf = .returned result s' rest) ∧ rest <:+ buf ∧
      Bounded s' ∧ (result = .incomplete → turn s' rest = .wait) := by
  induction s, buf using respParser.turns with
  | next s buf out s1 rest1 ht ih =>
    obtain ⟨taken, hbuf, -⟩ := turn_suffix ht
    have hsuffix : rest1 <:+ buf := ⟨taken, hbuf.symm⟩
    obtain ⟨p, hpass, hagrees⟩ := pass_agrees h buf
    rw [show turn s buf = _ from ht] at hagrees
    cases hagrees with
    | again =>
      obtain ⟨result, s', rest, hcall, hsuf, hbounded, hwait⟩ := ih (turn_bounded ht)
      refine ⟨result, s', rest, fun fuel hfuel => ?_, hsuf.trans hsuffix, hbounded, hwait⟩
      have hsize := size_turn ht
      rw [parse_again hpass (by omega)]
      exact hcall (fuel - 1) (by omega)
    | complete =>
      exact ⟨_, _, _, fun fuel hfuel => parse_done hpass (by omega), hsuffix,
        turn_bounded ht, by rintro ⟨⟩⟩
  | wait s buf ht =>
    obtain ⟨p, hpass, hagrees⟩ := pass_agrees h buf
    rw [show turn s buf = _ from ht] at hagrees
    cases hagrees with
    | incomplete =>
      exact ⟨_, _, _, fun fuel hfuel => parse_done hpass (by omega), suffix_rfl, h, fun _ => ht⟩
  | fail s buf e ht =>
    obtain ⟨p, hpass, hagrees⟩ := pass_agrees h buf
    rw [show turn s buf = _ from ht] at hagrees
    cases hagrees with
    | error hsuf =>
      exact ⟨_, _, _, fun fuel hfuel => parse_done hpass (by omega), hsuf, trivial, by rintro ⟨⟩⟩

theorem parse_of_wait (h : Bounded s) (ht : turn s buf = .wait) (hfuel : 0 < fuel) :
    parse fuel s buf = .returned .incomplete s buf := by
  obtain ⟨p, hpass, hagrees⟩ := pass_agrees h buf
  rw [ht] at hagrees
  cases hagrees with
  | incomplete => exact parse_done hpass hfuel

theorem returned_bounded (h : Bounded s) (hcall : parse fuel s buf = .returned result s' rest) :
    Bounded s' := by
  induction fuel generalizing s buf with
  | zero => cases hcall
  | succ fuel ih =>
    obtain ⟨p, hpass, hagrees⟩ := pass_agrees h buf
    generalize hturn : turn s buf = t at hagrees
    cases hagrees with
    | again => exact ih (turn_bounded hturn) ((parse_again hpass fuel.succ_pos).symm.trans hcall)
    | complete =>
      cases (parse_done hpass fuel.succ_pos).symm.trans hcall
      exact turn_bounded hturn
    | incomplete =>
      cases (parse_done hpass fuel.succ_pos).symm.trans hcall
      exact h
    | error =>
      cases (parse_done hpass fuel.succ_pos).symm.trans hcall
      trivial

theorem Reachable.bounded (h : Reachable s) : Bounded s := by
  induction h with
  | new => trivial
  | parse h hcall ih => exact returned_bounded ih hcall

/-- A call returns, without a panic, from every state the parser can be in and with any
bytes in the buffer: it leaves an end of them there, and where it waits for more, the next call
on the same buffer waits as well and changes nothing. -/
theorem parse_always_returns (h : Reachable s) (buf : Bytes) : ∃ result s' rest,
    (∀ fuel, size s buf < fuel → parse fuel s buf = .returned result s' rest) ∧ rest <:+ buf ∧
      (result = .incomplete → ∀ fuel, 0 < fuel →
        parse fuel s' rest = .returned .incomplete s' rest) := by
  obtain ⟨result, s', rest, hcall, hsuffix, hbounded, hwait⟩ := parse_spec h.bounded buf
  exact ⟨result, s', rest, hcall, hsuffix, fun hinc fuel hfuel =>
    parse_of_wait hbounded (hwait hinc) hfuel⟩

/-- A call that has only part of a payload. -/
theorem parse_always_returns_half : ∃ result s' rest,
    (∀ fuel, size .init (ascii "*1\r\n$3\r\nab") < fuel →
      parse fuel .init (ascii "*1\r\n$3\r\nab") = .returned result s' rest) ∧
      rest <:+ ascii "*1\r\n$3\r\nab" ∧
      (result = .incomplete → ∀ fuel, 0 < fuel →
        parse fuel s' rest = .returned .incomplete s' rest) :=
  parse_always_returns .new _

end Sliced

end ShrikeDb.RespParser
