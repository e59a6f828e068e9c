import ShrikeDb.Facade.RespParser
import ShrikeDb.Facade.RespRead

/-! The RESP parser under fragmentation. Commands in the array encoding are recovered
however the stream is cut into reads. On other streams the cuts show where a line ended
by a bare LF is followed by a CRLF: `consume_line` looks for the CRLF first. -/

namespace ShrikeDb

namespace RespParser

open Incremental List

variable {s s' : State} {buf rest more : Bytes} {out : Option (List RespExpr)}

/-! ## Lines under more input -/

section Lines

variable {line : Bytes}

theorem splitCrlf_append (more : Bytes) (h : splitCrlf buf = some (line, rest)) :
    splitCrlf (buf ++ more) = some (line, rest ++ more) := by
  induction buf generalizing line with
  | nil => cases h
  | cons b buf ih =>
    rw [splitCrlf] at h
    rw [cons_append, splitCrlf]
    split at h
    · next hb =>
      cases h
      obtain ⟨rfl, hhead⟩ := hb
      rw [eq_cons_of_mem_head? hhead]
      simp
    · next hb =>
      obtain ⟨⟨l, r⟩, hr, heq⟩ := Option.map_eq_some_iff.mp h
      cases heq
      have hne : buf ≠ [] := by
        rintro rfl
        cases hr
      rw [head?_append_of_ne_nil buf hne, if_neg hb, ih hr]
      rfl

theorem splitCrlf_ne_none (line rest : Bytes) : splitCrlf (line ++ 13 :: 10 :: rest) ≠ none := by
  induction line with
  | nil => simp [splitCrlf]
  | cons b line ih =>
    rw [cons_append, splitCrlf]
    split
    · rintro ⟨⟩
    · simpa using ih

/-- A line without LF stands before its CRLF. -/
theorem splitCrlf_line (h : 10 ∉ line) (rest : Bytes) :
    splitCrlf (line ++ 13 :: 10 :: rest) = some (line, rest) := by
  induction line with
  | nil => rfl
  | cons b line ih =>
    rw [mem_cons, not_or] at h
    have hhead : ¬(b = 13 ∧ (line ++ 13 :: 10 :: rest).head? = some 10) := by
      rintro ⟨_, hc⟩
      cases line with
      | nil => exact absurd hc (by simp)
      | cons c line => simp_all
    rw [cons_append, splitCrlf, if_neg hhead, ih h.2]
    rfl

/-- No LF stands before the first CRLF of the data. -/
def Clear (data : Bytes) : Prop := ∀ line rest, splitCrlf data = some (line, rest) → 10 ∉ line

theorem consumeLine_append (hclear : Clear (buf ++ more))
    (h : consumeLine buf = some (line, rest)) :
    consumeLine (buf ++ more) = some (line, rest ++ more) := by
  rw [consumeLine] at h ⊢
  cases hcr : splitCrlf buf with
  | some r =>
    rw [hcr] at h
    cases h
    rw [splitCrlf_append more hcr]
  | none =>
    rw [hcr] at h
    obtain ⟨⟨l, r⟩, hr, heq⟩ := Option.map_eq_some_iff.mp h
    obtain ⟨hbuf, hl⟩ := splitLf_iff.mp hr
    have hlf : splitLf (buf ++ more) = some (l, r ++ more) :=
      splitLf_iff.mpr ⟨by rw [hbuf, append_assoc, cons_append], hl⟩
    cases hwhole : splitCrlf (buf ++ more) with
    | none =>
      dsimp only
      rw [hlf]
      cases heq
      rfl
    | some w =>
      -- the first LF of the whole would be that of its first CRLF, and already in the buffer
      obtain ⟨l', r'⟩ := w
      have hsplit := splitCrlf_eq hwhole
      have hlf' : splitLf (buf ++ more) = some (l' ++ [13], r') :=
        splitLf_iff.mpr ⟨by rw [hsplit]; simp, by simpa using hclear l' r' hwhole⟩
      rw [hlf, Option.some.injEq, Prod.mk.injEq] at hlf'
      rw [hlf'.1, append_assoc, singleton_append] at hbuf
      exact absurd (hbuf ▸ hcr) (splitCrlf_ne_none l' r)

theorem consumeLine_shorten (h : consumeLine (buf ++ more) = some (line, rest ++ more)) :
    consumeLine buf = some (line, rest) := by
  rw [consumeLine] at h ⊢
  cases hwhole : splitCrlf (buf ++ more) with
  | some w =>
    rw [hwhole] at h
    cases h
    have hbuf := splitCrlf_eq hwhole
    rw [← cons_append, ← cons_append, ← append_assoc, append_left_inj] at hbuf
    cases hcr : splitCrlf buf with
    | none => exact absurd (hbuf ▸ hcr) (splitCrlf_ne_none line rest)
    | some r =>
      have happ := splitCrlf_append more hcr
      rw [hwhole, Option.some.injEq, Prod.mk.injEq, append_left_inj] at happ
      exact congrArg some (Prod.ext happ.1.symm happ.2.symm)
  | none =>
    have hcr : splitCrlf buf = none := by
      cases hcr : splitCrlf buf with
      | none => rfl
      | some r => exact absurd (splitCrlf_append more hcr) (by rw [hwhole]; exact (by rintro ⟨⟩))
    rw [hwhole] at h
    obtain ⟨⟨l, r⟩, hr, heq⟩ := Option.map_eq_some_iff.mp h
    obtain ⟨hl, rfl⟩ := Prod.mk.injEq .. ▸ heq
    obtain ⟨hbuf, hlf⟩ := splitLf_iff.mp hr
    rw [← cons_append, ← append_assoc, append_left_inj] at hbuf
    rw [hcr, splitLf_iff.mpr ⟨hbuf, hlf⟩, ← hl]
    rfl

end Lines

/-! ## Turns under more input -/

/-- Wherever the parser reads a line of the stream, no LF stands before the next CRLF. -/
inductive Unambiguous : State → Bytes → Prop
  | intro {s : State} {stream : Bytes} (clear : (lineAct s stream).isSome → Clear stream)
    (next : ∀ out s' rest, turn s stream = .next out s' rest → Unambiguous s' rest) :
    Unambiguous s stream

theorem Plain.append_next (more : Bytes) (h : Plain s buf (.next out s' rest)) :
    Plain s (buf ++ more) (.next out s' (rest ++ more)) := by
  cases h with
  | skip hb rest => exact .skip hb (rest ++ more)
  | inline hb hskip rest => exact .inline hb hskip (rest ++ more)
  | payload ht hpush rest =>
    rw [append_assoc]
    exact .payload ht hpush (rest ++ more)

theorem Plain.append_fail {e : ParseError} (more : Bytes) (h : Plain s buf (.fail e)) :
    Plain s (buf ++ more) (.fail e) := by
  cases h with
  | bad rest h => exact .bad (rest ++ more) h

theorem Plain.shorten (h : Plain s (buf ++ more) (.next out s' (rest ++ more)))
    (hrest : rest ≠ []) : Plain s buf (.next out s' rest) := by
  generalize hbuf : buf ++ more = whole at h
  generalize hleft : rest ++ more = left at h
  cases h with
  | skip hb _ =>
    rw [← hleft, ← cons_append, append_left_inj] at hbuf
    exact hbuf ▸ .skip hb rest
  | inline hb hskip _ =>
    rw [← hleft, append_left_inj] at hbuf
    cases rest with
    | nil => exact absurd rfl hrest
    | cons c rest =>
      cases hleft
      exact hbuf ▸ .inline hb hskip rest
  | payload ht hpush _ =>
    rw [← hleft, ← append_assoc, append_left_inj] at hbuf
    exact hbuf ▸ .payload ht hpush rest

theorem stable : respParser.Stable Unambiguous where
  next := by
    intro s buf more out s' rest hg h
    change turn s buf = _ at h
    cases hact : lineAct s buf with
    | none => exact ((h ▸ turn_plain hact).append_next more).turn_eq
    | some act =>
      have hact' := lineAct_append more hact
      have h' := onLine_eq_next.mp ((turn_line hact).symm.trans h)
      obtain ⟨line, hline, hdo⟩ := h'
      obtain ⟨hclear, _⟩ := hg
      exact (turn_line hact').trans
        (onLine_eq_next.mpr ⟨line, consumeLine_append (hclear (by rw [hact']; rfl)) hline, hdo⟩)
  fail := by
    intro s buf more e hg h
    change turn s buf = _ at h
    cases hact : lineAct s buf with
    | none => exact ((h ▸ turn_plain hact).append_fail more).turn_eq
    | some act =>
      have hact' := lineAct_append more hact
      obtain ⟨line, rest, hline, hdo⟩ := onLine_eq_fail.mp ((turn_line hact).symm.trans h)
      obtain ⟨hclear, _⟩ := hg
      exact (turn_line hact').trans
        (onLine_eq_fail.mpr ⟨line, _, consumeLine_append (hclear (by rw [hact']; rfl)) hline, hdo⟩)
  good := by
    rintro s buf out s' rest ⟨_, hnext⟩ h
    exact hnext out s' rest h

theorem isLocal : respParser.Local where
  suffix := fun h => (turn_suffix h).imp fun _ ht => ht.1
  shorten := by
    intro s buf out s' rest more h hrest
    change turn s (buf ++ more) = _ at h
    have hne : buf ≠ [] := by
      obtain ⟨taken, heq, _⟩ := turn_suffix h
      rw [← append_assoc, append_left_inj] at heq
      exact heq ▸ append_ne_nil_of_right_ne_nil taken hrest
    have hsame : lineAct s (buf ++ more) = lineAct s buf := lineAct_of_append hne
    cases hact : lineAct s buf with
    | some act =>
      obtain ⟨line, hline, hdo⟩ := onLine_eq_next.mp ((turn_line (hsame.trans hact)).symm.trans h)
      exact (turn_line hact).trans (onLine_eq_next.mpr ⟨line, consumeLine_shorten hline, hdo⟩)
    | none =>
      exact (Plain.shorten (h ▸ turn_plain (hsame.trans hact)) hrest).turn_eq

/-! ## Encoded commands -/

/-- Input the parser reads without regard to what follows it. -/
structure Reads (s : State) (buf : Bytes) (outs : List (List RespExpr)) (s' : State)
    (rest : Bytes) :
    Prop where
  path : respParser.Path s buf outs s' rest
  clear : Unambiguous s' rest → Unambiguous s buf

theorem Reads.refl (s : State) (buf : Bytes) : Reads s buf [] s buf := ⟨.refl s buf, id⟩

theorem Reads.trans {s'' : State} {rest' : Bytes} {outs outs' : List (List RespExpr)}
    (h : Reads s buf outs s' rest) (h' : Reads s' rest outs' s'' rest') :
    Reads s buf (outs ++ outs') s'' rest' :=
  ⟨h.path.trans h'.path, fun hu => h.clear (h'.clear hu)⟩

theorem Reads.turn (h : turn s buf = .next out s' rest)
    (hclear : (lineAct s buf).isSome → Clear buf) : Reads s buf out.toList s' rest := by
  refine ⟨.single h, fun hu => ⟨hclear, fun out1 s1 rest1 h1 => ?_⟩⟩
  rw [h] at h1
  cases h1
  exact hu

theorem Reads.line {line : Bytes} {act : Bytes → Action}
    (hact : lineAct s (line ++ crlf ++ rest) = some act) (hline : 10 ∉ line)
    (h : act line = .next out s') :
    Reads s (line ++ crlf ++ rest) out.toList s' rest := by
  have hsplit : splitCrlf (line ++ crlf ++ rest) = some (line, rest) := by
    rw [append_assoc]
    exact splitCrlf_line hline rest
  have hcons : consumeLine (line ++ crlf ++ rest) = some (line, rest) := by rw [consumeLine, hsplit]
  refine .turn ((turn_line hact).trans (onLine_eq_next.mpr ⟨line, hcons, h⟩))
    fun _ line' rest' h' => ?_
  rw [hsplit] at h'
  cases h'
  exact hline

theorem parseInt_i64ToString (n : Int64) : parseInt (i64ToString n) = some n := by
  rw [parseInt, fromUtf8_i64ToString, Option.bind_some, trim_i64ToString, parseI64_i64ToString]

/-- A line of a type byte and a number. -/
theorem Reads.number {b : UInt8} {n : Int64} {act : Bytes → Action} (hb : b ≠ 10)
    (hact : lineAct s (b :: i64ToString n ++ crlf ++ rest) = some act)
    (h : act (b :: i64ToString n) = .next out s') :
    Reads s (b :: i64ToString n ++ crlf ++ rest) out.toList s' rest := by
  refine .line hact (fun hmem => ?_) h
  rw [mem_cons] at hmem
  exact hmem.elim (fun hb' => hb hb'.symm) fun hmem => (i64ToString_byte n 10 hmem).2.2 rfl

end RespParser

/-- An element of a command in the array encoding. -/
inductive Element
  | bulk (data : Bytes)
  | null
  | int (n : Int64)

namespace Element

def expr : Element → RespExpr
  | .bulk data => .string data
  | .null => .nil
  | .int n => .int n

def encode : Element → Bytes
  | .bulk data => 36 :: Decimal.ofNat data.length ++ crlf ++ (data ++ crlf)
  | .null => 36 :: Decimal.ofInt (-1) ++ crlf
  | .int n => 58 :: Decimal.ofInt n.toInt ++ crlf

def Fits : Element → Prop
  | .bulk data => data.length ≤ 536870912
  | _ => True

end Element

/-- A command that the array encoding and the limits of the parser admit. -/
structure Request where
  elements : List Element
  nonempty : elements ≠ []
  length_le : elements.length ≤ 1048576
  fits : ∀ e ∈ elements, e.Fits

namespace Request

def args (r : Request) : List RespExpr := r.elements.map Element.expr

def encode (r : Request) : Bytes :=
  42 :: Decimal.ofNat r.elements.length ++ crlf ++ r.elements.flatMap Element.encode

end Request

namespace RespParser

open List

variable {s s' : State} {buf rest more : Bytes} {out : Option (List RespExpr)}

theorem Reads.element {e : Element} (he : e.Fits) {expected : Nat} {args : List RespExpr}
    (h : push expected args e.expr = .next out s) (rest : Bytes) :
    Reads (.array expected args) (e.encode ++ rest) out.toList s rest := by
  cases e with
  | null =>
    refine .number (n := -1) (by decide) rfl ?_
    rw [bulkLine, drop_one, tail_cons, parseInt_i64ToString]
    exact h
  | int n =>
    refine .number (by decide) rfl ?_
    rw [intLine, drop_one, tail_cons, parseInt_i64ToString]
    exact h
  | bulk data =>
    obtain ⟨htext, hint⟩ := ofNat_eq_i64ToString (Nat.lt_of_le_of_lt he (by decide))
    have hhead : Reads (.array expected args) ((Element.bulk data).encode ++ rest)
        (Option.toList none) (.bulkString data.length args expected) (data ++ crlf ++ rest) := by
      rw [Element.encode, htext, append_assoc]
      refine .number (by decide) rfl ?_
      have hle : (0 : Int) ≤ data.length ∧ (data.length : Int) ≤ maxBulkLen :=
        ⟨Int.natCast_nonneg _, Int.ofNat_le.mpr he⟩
      have hne : ¬(data.length : Int) = -1 := by omega
      rw [bulkLine, drop_one, tail_cons, parseInt_i64ToString]
      dsimp only
      rw [hint, if_neg hne, if_pos hle]
      rfl
    have hbody : Reads (.bulkString data.length args expected) (data ++ crlf ++ rest) out.toList s
        rest :=
      .turn (Plain.payload rfl h rest).turn_eq (by rintro ⟨⟩)
    exact hhead.trans hbody

/-- The elements that are missing complete the command. -/
theorem Reads.elements {es : List Element} (hes : ∀ e ∈ es, e.Fits) (hne : es ≠ [])
    (args : List RespExpr) (rest : Bytes) :
    Reads (.array (args.length + es.length) args) (es.flatMap Element.encode ++ rest)
      [args ++ es.map Element.expr] .init rest := by
  induction es generalizing args with
  | nil => exact absurd rfl hne
  | cons e es ih =>
    have he := hes e mem_cons_self
    rw [flatMap_cons, append_assoc]
    cases es with
    | nil => exact .element he (if_pos (by simp)) rest
    | cons e' es' =>
      have hpush : push (args.length + (e :: e' :: es').length) args e.expr =
          .next none (.array (args.length + (e :: e' :: es').length) (args ++ [e.expr])) :=
        if_neg (by simp)
      have hrest := ih (fun x hx => hes x (mem_cons_of_mem e hx)) (cons_ne_nil _ _)
        (args ++ [e.expr])
      have hlen : (args ++ [e.expr]).length + (e' :: es').length =
          args.length + (e :: e' :: es').length := by
        simp
        omega
      rw [hlen, append_assoc] at hrest
      exact (Reads.element he hpush _).trans hrest

theorem Reads.request (r : Request) (rest : Bytes) :
    Reads .init (r.encode ++ rest) [r.args] .init rest := by
  obtain ⟨htext, hint⟩ := ofNat_eq_i64ToString (Nat.lt_of_le_of_lt r.length_le (by decide))
  have hhead : Reads .init (r.encode ++ rest) (Option.toList none)
      (.array (0 + r.elements.length) []) (r.elements.flatMap Element.encode ++ rest) := by
    rw [Request.encode, htext, append_assoc]
    refine .number (by decide) rfl ?_
    have hle : (0 : Int) ≤ r.elements.length ∧ (r.elements.length : Int) ≤ maxArrLen :=
      ⟨Int.natCast_nonneg _, Int.ofNat_le.mpr r.length_le⟩
    have hne : ¬(r.elements.length : Int).toNat = 0 := fun h0 =>
      r.nonempty (length_eq_zero_iff.mp h0)
    rw [arrayLine, drop_one, tail_cons, parseInt_i64ToString]
    dsimp only
    rw [hint, if_pos hle, if_neg hne, Nat.zero_add]
    rfl
  exact hhead.trans (.elements r.fits r.nonempty [] rest)

theorem Reads.requests (rs : List Request) :
    Reads .init (rs.flatMap Request.encode) (rs.map Request.args) .init [] := by
  induction rs with
  | nil => exact .refl .init []
  | cons r rs ih => exact (Reads.request r _).trans ih

theorem unambiguous_nil : Unambiguous .init [] := ⟨nofun, nofun⟩

theorem drain_requests (rs : List Request) :
    respParser.drain .init (rs.flatMap Request.encode) =
    (rs.map Request.args, .pending .init []) := by
  rw [(Reads.requests rs).path.drain, Incremental.Parser.drain_wait rfl, append_nil]

/-- Pipelined commands are recovered however the stream is cut, and nothing is left over. -/
theorem drive_requests (rs : List Request) (reads : List Bytes)
    (h : reads.flatten = rs.flatMap Request.encode) :
    respParser.drive .init [] reads = (rs.map Request.args, .pending .init []) := by
  rw [stable.drive_eq_drain reads (by rw [h]; exact (Reads.requests rs).clear unambiguous_nil) rfl,
    h, nil_append, drain_requests]

/-- The stream of two commands, cut inside a length, inside a line end and inside a
payload that looks like a line end. -/
theorem drive_requests_two :
    let rs : List Request :=
  [⟨[.bulk [13, 10], .null], by decide, by decide, by simp [Element.Fits]⟩,
      ⟨[.int 7], by decide, by decide, by simp [Element.Fits]⟩]
    let reads :=
      [ascii "*", ascii "2\r", ascii "\n$2\r\n\r", ascii "\n\r\n$-1\r\n*1\r\n:", ascii "7\r\n"]
    reads.flatten = rs.flatMap Request.encode ∧
      respParser.drive .init [] reads = (rs.map Request.args, .pending .init []) := by
  refine ⟨?_, drive_requests _ _ ?_⟩ <;> decide

/-! ## Streams of any bytes -/

/-- What a client sees of the parser: the commands, and the error that ends them. -/
def observed (reads : List Bytes) : List (List RespExpr) × Option ParseError :=
  ((respParser.drive .init [] reads).1, (respParser.drive .init [] reads).2.error?)

/-- However the stream is cut into reads, the parser does the same. -/
def CutsAgree (stream : Bytes) : Prop :=
  ∀ reads reads' : List Bytes, reads.flatten = stream → reads'.flatten = stream →
    observed reads = observed reads'

/-- The command or the error with which a line ends the parsing of a command. -/
def Action.verdict : Action → Option (Except ParseError (List RespExpr))
  | .next (some args) _ => some (.ok args)
  | .next none _ => none
  | .fail e => some (.error e)

/-- The parser comes to a line of the stream that ends a command in one way if it is
read up to its first LF, and in another if it is read up to the next CRLF. -/
structure Torn (stream : Bytes) where
  outs : List (List RespExpr)
  s : State
  act : Bytes → Action
  line : Bytes
  more : Bytes
  rest : Bytes
  path : respParser.Path .init stream outs s (line ++ [10] ++ (more ++ crlf ++ rest))
  lineAct_eq : lineAct s line = some act
  noLf : 10 ∉ line
  noCrlf : splitCrlf (line ++ [10] ++ (more ++ crlf ++ rest)) = some (line ++ [10] ++ more, rest)
  short : Except ParseError (List RespExpr)
  long : Except ParseError (List RespExpr)
  short_eq : (act line).verdict = some short
  long_eq : (act (line ++ [10] ++ more)).verdict = some long
  ne : short ≠ long

/-- A line with a verdict decides what a client sees, whatever is read later. -/
theorem observed_verdict {first : Bytes} {outs : List (List RespExpr)} {a : Action}
    {v : Except ParseError (List RespExpr)} (hpath : respParser.Path .init first outs s buf)
    (hturn : turn s buf = a.leaving rest) (hv : a.verdict = some v) (reads : List Bytes) :
    (∀ args, v = .ok args → outs ++ [args] <+: (observed (first :: reads)).1) ∧
      ∀ e, v = .error e → observed (first :: reads) = (outs, some e) := by
  have hdrain := hpath.drain
  rcases a with ⟨_ | args, s'⟩ | e
  · cases hv
  · cases hv
    rw [Incremental.Parser.drain_next (P := respParser) (s := s) hturn] at hdrain
    refine ⟨fun args' h => ?_, (by rintro _ ⟨⟩)⟩
    cases h
    refine .trans ?_ (Incremental.Parser.drain_isPrefix_drive (P := respParser) .init first reads)
    rw [hdrain]
    exact ⟨_, append_assoc outs [args] _⟩
  · cases hv
    rw [Incremental.Parser.drain_fail (P := respParser) (s := s) hturn] at hdrain
    refine ⟨(by rintro _ ⟨⟩), fun e' h => ?_⟩
    cases h
    rw [observed, Incremental.Parser.drive_of_failed reads hdrain, append_nil]
    rfl

/-- Two different verdicts after the same commands are seen. -/
theorem observed_ne {outs : List (List RespExpr)} {v v' : Except ParseError (List RespExpr)}
    {seen seen' : List (List RespExpr) × Option ParseError} (hne : v ≠ v')
    (h : (∀ args, v = .ok args → outs ++ [args] <+: seen.1) ∧ ∀ e, v = .error e →
    seen = (outs, some e)) (h' : (∀ args, v' = .ok args → outs ++ [args] <+: seen'.1) ∧
      ∀ e, v' = .error e → seen' = (outs, some e)) : seen ≠ seen' := by
  rintro rfl
  have hshort : ∀ {args : List RespExpr}, ¬outs ++ [args] <+: outs := fun hp => by
    have hlen := hp.length_le
    rw [length_append, length_singleton] at hlen
    omega
  rcases v with e | args <;> rcases v' with e' | args'
  · have heq := (h.2 e rfl).symm.trans (h'.2 e' rfl)
    cases heq
    exact hne rfl
  · have hp := h'.1 args' rfl
    rw [h.2 e rfl] at hp
    exact hshort hp
  · have hp := h.1 args rfl
    rw [h'.2 e' rfl] at hp
    exact hshort hp
  · have heq := prefix_of_prefix_length_le (h.1 args rfl) (h'.1 args' rfl) (by simp)
    have hargs := append_cancel_left (heq.eq_of_length (by simp))
    cases hargs
    exact hne rfl

theorem consumeLine_bare {line : Bytes} (hline : 10 ∉ line)
    (h : splitCrlf (line ++ [10] ++ (more ++ crlf ++ rest)) = some (line ++ [10] ++ more, rest)) :
    consumeLine (line ++ [10]) = some (line, []) := by
  have hnone : splitCrlf (line ++ [10]) = none := by
    cases hs : splitCrlf (line ++ [10]) with
    | none => rfl
    | some r =>
      have hlen := congrArg length (splitCrlf_eq hs)
      have heq := splitCrlf_append (more ++ crlf ++ rest) hs
      rw [h, Option.some.injEq, Prod.mk.injEq] at heq
      rw [← heq.1] at hlen
      simp at hlen
  have hcr : line.getLast? ≠ some 13 := by
    intro hlast
    obtain ⟨init, rfl⟩ := getLast?_eq_some_iff.mp hlast
    rw [append_assoc] at hnone
    exact splitCrlf_ne_none init [] hnone
  rw [consumeLine, hnone, splitLf_iff.mpr ⟨rfl, hline⟩, Option.map_some, if_neg hcr]

theorem Torn.not_cutsAgree {stream : Bytes} (t : Torn stream) : ¬CutsAgree stream := by
  intro hagree
  have hshortLine := consumeLine_bare t.noLf t.noCrlf
  have hlongLine : consumeLine (t.line ++ [10] ++ (t.more ++ crlf ++ t.rest)) =
      some (t.line ++ [10] ++ t.more, t.rest) := by rw [consumeLine, t.noCrlf]
  have hact := lineAct_append [10] t.lineAct_eq
  obtain ⟨first, hstream, _, hpath⟩ :=
    isLocal.path t.path (append_ne_nil_of_right_ne_nil _ (by rintro ⟨⟩))
  have hturn : turn t.s (t.line ++ [10]) = (t.act t.line).leaving [] := by
    rw [turn_line hact, onLine, hshortLine]
  have hturn' : turn t.s (t.line ++ [10] ++ (t.more ++ crlf ++ t.rest)) =
      (t.act (t.line ++ [10] ++ t.more)).leaving t.rest := by
    rw [turn_line (lineAct_append _ hact), onLine, hlongLine]
  refine observed_ne t.ne (observed_verdict hpath hturn t.short_eq [t.more ++ crlf ++ t.rest])
    (observed_verdict t.path hturn' t.long_eq []) (hagree _ _ ?_ ?_)
  · rw [flatten_cons, flatten_singleton]
    exact hstream.symm
  · exact flatten_singleton ..

/-- Cuts do not show where no line that is read has a bare LF before the next CRLF. They
do show where such a line ends a command. -/
theorem cutsAgree_of_unambiguous (stream : Bytes) :
    (Unambiguous .init stream → CutsAgree stream) ∧ (Torn stream → ¬CutsAgree stream) := by
  refine ⟨fun hu reads reads' h h' => ?_, fun t => t.not_cutsAgree⟩
  have hsame : ∀ r : List Bytes, r.flatten = stream →
      respParser.drive .init [] r = respParser.drain .init stream := fun r hr => by
    rw [stable.drive_eq_drain r (by rw [hr]; exact hu) rfl, hr, nil_append]
  rw [observed, observed, hsame reads h, hsame reads' h']

/-- A stream with one cut gives one command of two words, with another two commands. -/
theorem cuts_show : ¬CutsAgree (ascii "PING\nPING\r\n") := by
  intro h
  have hlen := congrArg (fun o => o.1.length)
    (h [ascii "PING\nPING\r\n"] [ascii "PING\n", ascii "PING\r\n"] (by decide) (by decide))
  exact absurd hlen (by decide +kernel)

theorem unambiguous_ping : Unambiguous .init (ascii "PING\n") := by
  refine ⟨(by rintro _ _ _ ⟨⟩), fun out s rest h => ?_⟩
  have hturn : turn .init (ascii "PING\n") = .next none .inline (ascii "PING\n") := rfl
  rw [hturn] at h
  cases h
  have hline : splitCrlf (ascii "PING\n") = none := rfl
  refine ⟨fun _ line rest h => absurd (hline.symm.trans h) (by rintro ⟨⟩), fun out s rest h => ?_⟩
  have hturn : turn .inline (ascii "PING\n") = .next (some [.string (ascii "PING")]) .init [] := rfl
  rw [hturn] at h
  cases h
  exact unambiguous_nil

def tornPing : Torn (ascii "PING\nPING\r\n") where
  outs := Option.toList none
  s := .inline
  act := inlineLine
  line := ascii "PING"
  more := ascii "PING"
  rest := []
  path := .single rfl
  lineAct_eq := rfl
  noLf := by decide
  noCrlf := by decide
  short := .ok [.string (ascii "PING")]
  long := .ok [.string (ascii "PING"), .string (ascii "PING")]
  short_eq := rfl
  long_eq := rfl
  ne := by simp

theorem cutsAgree_ping : CutsAgree (ascii "PING\n") ∧ ¬CutsAgree (ascii "PING\nPING\r\n") :=
  ⟨(cutsAgree_of_unambiguous _).1 unambiguous_ping, (cutsAgree_of_unambiguous _).2 tornPing⟩

end RespParser

end ShrikeDb
