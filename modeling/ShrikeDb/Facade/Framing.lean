import ShrikeDb.Facade.Fragments

/-! What the parser takes for the elements of a command. Each is a line, or a line with a
length and a payload of that length with two bytes behind it; together they are what was
taken behind the header. The two bytes are not looked at, so bulk strings are framed only
where the sender framed them. -/

namespace ShrikeDb.RespParser

open List

/-! ## Encodings of elements -/

/-- A line with its line end. -/
def IsLine (bytes line : Bytes) : Prop := bytes = line ++ crlf ∨ bytes = line ++ [10]

/-- The lines that are elements. -/
inductive Spells : Bytes → RespExpr → Prop
  | nil {digits : Bytes} {n : Int64} (h : parseInt digits = some n) (hn : n.toInt = -1) :
    Spells (36 :: digits) .nil
  | string (text : Bytes) : Spells (43 :: text) (.string text)
  | int {digits : Bytes} {n : Int64} (h : parseInt digits = some n) : Spells (58 :: digits) (.int n)
  | error (text : Bytes) : Spells (45 :: text) (.error text)

/-- A line of a type byte and a number. -/
def IsNumber (b : UInt8) (n : Nat) (bytes : Bytes) : Prop :=
  ∃ digits m, IsLine bytes (b :: digits) ∧ parseInt digits = some m ∧ m.toInt = n

/-- What the turns took is one encoding after another, of these elements of an array of `n`;
`tail` is what is asked of the bytes behind a payload. -/
inductive Elements (tail : Bytes → Prop) (n : Nat) : List (State × Bytes) → List RespExpr → Prop
  | nil : Elements tail n [] []
  | line {takes : List (State × Bytes)} {args : List RespExpr} {bytes line : Bytes} {e : RespExpr}
    (h : Elements tail n takes args) (hline : IsLine bytes line) (he : Spells line e) :
    Elements tail n (takes ++ [(.array n args, bytes)]) (args ++ [e])
  | bulk {takes : List (State × Bytes)} {args : List RespExpr} {bytes payload stop : Bytes}
    (h : Elements tail n takes args) (hlen : IsNumber 36 payload.length bytes) (hstop : tail stop) :
    Elements tail n
      (takes ++ [(.array n args, bytes)] ++ [(.bulkString payload.length args n, payload ++ stop)])
      (args ++ [.string payload])

/-- Line ends and blank lines in front of a command. -/
def Skipped (takes : List (State × Bytes)) : Prop :=
  ∀ t ∈ takes, t.1 = .inline ∨ t.1 = .init ∧ t.2.head? ≠ some 42

/-- A header for `n` elements, and the encodings of these elements. -/
def ArrayTaken (tail : Bytes → Prop) (n : Nat) (takes : List (State × Bytes))
    (args : List RespExpr) : Prop :=
  ∃ skipped header body, takes = skipped ++ [(.init, header)] ++ body ∧ Skipped skipped ∧
    IsNumber 42 n header ∧ Elements tail n body args

/-- The bytes behind every payload. -/
def Tails (tail : Bytes → Prop) (takes : List (State × Bytes)) : Prop :=
  ∀ k args n bytes, (State.bulkString k args n, bytes) ∈ takes → tail (bytes.drop k)

/-! ## Tails -/

section Tails

variable {tail tail' : Bytes → Prop} {n : Nat} {takes : List (State × Bytes)} {args : List RespExpr}

theorem Tails.append {takes' : List (State × Bytes)} :
    Tails tail (takes ++ takes') ↔ Tails tail takes ∧ Tails tail takes' := by
  simp only [Tails, mem_append]
  constructor
  · intro h
    exact ⟨fun k args n bytes hmem => h k args n bytes (.inl hmem),
      fun k args n bytes hmem => h k args n bytes (.inr hmem)⟩
  · rintro ⟨h, h'⟩ k args n bytes (hmem | hmem)
    · exact h k args n bytes hmem
    · exact h' k args n bytes hmem

theorem tails_line {s : State} (hs : ∀ k args n, s ≠ .bulkString k args n) (bytes : Bytes) :
    Tails tail [(s, bytes)] := by
  intro k args n bytes' hmem
  cases mem_singleton.mp hmem
  exact absurd rfl (hs k args n)

theorem tails_payload {payload stop : Bytes} :
    Tails tail [(.bulkString payload.length args n, payload ++ stop)] ↔ tail stop := by
  constructor
  · intro h
    have := h _ _ _ _ mem_cons_self
    rwa [drop_left] at this
  · intro h k args' n' bytes' hmem
    cases mem_singleton.mp hmem
    rwa [drop_left]

theorem Elements.tails (h : Elements tail n takes args) : Tails tail takes := by
  induction h with
  | nil => exact fun _ _ _ _ hmem => absurd hmem not_mem_nil
  | line h hline he ih => exact Tails.append.mpr ⟨ih, tails_line (by rintro _ _ _ ⟨⟩) _⟩
  | bulk h hlen hstop ih =>
    refine Tails.append.mpr ⟨Tails.append.mpr ⟨ih, ?_⟩, tails_payload.mpr hstop⟩
    exact tails_line (by rintro _ _ _ ⟨⟩) _

theorem Elements.retail (h : Elements tail n takes args) (ht : Tails tail' takes) :
    Elements tail' n takes args := by
  induction h with
  | nil => exact .nil
  | line h hline he ih => exact .line (ih (Tails.append.mp ht).1) hline he
  | bulk h hlen hstop ih =>
    obtain ⟨hfront, hlast⟩ := Tails.append.mp ht
    exact .bulk (ih (Tails.append.mp hfront).1) hlen (tails_payload.mp hlast)

theorem Skipped.tails (h : Skipped takes) : Tails tail takes := by
  intro k args n bytes hmem
  obtain ⟨⟨⟩⟩ | ⟨⟨⟩, -⟩ := h _ hmem

/-- Of an array that was taken only the tails are open. -/
theorem ArrayTaken.iff_tails (h : ArrayTaken tail n takes args) :
    ArrayTaken tail' n takes args ↔ Tails tail' takes := by
  constructor
  · rintro ⟨skipped, header, body, rfl, hskipped, -, hbody⟩
    refine Tails.append.mpr ⟨Tails.append.mpr ⟨hskipped.tails, ?_⟩, hbody.tails⟩
    exact tails_line (by rintro _ _ _ ⟨⟩) header
  · intro ht
    obtain ⟨skipped, header, body, rfl, hskipped, hheader, hbody⟩ := h
    exact ⟨skipped, header, body, rfl, hskipped, hheader, hbody.retail (Tails.append.mp ht).2⟩

theorem ArrayTaken.line {bytes line : Bytes} {e : RespExpr} (h : ArrayTaken tail n takes args)
    (hline : IsLine bytes line) (he : Spells line e) :
    ArrayTaken tail n (takes ++ [(.array n args, bytes)]) (args ++ [e]) := by
  obtain ⟨skipped, header, body, rfl, hskipped, hheader, hbody⟩ := h
  exact ⟨skipped, header, _, append_assoc _ _ _, hskipped, hheader, hbody.line hline he⟩

theorem ArrayTaken.bulk {bytes payload stop : Bytes} (h : ArrayTaken tail n takes args)
    (hlen : IsNumber 36 payload.length bytes) (hstop : tail stop) :
    ArrayTaken tail n
      (takes ++ [(.array n args, bytes)] ++ [(.bulkString payload.length args n, payload ++ stop)])
      (args ++ [.string payload]) := by
  obtain ⟨skipped, header, body, rfl, hskipped, hheader, hbody⟩ := h
  refine ⟨skipped, header, _, ?_, hskipped, hheader, hbody.bulk hlen hstop⟩
  simp only [append_assoc]

end Tails

/-! ## Turns -/

/-- Two bytes, whatever they are. -/
def TwoBytes (stop : Bytes) : Prop := stop.length = 2

/-- What has been taken for a command when the parser is in a state. -/
def Consumed : State → List (State × Bytes) → Prop
  | .init, takes => Skipped takes
  | .inline, takes => Skipped takes
  | .array n args, takes => ArrayTaken TwoBytes n takes args
  | .bulkString k args n, takes =>
    ∃ before bytes, takes = before ++ [(.array n args, bytes)] ∧ IsNumber 36 k bytes ∧
      ArrayTaken TwoBytes n before args

/-- What has been taken when a turn leads to a state or completes a command. -/
structure TurnConsumes (inline : Prop) (takes : List (State × Bytes)) (out : Option (List RespExpr))
    (s : State) : Prop where
  next : out = none → Consumed s takes
  done : ∀ args, out = some args → inline ∨ ArrayTaken TwoBytes args.length takes args

section Turns

variable {s s' : State} {taken rest line : Bytes} {before takes : List (State × Bytes)}
  {out : Option (List RespExpr)} {n : Nat} {args : List RespExpr} {e : RespExpr} {inline : Prop}

theorem consumeLine_isLine (h : consumeLine (taken ++ rest) = some (line, rest)) :
    IsLine taken line := by
  rw [consumeLine] at h
  split at h
  · next r hr =>
    cases h
    have heq : taken ++ rest = line ++ crlf ++ rest := by
      rw [append_assoc]
      exact splitCrlf_eq hr
    exact .inl (append_cancel_right heq)
  · obtain ⟨⟨front, rest'⟩, hr, heq⟩ := Option.map_eq_some_iff.mp h
    obtain ⟨rfl, rfl⟩ := Prod.mk.inj heq
    have heq : taken ++ rest' = front ++ [10] ++ rest' := by
      rw [append_assoc]
      exact (splitLf_iff.mp hr).1
    rw [append_cancel_right heq]
    by_cases hlast : front.getLast? = some 13
    · have hfront := dropLast_append_getLast? 13 hlast
      refine .inl ?_
      rw [if_pos hlast]
      calc front ++ [10] = front.dropLast ++ [13] ++ [10] := by rw [hfront]
        _ = front.dropLast ++ crlf := append_assoc ..
    · exact .inr (by rw [if_neg hlast])

theorem push_consumes (h : ArrayTaken TwoBytes n takes (args ++ [e]))
    (hpush : push n args e = .next out s') : TurnConsumes inline takes out s' := by
  obtain ⟨hlen, rfl, rfl⟩ | ⟨-, rfl, rfl⟩ := push_next hpush
  · refine ⟨by rintro ⟨⟩, fun args' hargs => .inr ?_⟩
    cases hargs
    rwa [length_append, show args.length + [e].length = n from hlen]
  · exact ⟨fun _ => h, by rintro _ ⟨⟩⟩

theorem arrayLine_consumes (h : Skipped before) (hline : IsLine taken (42 :: line))
    (hact : arrayLine (42 :: line) = .next out s') :
    TurnConsumes inline (before ++ [(.init, taken)]) out s' := by
  obtain ⟨m, hm, hpos, ⟨hzero, rfl, rfl⟩ | ⟨-, rfl, rfl⟩⟩ := arrayLine_next hact
  · refine ⟨by rintro ⟨⟩, fun args' hargs => .inr ?_⟩
    cases hargs
    exact ⟨before, taken, [], (append_nil _).symm, h, ⟨line, m, hline, hm, by simp; omega⟩, .nil⟩
  · refine ⟨fun _ => ?_, by rintro _ ⟨⟩⟩
    exact ⟨before, taken, [], (append_nil _).symm, h,
      ⟨line, m, hline, hm, (Int.toNat_of_nonneg hpos).symm⟩, .nil⟩

theorem bulkLine_consumes (h : ArrayTaken TwoBytes n before args)
    (hline : IsLine taken (36 :: line)) (hact : bulkLine n args (36 :: line) = .next out s') :
    TurnConsumes inline (before ++ [(.array n args, taken)]) out s' := by
  obtain ⟨m, hm, ⟨hnil, hpush⟩ | ⟨hpos, -, rfl, rfl⟩⟩ := bulkLine_next hact
  · exact push_consumes (h.line hline (.nil hm hnil)) hpush
  · refine ⟨fun _ => ?_, by rintro _ ⟨⟩⟩
    exact ⟨before, taken, rfl, ⟨line, m, hline, hm, (Int.toNat_of_nonneg hpos).symm⟩, h⟩

theorem skipped_append (h : Skipped before) (hs : s = .inline ∨ s = .init ∧ taken.head? ≠ some 42) :
    Skipped (before ++ [(s, taken)]) := by
  intro t ht
  rcases mem_append.mp ht with ht | ht
  · exact h t ht
  · cases mem_singleton.mp ht
    exact hs

theorem turn_consumes (h : Consumed s before) (ht : turn s (taken ++ rest) = .next out s' rest) :
    TurnConsumes (s = .inline) (before ++ [(s, taken)]) out s' := by
  cases hact : lineAct s (taken ++ rest) with
  | some act =>
    rw [turn_line hact] at ht
    obtain ⟨line, hcons, hdo⟩ := onLine_eq_next.mp ht
    have hline := consumeLine_isLine hcons
    generalize taken ++ rest = buf at hact hcons
    cases readsLine hact with
    | inline =>
      cases inlineLine_next hdo
      exact ⟨fun _ => skipped_append h (.inl rfl), fun _ _ => .inl rfl⟩
    | header =>
      obtain ⟨text, rfl⟩ := consumeLine_head (by decide) hcons
      exact arrayLine_consumes h hline hdo
    | bulk =>
      obtain ⟨text, rfl⟩ := consumeLine_head (by decide) hcons
      exact bulkLine_consumes h hline hdo
    | string =>
      obtain ⟨text, rfl⟩ := consumeLine_head (by decide) hcons
      exact push_consumes (ArrayTaken.line h hline (.string text)) hdo
    | int =>
      obtain ⟨text, rfl⟩ := consumeLine_head (by decide) hcons
      obtain ⟨m, hm, hpush⟩ := intLine_next hdo
      exact push_consumes (ArrayTaken.line h hline (.int hm)) hpush
    | error =>
      obtain ⟨text, rfl⟩ := consumeLine_head (by decide) hcons
      exact push_consumes (ArrayTaken.line h hline (.error text)) hdo
  | none =>
    have hplain := turn_plain hact
    rw [ht] at hplain
    generalize hbuf : taken ++ rest = buf at hplain
    cases hplain with
    | @skip b hb rest =>
      have htaken : taken = [b] := append_cancel_right hbuf
      subst htaken
      refine ⟨fun _ => skipped_append h (.inr ⟨rfl, ?_⟩), by rintro _ ⟨⟩⟩
      rcases hb with rfl | rfl <;> decide
    | inline hb hskip rest =>
      have htaken : taken = [] := append_cancel_right hbuf
      subst htaken
      exact ⟨fun _ => skipped_append h (.inr ⟨rfl, by decide⟩), by rintro _ ⟨⟩⟩
    | payload htwo hpush rest =>
      cases append_cancel_right hbuf
      obtain ⟨front, bytes, rfl, hlen, hfront⟩ := h
      exact push_consumes (hfront.bulk hlen htwo) hpush

end Turns

/-! ## Commands -/

/-- Whatever the reads, when a call completes an array command, what was taken is made of the
encodings of its elements, and the bulk strings are framed exactly when the two bytes behind
each payload are a line end. -/
theorem bulk_strings_framed_iff {buf rest : Bytes} {reads : List Bytes} {args : List RespExpr}
    {s : State} (h : respParser.receive .init buf reads = some (args, s, rest)) :
    ∃ takes, respParser.Receives .init buf reads takes args s rest ∧
      buf ++ reads.flatten = (takes.map Prod.snd).flatten ++ rest ∧
      ((∃ t ∈ takes, t.1 = .init ∧ t.2.head? = some 42) →
        (ArrayTaken (· = crlf) args.length takes args ↔ Tails (· = crlf) takes)) := by
  obtain ⟨takes, hreceives⟩ := isLocal.receives h
  refine ⟨takes, hreceives, hreceives.flatten, ?_⟩
  have hturn : ∀ {s taken rest s' before}, Consumed s before →
      respParser.turn s (taken ++ rest) = .next none s' rest →
      Consumed s' (before ++ [(s, taken)]) :=
    fun hs ht => (turn_consumes hs ht).next rfl
  have hstart : Consumed .init [] := fun _ ht => absurd ht not_mem_nil
  obtain ⟨before, s₁, taken, rfl, hbefore, hlast⟩ := hreceives.invariant hturn hstart
  rintro ⟨t, ht, hinit, hstar⟩
  rcases (turn_consumes hbefore hlast).done args rfl with rfl | htaken
  · -- an inline command has no header
    rcases mem_append.mp ht with hmem | hmem
    · rcases hbefore t hmem with hinline | ⟨-, hne⟩
      · rw [hinit] at hinline
        cases hinline
      · exact absurd hstar hne
    · cases mem_singleton.mp hmem
      cases hinit
  · exact htaken.iff_tails

section Fixed

/-- A command of one bulk string of three bytes, in two reads. -/
def abcReads (x y : UInt8) : List Bytes := [ascii "*1\r\n$3\r\na", [98, 99, x, y]]

def abcTakes (x y : UInt8) : List (State × Bytes) :=
  [(.init, ascii "*1\r\n"), (.array 1 [], ascii "$3\r\n"), (.bulkString 3 [] 1, [97, 98, 99, x, y])]

theorem receives_abc (x y : UInt8) :
    respParser.Receives .init [] (abcReads x y) (abcTakes x y) [.string (ascii "abc")] .init
    [] := by
  have hheader : respParser.turn .init (ascii "*1\r\n" ++ ascii "$3\r\na") =
      .next none (.array 1 []) (ascii "$3\r\na") := rfl
  have hlength : respParser.turn (.array 1 []) (ascii "$3\r\n" ++ ascii "a") =
      .next none (.bulkString 3 [] 1) (ascii "a") := rfl
  have hpayload : respParser.turn (.bulkString 3 [] 1) ([97, 98, 99, x, y] ++ []) =
      .next (some [.string (ascii "abc")]) .init [] := rfl
  have hcall : respParser.Takes (.bulkString 3 [] 1) (ascii "a" ++ [98, 99, x, y]) []
      (.bulkString 3 [] 1) ([97, 98, 99, x, y] ++ []) := .refl _ _
  have hfirst : respParser.Takes .init ([] ++ ascii "*1\r\n$3\r\na")
      [(.init, ascii "*1\r\n"), (.array 1 [], ascii "$3\r\n")] (.bulkString 3 [] 1) (ascii "a") :=
    .step hheader (.step hlength (.refl _ _))
  exact .more hfirst rfl (.last hcall hpayload)

/-- The payload is accepted with any two bytes behind it. -/
theorem unframed_accepted :
    respParser.receive .init [] (abcReads 88 89) = some ([.string (ascii "abc")], .init, []) ∧
      respParser.Receives .init [] (abcReads 88 89) (abcTakes 88 89) [.string (ascii "abc")] .init
      [] ∧ ¬ArrayTaken (· = crlf) 1 (abcTakes 88 89) [.string (ascii "abc")] := by
  refine ⟨(receives_abc 88 89).receive, receives_abc 88 89, fun h => ?_⟩
  have htail := h.iff_tails.mp h 3 [] 1 [97, 98, 99, 88, 89] (by simp [abcTakes])
  exact absurd htail (by decide)

/-- With a line end behind the payload. -/
theorem bulk_strings_framed_abc : ∃ takes,
    respParser.Receives .init [] (abcReads 13 10) takes [.string (ascii "abc")] .init [] ∧
      [] ++ (abcReads 13 10).flatten = (takes.map Prod.snd).flatten ++ [] ∧
      ((∃ t ∈ takes, t.1 = .init ∧ t.2.head? = some 42) →
        (ArrayTaken (· = crlf) 1 takes [.string (ascii "abc")] ↔ Tails (· = crlf) takes)) :=
  bulk_strings_framed_iff (receives_abc 13 10).receive

end Fixed

end ShrikeDb.RespParser
