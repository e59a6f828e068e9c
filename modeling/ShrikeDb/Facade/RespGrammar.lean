import ShrikeDb.Facade.RespRead

/-! RESP2 values as byte strings, and that the reply builder writes them. Lengths and
counts go through `as i64`, so a reply of `2 ^ 63` bytes or more, which no buffer holds,
is left out. -/

namespace ShrikeDb

open ReplyBuilder

/-- A text that fits on one line. -/
def OneLine (text : Bytes) : Prop := 13 ∉ text ∧ 10 ∉ text

instance decidableOneLine (text : Bytes) :
    Decidable (OneLine text) := inferInstanceAs (Decidable (_ ∧ _))

/-- The byte string is exactly one RESP2 value. -/
inductive Resp2 : Bytes → Prop
  | simple {text : Bytes} (h : OneLine text) : Resp2 (43 :: text ++ crlf)
  | error {text : Bytes} (h : OneLine text) : Resp2 (45 :: text ++ crlf)
  | int (n : Int64) : Resp2 (58 :: Decimal.ofInt n.toInt ++ crlf)
  | bulk (data : Bytes) : Resp2 (36 :: Decimal.ofNat data.length ++ crlf ++ data ++ crlf)
  | null : Resp2 (36 :: Decimal.ofInt (-1) ++ crlf)
  | array {items : List Bytes} (h : ∀ item ∈ items, Resp2 item) :
    Resp2 (42 :: Decimal.ofNat items.length ++ crlf ++ items.flatten)

/-- One RESP2 value, if it fits a buffer. -/
structure WellFormed (reply : Bytes) : Prop where
  ne_nil : reply ≠ []
  resp2 : reply.length < 2 ^ 63 → Resp2 reply

theorem Resp2.wellFormed {reply : Bytes} (h : Resp2 reply) : WellFormed reply := by
  refine ⟨?_, fun _ => h⟩
  cases h <;> exact nofun

/-- An error of more than one line is no RESP2 value. -/
theorem Resp2.oneLine_of_error {text : Bytes} (h : Resp2 (45 :: text ++ crlf)) : OneLine text := by
  generalize hreply : 45 :: text ++ crlf = reply at h
  cases h with
  | error h =>
    rw [List.append_left_inj, List.cons.injEq] at hreply
    exact hreply.2 ▸ h
  | simple h => cases hreply
  | int n => cases hreply
  | bulk data => cases hreply
  | null => cases hreply
  | array h => cases hreply

/-! ## The reply builder -/

theorem wf_simple {msg : Bytes} (h : OneLine msg) : WellFormed (sendSimpleString msg) :=
  (Resp2.simple h).wellFormed

theorem wf_ok : WellFormed sendOk := @wf_simple (ascii "OK") (by simp [OneLine, ascii])

theorem wf_pong : WellFormed sendPong := @wf_simple (ascii "PONG") (by simp [OneLine, ascii])

theorem OneLine.append {a b : Bytes} (ha : OneLine a) (hb : OneLine b) : OneLine (a ++ b) :=
  ⟨fun h => (List.mem_append.mp h).elim ha.1 hb.1, fun h => (List.mem_append.mp h).elim ha.2 hb.2⟩

theorem wf_err {msg : Bytes} (h : OneLine msg) : WellFormed (sendErr msg) :=
  (Resp2.error (OneLine.append (a := ascii "ERR ") (by simp [OneLine, ascii]) h)).wellFormed

theorem wf_wrongType : WellFormed (sendWrongType []) := by
  have htext : sendWrongType [] =
      45 :: ascii "WRONGTYPE Operation against a key holding the wrong kind of value" ++ crlf := by
    decide +kernel
  rw [htext]
  exact (Resp2.error (by simp [OneLine, ascii])).wellFormed

theorem wf_null : WellFormed sendNull := Resp2.null.wellFormed

theorem wf_int (n : Int64) : WellFormed (sendInteger n) := (Resp2.int n).wellFormed

theorem wf_bulk (data : Bytes) : WellFormed (sendBulkString data) := by
  refine ⟨nofun, fun hlen => ?_⟩
  have hdata : data.length < 2 ^ 63 := by
    rw [sendBulkString, List.length_append, List.length_append] at hlen
    omega
  have hbulk := Resp2.bulk data
  rw [(ofNat_eq_i64ToString hdata).1] at hbulk
  exact hbulk

theorem wf_optional (v : Option Bytes) : WellFormed (sendOptional v) := by
  cases v with
  | none => exact wf_null
  | some v => exact wf_bulk v

theorem length_le_flatten {items : List Bytes} (h : ∀ item ∈ items, item ≠ []) :
    items.length ≤ items.flatten.length := by
  induction items with
  | nil => exact Nat.zero_le _
  | cons item items ih =>
    have hpos := List.length_pos_of_ne_nil (h item List.mem_cons_self)
    have hrest := ih fun x hx => h x (List.mem_cons_of_mem item hx)
    rw [List.flatten_cons, List.length_append, List.length_cons]
    omega

theorem wf_array {n : Nat} {items : List Bytes} (hn : items.length = n)
    (h : ∀ item ∈ items, WellFormed item) : WellFormed (sendArrayLen n ++ items.flatten) := by
  refine ⟨nofun, fun hlen => ?_⟩
  rw [List.length_append] at hlen
  have hcount := length_le_flatten fun item hitem => (h item hitem).ne_nil
  have hitem : ∀ item ∈ items, Resp2 item := fun item hmem => (h item hmem).resp2 <| by
    have hle := (List.sublist_flatten_of_mem hmem).length_le
    omega
  have harray := Resp2.array hitem
  rw [hn, (ofNat_eq_i64ToString (n := n) (by omega)).1] at harray
  exact harray

theorem wf_arrayLen_zero : WellFormed (sendArrayLen 0) := @wf_array 0 [] rfl nofun

theorem wf_array_map {ι : Type} {n : Nat} {xs : List ι} {f : ι → Bytes} (hn : xs.length = n)
    (h : ∀ x ∈ xs, WellFormed (f x)) : WellFormed (sendArrayLen n ++ xs.flatMap f) := by
  refine wf_array (by rwa [List.length_map]) fun item hitem => ?_
  obtain ⟨x, hx, rfl⟩ := List.mem_map.mp hitem
  exact h x hx

theorem wf_stringArray (items : List Bytes) : WellFormed (sendStringArray items) :=
  wf_array_map rfl fun x _ => wf_bulk x

/-- An array of two values for each element of a list. -/
theorem wf_array_pairs {ι : Type} {n : Nat} {xs : List ι} {f g : ι → Bytes} (hn : xs.length = n)
    (hf : ∀ x, WellFormed (f x)) (hg : ∀ x, WellFormed (g x)) :
    WellFormed (sendArrayLen (n * 2) ++ xs.flatMap fun x => f x ++ g x) := by
  have hflat : ∀ ys : List ι, (ys.flatMap fun x => [f x, g x]).flatten = ys.flatMap fun x =>
      f x ++ g x := by
    intro ys
    induction ys with
    | nil => rfl
    | cons y ys ih => simp [ih]
  rw [← hflat]
  refine wf_array ?_ fun item hitem => ?_
  · rw [List.length_flatMap]
    simp [hn]
  · obtain ⟨x, -, hx⟩ := List.mem_flatMap.mp hitem
    rcases List.mem_pair.mp hx with rfl | rfl
    · exact hf x
    · exact hg x

end ShrikeDb
