import ShrikeDb.Lib.Incremental

/-! A session: requests are parsed from what has been read, answered in a world that the
answers change, and the answers are written out before the next read. Whatever the reads are,
the client is sent the answers to the requests one after another, up to one that ends the
session or to an input that is no request; and before each read it has been sent all answers
to what was read before. -/

namespace Session

open Incremental

structure Reply (W β : Type) where
  data : List β
  keepAlive : Bool
  world : W

structure Handler (W ρ ε β : Type) where
  handle : W → ρ → Reply W β
  refuse : ε → List β

inductive Status (σ α : Type)
  | waiting (state : σ) (rest : List α)
  | closed

/-- What has been put out, the world, and whether the session goes on. -/
structure Outcome (W β ψ : Type) where
  output : List β
  world : W
  status : ψ

variable {σ α ρ ε W β ψ : Type}

/-- The same with something put out before. -/
def Outcome.after (out : List β) (o : Outcome W β ψ) :
    Outcome W β ψ := { o with output := out ++ o.output }

theorem Outcome.after_nil (o : Outcome W β ψ) : o.after [] = o := rfl

theorem Outcome.after_after (out out' : List β) (o : Outcome W β ψ) :
    (o.after out').after out = o.after (out ++ out') :=
  congrArg (Outcome.mk · o.world o.status) (List.append_assoc out out' o.output).symm

/-- Answer all requests in the buffer. -/
def answerAll (P : Parser σ α ρ ε) (H : Handler W ρ ε β) (s : σ) (buf : List α) (w : W)
    (out : List β) : Outcome W β (Status σ α) :=
  match _h : P.parse s buf with
  | .complete r s' rest =>
    match H.handle w r with
    | ⟨data, true, w'⟩ => answerAll P H s' rest w' (out ++ data)
    | ⟨data, false, w'⟩ => ⟨out ++ data, w', .closed⟩
  | .incomplete s' rest => ⟨out, w, .waiting s' rest⟩
  | .error e => ⟨out ++ H.refuse e, w, .closed⟩
termination_by P.size s buf
decreasing_by exact Parser.size_parse _h

/-- Nothing is written if there is nothing to write. -/
def flush (out : List β) : List (List β) := if out.isEmpty then [] else [out]

/-- The session over the coming reads: what is written, piece by piece, and whether the session
was left open. A read of nothing is the end of the input. -/
def serve (P : Parser σ α ρ ε) (H : Handler W ρ ε β) (s : σ) (buf : List α) (w : W)
    (reads : List (List α)) : Outcome W (List β) Bool :=
  match answerAll P H s buf w [], reads with
  | ⟨out, w', .closed⟩, _ => ⟨[out], w', false⟩
  | ⟨out, w', .waiting _ _⟩, [] => ⟨flush out, w', true⟩
  | ⟨out, w', .waiting s' rest⟩, read :: reads =>
    if read.isEmpty then ⟨flush out, w', true⟩ else (serve P H s' (rest ++ read) w' reads).after
      (flush out)

/-! ## Requests answered one after another -/

/-- The answers to the requests of an input, and to an input that is no request behind them;
those behind a request that ends the session are not looked at. -/
def settle (H : Handler W ρ ε β) (w : W) : List ρ → Ending σ α ε → Outcome W β (Status σ α)
  | [], .pending s rest => ⟨[], w, .waiting s rest⟩
  | [], .failed e => ⟨H.refuse e, w, .closed⟩
  | r :: rs, ending =>
    match H.handle w r with
    | ⟨data, true, w'⟩ => (settle H w' rs ending).after data
    | ⟨data, false, w'⟩ => ⟨data, w', .closed⟩

/-- What is put out for a list of requests. -/
def respond (H : Handler W ρ ε β) (w : W) : List ρ → List β
  | [] => []
  | r :: rs =>
    match H.handle w r with
    | ⟨data, true, w'⟩ => data ++ respond H w' rs
    | ⟨data, false, _⟩ => data

def Status.isOpen : Status σ α → Bool
  | .waiting _ _ => true
  | .closed => false

/-- The pieces that were written come to what was to be put out. -/
structure Outcome.Writes (o : Outcome W (List β) Bool) (all : Outcome W β (Status σ α)) : Prop where
  output : o.output.flatten = all.output
  world : o.world = all.world
  status : o.status = all.status.isOpen

variable {P : Parser σ α ρ ε} {H : Handler W ρ ε β} {s s' : σ} {buf rest : List α} {w w' : W}
  {out data : List β}

theorem respond_prefix_settle (rs rs' : List ρ) (ending : Ending σ α ε) :
    respond H w rs <+: (settle H w (rs ++ rs') ending).output := by
  induction rs generalizing w with
  | nil => exact List.nil_prefix
  | cons r rs ih =>
    rw [List.cons_append, respond, settle]
    rcases H.handle w r with ⟨data, _ | _, w'⟩
    · exact List.prefix_rfl
    · exact (List.prefix_append_right_inj data).mpr ih

/-- A session that goes on has answered all requests. -/
theorem settle_waiting {rs : List ρ} {ending : Ending σ α ε}
    (h : (settle H w rs ending).status = .waiting s rest) : ending = .pending s rest := by
  induction rs generalizing w with
  | nil =>
    cases ending with
    | pending s' rest' =>
      cases h
      rfl
    | failed e => cases h
  | cons r rs ih =>
    rw [settle] at h
    generalize H.handle w r = reply at h
    rcases reply with ⟨data, _ | _, w'⟩
    · cases h
    · exact ih h

theorem settle_append (rs rs' : List ρ) (s : σ) (rest : List α) (ending : Ending σ α ε) :
    settle H w (rs ++ rs') ending =
      match settle H w rs (.pending s rest : Ending σ α ε) with
      | ⟨out, w', .waiting _ _⟩ => (settle H w' rs' ending).after out
      | ⟨out, w', .closed⟩ => ⟨out, w', .closed⟩ := by
  induction rs generalizing w with
  | nil => rfl
  | cons r rs ih =>
    rw [List.cons_append, settle, settle]
    rcases H.handle w r with ⟨data, _ | _, w'⟩
    · rfl
    · dsimp only
      rw [ih]
      rcases settle H w' rs (.pending s rest : Ending σ α ε) with ⟨out, w'', _ | _⟩
      · exact Outcome.after_after ..
      · rfl

/-! ## The loops -/

theorem drain_complete {r : ρ} (h : P.parse s buf = .complete r s' rest) :
    P.drain s buf = (r :: (P.drain s' rest).1, (P.drain s' rest).2) := by
  rw [Parser.drain]
  split <;> simp_all

theorem drain_incomplete (h : P.parse s buf = .incomplete s' rest) :
    P.drain s buf = ([], .pending s' rest) := by
  rw [Parser.drain]
  split <;> simp_all

theorem drain_error {e : ε} (h : P.parse s buf = .error e) : P.drain s buf = ([], .failed e) := by
  rw [Parser.drain]
  split <;> simp_all

/-- Parsing and answering in turn is answering what is parsed. -/
theorem answerAll_eq :
    answerAll P H s buf w out = (settle H w (P.drain s buf).1 (P.drain s buf).2).after out := by
  fun_induction answerAll P H s buf w out with
  | case1 s buf w out r s' rest h data w' hhandle ih =>
    rw [ih, drain_complete h, settle, hhandle, Outcome.after_after]
  | case2 s buf w out r s' rest h data w' hhandle =>
    rw [drain_complete h, settle, hhandle]
    rfl
  | case3 s buf w out s' rest h =>
    rw [drain_incomplete h, settle, Outcome.after, List.append_nil]
  | case4 s buf w out e h =>
    rw [drain_error h]
    rfl

/-- The parser waits when all requests in the buffer are answered. -/
theorem waits_of_answerAll (h : answerAll P H s buf w out = ⟨data, w', .waiting s' rest⟩) :
    P.turn s' rest = .wait := by
  rw [answerAll_eq] at h
  exact Parser.wait_of_drain (Prod.ext rfl (settle_waiting (congrArg Outcome.status h)))

theorem flatten_flush (out : List β) : (flush out).flatten = out := by
  rw [flush]
  split
  · next h => rw [List.isEmpty_iff.mp h, List.flatten_nil]
  · exact List.flatten_singleton ..

theorem answerAll_wait (hwait : P.turn s buf = .wait) :
    answerAll P H s buf w [] = ⟨[], w, .waiting s buf⟩ := by
  rw [answerAll_eq, Parser.drain_wait hwait]
  rfl

theorem serve_nil (hwait : P.turn s buf = .wait) : serve P H s buf w [] = ⟨[], w, true⟩ := by
  rw [serve.eq_def, answerAll_wait hwait]
  rfl

/-- A session that waits goes on with the next read. -/
theorem serve_read (hwait : P.turn s buf = .wait) {read : List α} (hread : [] ≠ read)
    (reads : List (List α)) :
    serve P H s buf w (read :: reads) = serve P H s (buf ++ read) w reads := by
  have hsome : read.isEmpty = false := List.isEmpty_eq_false_iff.mpr hread.symm
  rw [serve.eq_def, answerAll_wait hwait]
  dsimp only
  rw [hsome]
  rfl

theorem serve_closed (h : answerAll P H s buf w [] = ⟨out, w', .closed⟩) (reads : List (List α)) :
    serve P H s buf w reads = ⟨[out], w', false⟩ := by
  rw [serve.eq_def, h]

/-- The answers are written before the session goes on. -/
theorem serve_open (h : answerAll P H s buf w [] = ⟨out, w', .waiting s' rest⟩)
    (reads : List (List α)) :
    serve P H s buf w reads = (serve P H s' rest w' reads).after (flush out) := by
  have hwait := waits_of_answerAll h
  rw [serve.eq_def, h, serve.eq_def P H s', answerAll_wait hwait]
  cases reads with
  | nil => simp [Outcome.after, flush]
  | cons read reads =>
    dsimp only
    split
    · simp [Outcome.after, flush]
    · rfl

/-- What is written comes to the answers to what is parsed. -/
theorem serve_writes (hwait : P.turn s buf = .wait) {reads : List (List α)} (hreads : [] ∉ reads) :
    (serve P H s buf w reads).Writes
      (settle H w (P.drive s buf reads).1 (P.drive s buf reads).2) := by
  induction reads generalizing s buf w with
  | nil =>
    rw [serve_nil hwait]
    exact ⟨rfl, rfl, rfl⟩
  | cons read reads ih =>
    rw [List.mem_cons, not_or] at hreads
    rw [serve_read hwait hreads.1, Parser.drive]
    have hall : answerAll P H s (buf ++ read) w [] = _ := answerAll_eq
    rw [Outcome.after_nil] at hall
    cases hdrain : P.drain s (buf ++ read) with
    | mk done ending =>
      rw [hdrain] at hall
      dsimp only at hall
      -- the session ends with this read, or goes on behind it
      cases hsettle : settle H w done ending with
      | mk out w' status =>
        rw [hsettle] at hall
        cases status with
        | closed =>
          rw [serve_closed hall]
          cases ending with
          | failed e =>
            dsimp only
            rw [hsettle]
            exact ⟨List.flatten_singleton .., rfl, rfl⟩
          | pending s' rest =>
            dsimp only
            rw [settle_append done _ s' rest, hsettle]
            exact ⟨List.flatten_singleton .., rfl, rfl⟩
        | waiting s' rest =>
          obtain rfl := settle_waiting (congrArg Outcome.status hsettle)
          obtain ⟨hout, hworld, hstatus⟩ := ih (w := w') (waits_of_answerAll hall) hreads.2
          rw [serve_open hall]
          dsimp only
          rw [settle_append done _ s' rest, hsettle]
          refine ⟨?_, hworld, hstatus⟩
          dsimp only [Outcome.after]
          rw [List.flatten_append, flatten_flush, hout]

/-- What has been written before a read is not taken back. -/
theorem serve_extends (hwait : P.turn s buf = .wait) {reads : List (List α)} (hreads : [] ∉ reads)
    (later : List (List α)) :
    (serve P H s buf w reads).output <+: (serve P H s buf w (reads ++ later)).output := by
  induction reads generalizing s buf w with
  | nil =>
    rw [serve_nil hwait]
    exact List.nil_prefix
  | cons read reads ih =>
    rw [List.mem_cons, not_or] at hreads
    rw [List.cons_append, serve_read hwait hreads.1, serve_read hwait hreads.1]
    cases hall : answerAll P H s (buf ++ read) w [] with
    | mk out w' status =>
      cases status with
      | closed =>
        have hsame := (serve_closed hall reads).trans (serve_closed hall (reads ++ later)).symm
        exact hsame ▸ List.prefix_rfl
      | waiting s' rest =>
        rw [serve_open hall, serve_open hall]
        exact (List.prefix_append_right_inj _).mpr (ih (waits_of_answerAll hall) hreads.2)

end Session
