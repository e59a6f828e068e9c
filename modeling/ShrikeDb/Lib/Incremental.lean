/-! Parsers that are fed in pieces. A parser is a loop of turns on a state and a buffer;
a turn takes items off the front of the buffer, waits for more of them, or fails. A
reader appends what arrives to what is left and parses until the parser waits. Where
no turn depends on items that have not arrived, the reads do not show in the results. -/

namespace Incremental

open List

inductive Turn (σ α ρ ε : Type)
  | next (out : Option ρ) (state : σ) (rest : List α)
  | wait
  | fail (e : ε)

/-- What one call of the parser returns, with the state and the buffer it leaves. -/
inductive Result (σ α ρ ε : Type)
  | complete (r : ρ) (state : σ) (rest : List α)
  | incomplete (state : σ) (rest : List α)
  | error (e : ε)

/-- How a sequence of calls ends. -/
inductive Ending (σ α ε : Type)
  | pending (state : σ) (rest : List α)
  | failed (e : ε)

def Ending.error? {σ α ε : Type} : Ending σ α ε → Option ε
  | .pending _ _ => none
  | .failed e => some e

structure Parser (σ α ρ ε : Type) where
  turn : σ → List α → Turn σ α ρ ε
  size : σ → List α → Nat
  size_next : ∀ {s buf out s' rest}, turn s buf = .next out s' rest → size s' rest < size s buf

namespace Parser

variable {σ α ρ ε : Type} (P : Parser σ α ρ ε)

def parse (s : σ) (buf : List α) : Result σ α ρ ε :=
  match _h : P.turn s buf with
  | .next (some r) s' rest => .complete r s' rest
  | .next none s' rest => parse s' rest
  | .wait => .incomplete s buf
  | .fail e => .error e
termination_by P.size s buf
decreasing_by exact P.size_next _h

variable {P} {s s' : σ} {buf rest more : List α} {out : Option ρ} {outs done : List ρ}
  {r : ρ} {reads : List (List α)}

section Parse

variable {e : ε}

theorem parse_some (h : P.turn s buf = .next (some r) s' rest) :
    P.parse s buf = .complete r s' rest := by
  rw [parse]
  split <;> simp_all

theorem parse_none (h : P.turn s buf = .next none s' rest) : P.parse s buf = P.parse s' rest := by
  rw [parse]
  split <;> simp_all

theorem parse_wait (h : P.turn s buf = .wait) : P.parse s buf = .incomplete s buf := by
  rw [parse]
  split <;> simp_all

theorem parse_fail (h : P.turn s buf = .fail e) : P.parse s buf = .error e := by
  rw [parse]
  split <;> simp_all

/-- Induction along the turns. -/
@[elab_as_elim]
theorem turns {motive : σ → List α → Prop}
    (next : ∀ s buf out s' rest, P.turn s buf = .next out s' rest → motive s' rest → motive s buf)
    (wait : ∀ s buf, P.turn s buf = .wait → motive s buf)
    (fail : ∀ s buf e, P.turn s buf = .fail e → motive s buf) (s : σ) (buf : List α) :
    motive s buf := by
  induction hn : P.size s buf using Nat.strongRecOn generalizing s buf with
  | _ n ih =>
    cases ht : P.turn s buf with
    | next out s' rest => exact next s buf out s' rest ht (ih _ (hn ▸ P.size_next ht) s' rest rfl)
    | wait => exact wait s buf ht
    | fail e => exact fail s buf e ht

theorem size_parse (h : P.parse s buf = .complete r s' rest) : P.size s' rest < P.size s buf := by
  induction s, buf using P.turns with
  | next s buf out s1 rest1 ht ih =>
    cases out with
    | some r1 =>
      rw [parse_some ht] at h
      cases h
      exact P.size_next ht
    | none =>
      rw [parse_none ht] at h
      exact Nat.lt_trans (ih h) (P.size_next ht)
  | wait s buf ht =>
    rw [parse_wait ht] at h
    cases h
  | fail s buf e ht =>
    rw [parse_fail ht] at h
    cases h

end Parse

/-- Calls of the parser until it waits or fails. -/
def drain (P : Parser σ α ρ ε) (s : σ) (buf : List α) : List ρ × Ending σ α ε :=
  match _h : P.parse s buf with
  | .complete r s' rest => (r :: (drain P s' rest).1, (drain P s' rest).2)
  | .incomplete s' rest => ([], .pending s' rest)
  | .error e => ([], .failed e)
termination_by P.size s buf
decreasing_by all_goals exact size_parse _h

/-- Each read is appended to what is left of the earlier ones. -/
def drive (P : Parser σ α ρ ε) (s : σ) (buf : List α) : List (List α) → List ρ × Ending σ α ε
  | [] => ([], .pending s buf)
  | read :: reads =>
    match drain P s (buf ++ read) with
    | (done, .pending s' rest) => (done ++ (drive P s' rest reads).1, (drive P s' rest reads).2)
    | (done, .failed e) => (done, .failed e)

/-! ## Draining, turn by turn -/

theorem drain_of_parse (h : P.parse s buf = P.parse s' rest) : P.drain s buf = P.drain s' rest := by
  rw [drain, drain]
  split <;> split <;> simp_all

theorem drain_next (h : P.turn s buf = .next out s' rest) :
    P.drain s buf = (out.toList ++ (P.drain s' rest).1, (P.drain s' rest).2) := by
  cases out with
  | none => exact drain_of_parse (parse_none h)
  | some r =>
    have hp := parse_some h
    rw [drain]
    split <;> simp_all

theorem drain_wait (h : P.turn s buf = .wait) : P.drain s buf = ([], .pending s buf) := by
  have hp := parse_wait h
  rw [drain]
  split <;> simp_all

theorem drain_fail {e : ε} (h : P.turn s buf = .fail e) : P.drain s buf = ([], .failed e) := by
  have hp := parse_fail h
  rw [drain]
  split <;> simp_all

/-- A drained parser waits. -/
theorem wait_of_drain (h : P.drain s buf = (done, .pending s' rest)) : P.turn s' rest = .wait := by
  induction s, buf using P.turns generalizing done with
  | next s buf out s1 rest1 ht ih =>
    rw [drain_next ht, Prod.mk.injEq] at h
    exact ih (Prod.ext rfl h.2)
  | wait s buf ht =>
    rw [drain_wait ht, Prod.mk.injEq, Ending.pending.injEq] at h
    obtain ⟨_, rfl, rfl⟩ := h
    exact ht
  | fail s buf e ht =>
    rw [drain_fail ht, Prod.mk.injEq] at h
    exact absurd h.2 nofun

/-! ## Turns that do not look ahead -/

/-- In good states a turn does on a longer buffer what it did on the shorter one. -/
structure Stable (P : Parser σ α ρ ε) (Good : σ → List α → Prop) : Prop where
  next : ∀ {s buf more out s' rest}, Good s (buf ++ more) → P.turn s buf = .next out s' rest →
    P.turn s (buf ++ more) = .next out s' (rest ++ more)
  fail : ∀ {s buf more e}, Good s (buf ++ more) → P.turn s buf = .fail e →
    P.turn s (buf ++ more) = .fail e
  good : ∀ {s buf out s' rest}, Good s buf → P.turn s buf = .next out s' rest → Good s' rest

namespace Stable

variable {Good : σ → List α → Prop} (hP : P.Stable Good)

include hP

theorem drain_pending (hg : Good s (buf ++ more)) (h : P.drain s buf = (done, .pending s' rest)) :
    P.drain s (buf ++ more) =
      (done ++ (P.drain s' (rest ++ more)).1, (P.drain s' (rest ++ more)).2) ∧
      Good s' (rest ++ more) := by
  induction s, buf using P.turns generalizing done with
  | next s buf out s1 rest1 ht ih =>
    have ht' := hP.next hg ht
    rw [drain_next ht, Prod.mk.injEq] at h
    obtain ⟨hd, hgood⟩ := ih (hP.good hg ht') (Prod.ext rfl h.2)
    rw [drain_next ht', hd, ← h.1, append_assoc]
    exact ⟨rfl, hgood⟩
  | wait s buf ht =>
    rw [drain_wait ht, Prod.mk.injEq, Ending.pending.injEq] at h
    obtain ⟨rfl, rfl, rfl⟩ := h
    exact ⟨rfl, hg⟩
  | fail s buf e ht =>
    rw [drain_fail ht, Prod.mk.injEq] at h
    exact absurd h.2 nofun

theorem drain_failed {e : ε} (hg : Good s (buf ++ more)) (h : P.drain s buf = (done, .failed e)) :
    P.drain s (buf ++ more) = (done, .failed e) := by
  induction s, buf using P.turns generalizing done with
  | next s buf out s1 rest1 ht ih =>
    have ht' := hP.next hg ht
    rw [drain_next ht, Prod.mk.injEq] at h
    rw [drain_next ht', ih (hP.good hg ht') (Prod.ext rfl h.2), ← h.1]
  | wait s buf ht =>
    rw [drain_wait ht, Prod.mk.injEq] at h
    exact absurd h.2 nofun
  | fail s buf e1 ht =>
    rw [drain_fail ht] at h
    rw [drain_fail (hP.fail hg ht), h]

/-- The reads do not show: the results are those of the whole input in one buffer. -/
theorem drive_eq_drain (reads : List (List α)) (hg : Good s (buf ++ reads.flatten))
    (hw : P.turn s buf = .wait) : P.drive s buf reads = P.drain s (buf ++ reads.flatten) := by
  induction reads generalizing s buf with
  | nil => rw [drive, flatten_nil, append_nil, drain_wait hw]
  | cons read reads ih =>
    rw [flatten_cons, ← append_assoc] at hg ⊢
    rw [drive]
    rcases hd : P.drain s (buf ++ read) with ⟨done, ending⟩
    cases ending with
    | failed e => rw [hP.drain_failed hg hd]
    | pending s' rest =>
      obtain ⟨hwhole, hgood⟩ := hP.drain_pending hg hd
      rw [hwhole]
      dsimp only
      rw [ih hgood (wait_of_drain hd)]

end Stable

/-! ## A path of turns -/

/-- The turns from one state and buffer to another, with the results on the way. -/
inductive Path (P : Parser σ α ρ ε) : σ → List α → List ρ → σ → List α → Prop
  | refl (s : σ) (buf : List α) : Path P s buf [] s buf
  | step {s s1 s2 : σ} {buf buf1 buf2 : List α} {out : Option ρ} {outs : List ρ}
    (turn : P.turn s buf = .next out s1 buf1) (path : Path P s1 buf1 outs s2 buf2) :
    Path P s buf (out.toList ++ outs) s2 buf2

theorem Path.single (h : P.turn s buf = .next out s' rest) : P.Path s buf out.toList s' rest := by
  simpa using Path.step h (.refl s' rest)

theorem Path.trans {s'' : σ} {rest' : List α} {outs' : List ρ} (h : P.Path s buf outs s' rest)
    (h' : P.Path s' rest outs' s'' rest') : P.Path s buf (outs ++ outs') s'' rest' := by
  induction h with
  | refl s buf => exact h'
  | step turn path ih =>
    rw [append_assoc]
    exact .step turn (ih h')

theorem Path.drain (h : P.Path s buf outs s' rest) :
    P.drain s buf = (outs ++ (P.drain s' rest).1, (P.drain s' rest).2) := by
  induction h with
  | refl s buf => rfl
  | step turn path ih => rw [drain_next turn, ih, append_assoc]

/-- A turn that leaves items behind does the same on the items before them. -/
structure Local (P : Parser σ α ρ ε) : Prop where
  suffix : ∀ {s buf out s' rest}, P.turn s buf = .next out s' rest → ∃ taken, buf = taken ++ rest
  shorten : ∀ {s buf out s' rest more}, P.turn s (buf ++ more) = .next out s' (rest ++ more) →
    rest ≠ [] → P.turn s buf = .next out s' rest

/-- The path to a point of the input is the same before the input behind it has arrived. -/
theorem Local.path (hP : P.Local) (h : P.Path s buf outs s' (rest ++ more)) (hrest : rest ≠ []) :
    ∃ first, buf = first ++ more ∧ first ≠ [] ∧ P.Path s first outs s' rest := by
  generalize htarget : rest ++ more = target at h
  induction h with
  | refl s buf => exact ⟨rest, htarget.symm, hrest, .refl s rest⟩
  | step turn path ih =>
    obtain ⟨first, rfl, hne, hpath⟩ := ih htarget
    obtain ⟨taken, rfl⟩ := hP.suffix turn
    rw [← append_assoc] at turn ⊢
    exact ⟨taken ++ first, rfl, append_ne_nil_of_right_ne_nil taken hne,
      .step (hP.shorten turn hne) hpath⟩

/-! ## What the first buffer decides -/

theorem drive_of_failed {e : ε} (reads : List (List α)) (h : P.drain s buf = (done, .failed e)) :
    P.drive s [] (buf :: reads) = (done, .failed e) := by
  rw [drive, nil_append, h]

theorem drain_isPrefix_drive (s : σ) (buf : List α) (reads : List (List α)) :
    (P.drain s buf).1 <+: (P.drive s [] (buf :: reads)).1 := by
  rw [drive, nil_append]
  rcases P.drain s buf with ⟨done, _ | _⟩
  · exact prefix_append ..
  · exact prefix_rfl

/-! ## What the turns take -/

/-- The turns without a result from one state and buffer to another, each with the state it
starts in and the items it takes. -/
inductive Takes (P : Parser σ α ρ ε) : σ → List α → List (σ × List α) → σ → List α → Prop
  | refl (s : σ) (buf : List α) : Takes P s buf [] s buf
  | step {s s1 s2 : σ} {taken rest buf2 : List α} {takes : List (σ × List α)}
    (turn : P.turn s (taken ++ rest) = .next none s1 rest) (next : Takes P s1 rest takes s2 buf2) :
    Takes P s (taken ++ rest) ((s, taken) :: takes) s2 buf2

/-- A call of the parser after each read, all of which wait but the last. -/
inductive Receives (P : Parser σ α ρ ε) :
    σ → List α → List (List α) → List (σ × List α) → ρ → σ → List α → Prop
  | more {s s1 s2 : σ} {buf read buf1 rest : List α} {reads : List (List α)}
    {takes takes' : List (σ × List α)} {r : ρ} (call : Takes P s (buf ++ read) takes s1 buf1)
    (wait : P.turn s1 buf1 = .wait) (next : Receives P s1 buf1 reads takes' r s2 rest) :
    Receives P s buf (read :: reads) (takes ++ takes') r s2 rest
  | last {s s1 s2 : σ} {buf read taken rest : List α} {takes : List (σ × List α)} {r : ρ}
    (call : Takes P s (buf ++ read) takes s1 (taken ++ rest))
    (turn : P.turn s1 (taken ++ rest) = .next (some r) s2 rest) :
    Receives P s buf [read] (takes ++ [(s1, taken)]) r s2 rest

/-- What the last of these calls returns and leaves. -/
def receive (P : Parser σ α ρ ε) (s : σ) (buf : List α) : List (List α) → Option (ρ × σ × List α)
  | [] => none
  | read :: reads =>
    match P.parse s (buf ++ read) with
    | .complete r s' rest => if reads.isEmpty then some (r, s', rest) else none
    | .incomplete s' rest => receive P s' rest reads
    | .error _ => none

section Takes

variable {takes before : List (σ × List α)}

theorem Takes.flatten (h : P.Takes s buf takes s' rest) :
    buf = (takes.map Prod.snd).flatten ++ rest := by
  induction h with
  | refl => rfl
  | step turn next ih =>
    rw [map_cons, flatten_cons, append_assoc, ← ih]

/-- Nothing is lost between the reads. -/
theorem Receives.flatten (h : P.Receives s buf reads takes r s' rest) :
    buf ++ reads.flatten = (takes.map Prod.snd).flatten ++ rest := by
  induction h with
  | more call wait next ih =>
    rw [flatten_cons, ← append_assoc, call.flatten, append_assoc, ih, map_append,
      flatten_append, append_assoc]
  | last call turn => simp [call.flatten]

theorem Takes.parse (h : P.Takes s buf takes s' rest) :
    P.parse s buf = P.parse s' rest := by
  induction h with
  | refl => rfl
  | step turn next ih => exact (parse_none turn).trans ih

theorem Receives.receive (h : P.Receives s buf reads takes r s' rest) :
    P.receive s buf reads = some (r, s', rest) := by
  induction h with
  | more call wait next ih =>
    rw [Parser.receive, call.parse, parse_wait wait]
    exact ih
  | last call turn =>
    rw [Parser.receive, call.parse, parse_some turn]
    rfl

variable {Inv : σ → List (σ × List α) → Prop} (hturn : ∀ {s taken rest s' before}, Inv s before →
  P.turn s (taken ++ rest) = .next none s' rest → Inv s' (before ++ [(s, taken)]))

include hturn

/-- What every turn without a result keeps holds where the last turn starts. -/
theorem Takes.invariant (h : P.Takes s buf takes s' rest) (hs : Inv s before) :
    Inv s' (before ++ takes) := by
  induction h generalizing before with
  | refl => rwa [append_nil]
  | step turn next ih =>
    have hrest := ih (hturn hs turn)
    rwa [append_assoc] at hrest

theorem Receives.invariant (h : P.Receives s buf reads takes r s' rest) (hs : Inv s before) :
    ∃ takes' s1 taken, takes = takes' ++ [(s1, taken)] ∧ Inv s1 (before ++ takes') ∧
      P.turn s1 (taken ++ rest) = .next (some r) s' rest := by
  induction h generalizing before with
  | more call wait next ih =>
    obtain ⟨takes', s1, taken, rfl, hinv, hlast⟩ := ih (call.invariant hturn hs)
    rw [append_assoc] at hinv
    exact ⟨_, s1, taken, (append_assoc ..).symm, hinv, hlast⟩
  | last call turn => exact ⟨_, _, _, rfl, call.invariant hturn hs, turn⟩

end Takes

/-- How a call comes to its result. -/
theorem Local.takes (hP : P.Local) (s : σ) (buf : List α) :
    ∃ takes s1 buf1, P.Takes s buf takes s1 buf1 ∧
    P.parse s buf = P.parse s1 buf1 ∧ ∀ s' rest, P.turn s1 buf1 ≠ .next none s' rest := by
  induction s, buf using P.turns with
  | next s buf out s' rest ht ih =>
    cases out with
    | some r =>
      refine ⟨[], s, buf, .refl s buf, rfl, fun s'' rest' h => ?_⟩
      rw [ht] at h
      cases h
    | none =>
      obtain ⟨takes, s1, buf1, htakes, hparse, hlast⟩ := ih
      obtain ⟨taken, rfl⟩ := hP.suffix ht
      exact ⟨(s, taken) :: takes, s1, buf1, .step ht htakes, (parse_none ht).trans hparse, hlast⟩
  | wait s buf ht =>
    refine ⟨[], s, buf, .refl s buf, rfl, fun s'' rest' h => ?_⟩
    rw [ht] at h
    cases h
  | fail s buf e ht =>
    refine ⟨[], s, buf, .refl s buf, rfl, fun s'' rest' h => ?_⟩
    rw [ht] at h
    cases h

theorem Local.receives (hP : P.Local) (h : P.receive s buf reads = some (r, s', rest)) :
    ∃ takes, P.Receives s buf reads takes r s' rest := by
  induction reads generalizing s buf with
  | nil => cases h
  | cons read reads ih =>
    obtain ⟨takes, s1, buf1, htakes, hparse, hlast⟩ := hP.takes s (buf ++ read)
    rw [receive, hparse] at h
    cases ht : P.turn s1 buf1 with
    | next out s2 rest2 =>
      cases out with
      | none => exact absurd ht (hlast s2 rest2)
      | some r' =>
        rw [parse_some ht] at h
        dsimp only at h
        split at h
        · next hempty =>
          cases h
          obtain ⟨taken, rfl⟩ := hP.suffix ht
          rw [isEmpty_iff.mp hempty]
          exact ⟨_, .last htakes ht⟩
        · cases h
    | wait =>
      rw [parse_wait ht] at h
      obtain ⟨takes', hreceives⟩ := ih h
      exact ⟨_, .more htakes ht hreceives⟩
    | fail e =>
      rw [parse_fail ht] at h
      cases h

end Parser

end Incremental
