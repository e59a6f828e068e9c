import ShrikeDb.Lib.Program
import ShrikeDb.Lib.Listing

/-! One interface implemented over another. The operations of the upper interface are
programs over the lower one, so a program over the upper interface becomes a program over
the lower. A machine for the lower interface may fail; where a condition holds along its
run, it refines a machine that makes a choice, if the program has that choice made at
most once. -/

namespace Program

variable {S T : Interface} {α σ τ ι Φ : Type}

/-! ## Translation -/

/-- Replace every operation by its program. -/
def translate (f : (o : S.Op) → Program T (S.Result o)) : Program S α → Program T α
  | .ret a => .ret a
  | .call o k => (f o).bind fun r => translate f (k r)
  | .panic => .panic

variable {f : (o : S.Op) → Program T (S.Result o)}

variable {step : (o : S.Op) → σ → S.Result o × σ}

/-- If the program of every operation does what the operation does, so does the translation. -/
theorem run_translate {lower : (o : T.Op) → σ → T.Result o × σ}
    (hop : ∀ o s, run lower (f o) s = (some (step o s).1, (step o s).2)) (p : Program S α) (s : σ) :
    run lower (translate f p) s = run step p s := by
  induction p generalizing s with
  | ret a => rfl
  | call o k ih =>
    refine (run_bind_of lower _ (hop o s)).trans ?_
    exact ih _ _
  | panic => rfl

/-- A run that returns has returned from its first part. -/
theorem run_bind_eq_some {β : Type} {p : Program S α} {g : α → Program S β} {s s' : σ} {b : β}
    (h : run step (p >>= g) s = (some b, s')) :
    ∃ a s1, run step p s = (some a, s1) ∧ run step (g a) s1 = (some b, s') := by
  cases hp : run step p s with
  | mk out s1 =>
    cases out with
    | none => cases (run_bind_panic step g hp).symm.trans h
    | some a => exact ⟨a, s1, rfl, (run_bind_of step g hp).symm.trans h⟩

/-- A loop whose rounds answer alike wherever `J` holds, and move the state by `next`. -/
theorem run_forEach {g : ι → Program S α} {answer : ι → α} {next : σ → ι → σ} {J : σ → Prop}
    (hround : ∀ x s, J s → run step (g x) s = (some (answer x), next s x) ∧ J (next s x))
    (xs : List ι) {s : σ} (hs : J s) :
    run step (forEach g xs) s = (some (xs.map answer), xs.foldl next s) := by
  induction xs generalizing s with
  | nil => rfl
  | cons x xs ih =>
    obtain ⟨hrun, hnext⟩ := hround x s hs
    refine (run_bind_of step _ hrun).trans ?_
    exact run_bind_of step _ (ih hnext)

/-! ## Machines that may fail -/

/-- Run on a machine whose operations may fail; a panic of the program itself leaves a state. -/
def exec (step : (o : S.Op) → σ → Option (S.Result o × σ)) : Program S α → σ → Option (Option α × σ)
  | .ret a, s => some (some a, s)
  | .call o k, s => (step o s).bind fun x => exec step (k x.1) x.2
  | .panic, s => some (none, s)

section MayFail

variable {step : (o : S.Op) → σ → Option (S.Result o × σ)} {β : Type} {p : Program S α} {s s' : σ}

theorem exec_bind {g : α → Program S β} {out : Option β}
    (h : exec step (p >>= g) s = some (out, s')) :
    (∃ a s1, exec step p s = some (some a, s1) ∧ exec step (g a) s1 = some (out, s')) ∨
      exec step p s = some (none, s') ∧ out = none := by
  induction p generalizing s with
  | ret a => exact .inl ⟨a, s, rfl, h⟩
  | call o k ih =>
    obtain ⟨x, hx, hrest⟩ := Option.bind_eq_some_iff.mp h
    rw [exec, hx]
    exact ih x.1 hrest
  | panic =>
    cases h
    exact .inr ⟨rfl, rfl⟩

variable {fault : Prop} {post : α → Prop} {out : Option α}

/-- What a program yields whatever it is answered, it yields here. -/
theorem Yields.exec (hp : Yields fault post p) (h : exec step p s = some (out, s')) :
    (∀ a, out = some a → post a) ∧ (out = none → fault) := by
  induction p generalizing s with
  | ret a =>
    cases h
    refine ⟨?_, by rintro ⟨⟩⟩
    rintro b ⟨⟩
    exact hp
  | call o k ih =>
    obtain ⟨x, -, hrest⟩ := Option.bind_eq_some_iff.mp h
    exact ih x.1 (hp.2.2 x.1) hrest
  | panic =>
    cases h
    exact ⟨by rintro a ⟨⟩, fun _ => hp⟩

end MayFail

theorem Yields.translate {fault : Prop} {post : α → Prop} {p : Program S α}
    (hop : ∀ o, Yields fault (fun _ => True) (f o)) (h : Yields fault post p) :
    Yields fault post (translate f p) := by
  induction p with
  | ret a => exact h
  | call o k ih => exact .bind ((hop o).mono fun r _ => ih r (h.2.2 r))
  | panic => exact h

/-- The answer to one operation decides whether the program returns. -/
def Decided (o : S.Op) (ok : S.Result o → Prop) (p : Program S α) : Prop :=
  ∃ k, p = .call o k ∧ ∀ r, (ok r → Yields False (fun _ => True) (k r)) ∧
    (¬ok r → Yields True (fun _ => False) (k r))

theorem Decided.perform {o : S.Op} {ok : S.Result o → Prop} {k : S.Result o → Program S α}
    (h : ∀ r, (ok r → Yields False (fun _ => True) (k r)) ∧
      (¬ok r → Yields True (fun _ => False) (k r))) :
    Decided o ok (Program.perform o >>= k) :=
  ⟨k, rfl, h⟩

theorem Decided.exec {step : (o : T.Op) → σ → Option (T.Result o × σ)} {s s' : σ} {o : S.Op}
    {ok : S.Result o → Prop} {p : Program S α} {out : Option α} (hp : Decided o ok p)
    (hop : ∀ o, Yields False (fun _ => True) (f o))
    (h : Program.exec step (Program.translate f p) s = some (out, s')) :
    ∃ r s1, Program.exec step (f o) s = some (some r, s1) ∧ (out ≠ none ↔ ok r) := by
  obtain ⟨k, rfl, hk⟩ := hp
  rcases exec_bind h with ⟨r, s1, hfirst, hrest⟩ | ⟨hfirst, -⟩
  · refine ⟨r, s1, hfirst, fun hout => ?_, fun hr hout => ?_⟩
    · by_contra hr
      have hfails := (hk r).2 hr
      obtain ⟨a, ha⟩ := Option.ne_none_iff_exists'.mp hout
      exact ((hfails.translate fun o => (hop o).weaken).exec hrest).1 a ha
    · exact (((hk r).1 hr).translate hop |>.exec hrest).2 hout
  · exact ((hop o).exec hfirst).2 rfl |>.elim

/-- Whenever the run comes to an operation, `P` holds of it in the state reached. -/
def Along (P : σ → S.Op → Prop) (step : (o : S.Op) → σ → Option (S.Result o × σ)) :
    Program S α → σ → Prop
  | .ret _, _ => True
  | .call o k, s => P s o ∧ ∀ x ∈ step o s, Along P step (k x.1) x.2
  | .panic, _ => True

/-- Whether a decidable condition holds along the run. -/
def check (P : σ → S.Op → Bool) (step : (o : S.Op) → σ → Option (S.Result o × σ)) :
    Program S α → σ → Bool
  | .ret _, _ => true
  | .call o k, s => P s o && (step o s).all fun x => check P step (k x.1) x.2
  | .panic, _ => true

theorem along_of_check {P : σ → S.Op → Bool} {Q : σ → S.Op → Prop}
    (himp : ∀ s o, P s o = true → Q s o) {step : (o : S.Op) → σ → Option (S.Result o × σ)}
    {p : Program S α} {s : σ} (h : check P step p s = true) : Along Q step p s := by
  induction p generalizing s with
  | ret a => exact trivial
  | call o k ih =>
    obtain ⟨ho, hrest⟩ := Bool.and_eq_true_iff.mp h
    refine ⟨himp s o ho, fun x hx => ih x.1 ?_⟩
    rw [Option.mem_def.mp hx] at hrest
    exact hrest
  | panic => exact trivial

/-- The program never calls an operation that chooses. -/
def Quiet (chooses : S.Op → Bool) : Program S α → Prop
  | .ret _ => True
  | .call o k => chooses o = false ∧ ∀ r, Quiet chooses (k r)
  | .panic => True

/-- After an operation that chooses, the program calls no other one. -/
def ChoosesOnce (chooses : S.Op → Bool) : Program S α → Prop
  | .ret _ => True
  | .call o k =>
    ∀ r, (chooses o = true → Quiet chooses (k r)) ∧ (chooses o = false → ChoosesOnce chooses (k r))
  | .panic => True

variable {chooses : S.Op → Bool} {β : Type}

namespace Quiet

theorem ret (a : α) : Quiet chooses (pure a : Program S α) := trivial

variable {p : Program S α}

theorem bind {g : α → Program S β} (hp : Quiet chooses p) (hg : ∀ a, Quiet chooses (g a)) :
    Quiet chooses (p >>= g) := by
  induction p with
  | ret a => exact hg a
  | call o k ih => exact ⟨hp.1, fun r => ih r (hp.2 r)⟩
  | panic => trivial

theorem perform {o : S.Op} (ho : chooses o = false) :
    Quiet chooses (Program.perform o) := ⟨ho, fun _ => trivial⟩

theorem ofOption (o : Option α) : Quiet chooses (Program.ofOption o : Program S α) := by
  cases o <;> trivial

theorem forEach {g : ι → Program S α} (hg : ∀ x, Quiet chooses (g x)) (xs : List ι) :
    Quiet chooses (Program.forEach g xs) := by
  induction xs with
  | nil => trivial
  | cons x xs ih => exact (hg x).bind fun b => ih.bind fun bs => ret _

theorem ite {c : Prop} [Decidable c] {q : Program S α} (hp : Quiet chooses p)
    (hq : Quiet chooses q) : Quiet chooses (if c then p else q) := by
  split
  · exact hp
  · exact hq

/-- A program that may never call an operation that chooses. -/
theorem of_follows {P : Protocol S Φ} {post : Φ → α → Prop}
    (hP : ∀ φ o, P.allowed φ o → chooses o = false) {φ : Φ} (h : Follows P post φ p) :
    Quiet chooses p := by
  induction p generalizing φ with
  | ret a => trivial
  | call o k ih => exact ⟨hP φ o h.1, fun r => ih r (h.2.2 r)⟩
  | panic => trivial

theorem translate {chooses' : T.Op → Bool} (hop : ∀ o, chooses o = false → Quiet chooses' (f o))
    (h : Quiet chooses p) : Quiet chooses' (translate f p) := by
  induction p with
  | ret a => trivial
  | call o k ih => exact (hop o h.1).bind fun r => ih r (h.2 r)
  | panic => trivial

end Quiet

namespace ChoosesOnce

variable {p : Program S α}

theorem of_quiet (h : Quiet chooses p) : ChoosesOnce chooses p := by
  induction p with
  | ret a => trivial
  | call o k ih => exact fun r => ⟨fun _ => h.2 r, fun _ => ih r (h.2 r)⟩
  | panic => trivial

theorem perform (o : S.Op) : ChoosesOnce chooses (Program.perform o) :=
  fun _ => ⟨fun _ => trivial, fun _ => trivial⟩

theorem bind {g : α → Program S β} (hp : ChoosesOnce chooses p) (hg : ∀ a, Quiet chooses (g a)) :
    ChoosesOnce chooses (p >>= g) := by
  induction p with
  | ret a => exact of_quiet (hg a)
  | call o k ih => exact fun r => ⟨fun ho => ((hp r).1 ho).bind hg, fun ho => ih r ((hp r).2 ho)⟩
  | panic => trivial

theorem after {g : α → Program S β} (hp : Quiet chooses p) (hg : ∀ a, ChoosesOnce chooses (g a)) :
    ChoosesOnce chooses (p >>= g) := by
  induction p with
  | ret a => exact hg a
  | call o k ih =>
    exact fun r => ⟨fun ho => absurd (hp.1.symm.trans ho) Bool.false_ne_true,
      fun _ => ih r (hp.2 r)⟩
  | panic => trivial

theorem translate {chooses' : T.Op → Bool} (hop : ∀ o, chooses o = false → Quiet chooses' (f o))
    (honce : ∀ o, ChoosesOnce chooses' (f o)) (h : ChoosesOnce chooses p) :
    ChoosesOnce chooses' (translate f p) := by
  induction p with
  | ret a => trivial
  | call o k ih =>
    cases ho : chooses o with
    | true => exact (honce o).bind fun r => ((h r).1 ho).translate hop
    | false => exact .after (hop o ho) fun r => ih r ((h r).2 ho)
  | panic => trivial

end ChoosesOnce

section Refines

/-! A machine each of whose operations does what it does on one of the machines `spec i`; only
the operations that choose depend on `i`. -/

variable {step : (o : S.Op) → σ → Option (S.Result o × σ)}
  {spec : ι → (o : S.Op) → τ → S.Result o × τ}
  {P : σ → S.Op → Prop} {R : σ → τ → Prop} {p : Program S α} {s s' : σ} {t : τ} {a : Option α}
  (hstep : ∀ o s t r s', P s o → R s t → step o s = some (r, s') → ∃ i, (spec i o t).1 = r ∧
    R s' (spec i o t).2)
  (hplain : ∀ o, chooses o = false → ∀ i j t, spec i o t = spec j o t)

include hstep hplain

/-- A program that does not choose runs as on any of the machines. -/
theorem exec_refines_quiet (i : ι) (hp : Quiet chooses p) (halong : Along P step p s) (hR : R s t)
    (hexec : exec step p s = some (a, s')) :
    (run (spec i) p t).1 = a ∧ R s' (run (spec i) p t).2 := by
  induction p generalizing s t with
  | ret b =>
    cases hexec
    exact ⟨rfl, hR⟩
  | panic =>
    cases hexec
    exact ⟨rfl, hR⟩
  | call o k ih =>
    obtain ⟨⟨r, s1⟩, hone, hrest⟩ := Option.bind_eq_some_iff.mp hexec
    obtain ⟨j, hres, hR1⟩ := hstep o s t r s1 halong.1 hR hone
    rw [hplain o hp.1 j i t] at hres hR1
    subst hres
    exact ih _ (hp.2 _) (halong.2 _ hone) hR1 hrest

/-- One that chooses once runs as on one of them. -/
theorem exec_refines [Nonempty ι] (hp : ChoosesOnce chooses p) (halong : Along P step p s)
    (hR : R s t) (hexec : exec step p s = some (a, s')) :
    ∃ i, (run (spec i) p t).1 = a ∧ R s' (run (spec i) p t).2 := by
  induction p generalizing s t with
  | ret b =>
    cases hexec
    exact ⟨Classical.arbitrary ι, rfl, hR⟩
  | panic =>
    cases hexec
    exact ⟨Classical.arbitrary ι, rfl, hR⟩
  | call o k ih =>
    obtain ⟨⟨r, s1⟩, hone, hrest⟩ := Option.bind_eq_some_iff.mp hexec
    obtain ⟨i, hres, hR1⟩ := hstep o s t r s1 halong.1 hR hone
    subst hres
    cases ho : chooses o with
    | true =>
      have hk := (hp (spec i o t).1).1 ho
      exact ⟨i, exec_refines_quiet hstep hplain (p := k _) i hk (halong.2 _ hone) hR1 hrest⟩
    | false =>
      obtain ⟨j, hj⟩ := ih _ ((hp _).2 ho) (halong.2 _ hone) hR1 hrest
      refine ⟨j, ?_⟩
      rw [run, hplain o ho j i t]
      exact hj

end Refines

end Program

namespace Listing

variable {K : Type} [DecidableEq K]

/-- Some order lists one set in a given way. -/
theorem exists_list_eq {s : Finset K} {l : List K} (hnodup : l.Nodup) (hmem : ∀ k, k ∈ l ↔ k ∈ s) :
    ∃ ω : Listing K, ω.list s = l := by
  refine ⟨⟨fun s' => if s' = s then l else (arbitrary K).list s', fun s' => ?_, fun s' k => ?_⟩,
    if_pos rfl⟩
  · split
    · exact hnodup
    · exact (arbitrary K).nodup s'
  · split
    · next hs => exact hs ▸ hmem k
    · exact (arbitrary K).mem_list s' k

end Listing
