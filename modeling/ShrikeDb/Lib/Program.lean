/-! Programs over an interface of operations, run by a machine that answers the
operations. A protocol says which operation may come next, moves from phase to
phase with the results, and names the results a program may not look at. What one
allowed operation keeps, a program that follows the protocol keeps: once for a
single machine, once for two machines side by side. A program that cannot tell a result
from its image runs alike on machines whose results have the same image. -/

structure Interface where
  Op : Type
  Result : Op → Type

inductive Program (S : Interface) (α : Type)
  | ret (a : α)
  | call (o : S.Op) (k : S.Result o → Program S α)
  | panic

namespace Program

variable {S : Interface} {α β ι σ Φ : Type}

protected def bind : Program S α → (α → Program S β) → Program S β
  | .ret a, f => f a
  | .call o k, f => .call o fun r => (k r).bind f
  | .panic, _ => .panic

instance : Monad (Program S) where
  pure := .ret
  bind := Program.bind

def perform (o : S.Op) : Program S (S.Result o) := .call o .ret

/-- A call whose result is dropped. -/
def invoke (o : S.Op) : Program S Unit := .call o fun _ => .ret ()

def ofOption : Option α → Program S α
  | some a => .ret a
  | none => .panic

def forEach (f : ι → Program S β) : List ι → Program S (List β)
  | [] => pure []
  | x :: xs => do
    let b ← f x
    let bs ← forEach f xs
    pure (b :: bs)

/-! ## Runs -/

/-- The result, `none` after a panic, and the state the machine was left in. -/
def run (step : (o : S.Op) → σ → S.Result o × σ) : Program S α → σ → Option α × σ
  | .ret a, s => (some a, s)
  | .call o k, s => run step (k (step o s).1) (step o s).2
  | .panic, s => (none, s)

section Runs

variable (step : (o : S.Op) → σ → S.Result o × σ)

theorem run_invoke (o : S.Op) (s : σ) : run step (invoke o) s = (some (), (step o s).2) := rfl

theorem run_bind_of {p : Program S α} {s s' : σ} {a : α} (f : α → Program S β)
    (h : run step p s = (some a, s')) : run step (p >>= f) s = run step (f a) s' := by
  induction p generalizing s with
  | ret b =>
    cases h
    rfl
  | call o k ih => exact ih _ h
  | panic => cases h

theorem run_bind_panic {p : Program S α} {s s' : σ} (f : α → Program S β)
    (h : run step p s = (none, s')) : run step (p >>= f) s = (none, s') := by
  induction p generalizing s with
  | ret b => cases h
  | call o k ih => exact ih _ h
  | panic =>
    cases h
    rfl

end Runs

/-! ## Protocols -/

structure Protocol (S : Interface) (Φ : Type) where
  allowed : Φ → S.Op → Prop
  next : Φ → (o : S.Op) → S.Result o → Φ
  /-- The program goes on in the same way whatever the operation returns. -/
  hidden : Φ → S.Op → Prop
  mayPanic : Φ → Prop

def Follows (P : Protocol S Φ) (post : Φ → α → Prop) : Φ → Program S α → Prop
  | φ, .ret a => post φ a
  | φ, .call o k => P.allowed φ o ∧ (P.hidden φ o → ∀ r r', k r = k r') ∧
      ∀ r, Follows P post (P.next φ o r) (k r)
  | φ, .panic => P.mayPanic φ

namespace Follows

variable {P : Protocol S Φ} {post : Φ → α → Prop} {φ : Φ}

variable {p : Program S α}

theorem bind {post : Φ → β → Prop} {f : α → Program S β}
    (h : Follows P (fun φ a => Follows P post φ (f a)) φ p) : Follows P post φ (p >>= f) := by
  induction p generalizing φ with
  | ret a => exact h
  | call o k ih =>
    obtain ⟨hallowed, hhidden, hk⟩ := h
    refine ⟨hallowed, fun hh r r' => ?_, fun r => ih r (hk r)⟩
    exact congrArg (fun q => Program.bind q f) (hhidden hh r r')
  | panic => exact h

theorem mono {post' : Φ → α → Prop} (h : Follows P post φ p) (himp : ∀ φ a, post φ a → post' φ a) :
    Follows P post' φ p := by
  induction p generalizing φ with
  | ret a => exact himp φ a h
  | call o k ih => exact ⟨h.1, h.2.1, fun r => ih r (h.2.2 r)⟩
  | panic => exact h

theorem ofOption {o : Option α} (hφ : P.mayPanic φ) (h : ∀ a, o = some a → post φ a) :
    Follows P post φ (Program.ofOption o) := by
  cases o with
  | none => exact hφ
  | some a => exact h a rfl

/-- A phase invariant `J` that every round keeps holds after the loop. -/
theorem forEach {J : Φ → Prop} {f : ι → Program S β} {xs : List ι}
    (hround : ∀ x ∈ xs, ∀ φ, J φ → Follows P (fun φ _ => J φ) φ (f x)) (hφ : J φ) :
    Follows P (fun φ _ => J φ) φ (Program.forEach f xs) := by
  induction xs generalizing φ with
  | nil => exact hφ
  | cons x xs ih =>
    refine Follows.bind ((hround x List.mem_cons_self φ hφ).mono fun φ b hJ => ?_)
    refine Follows.bind ((ih (fun y hy => hround y (List.mem_cons_of_mem x hy)) hJ).mono ?_)
    exact fun φ bs hJ => hJ

/-- What every allowed operation keeps holds at the end of the run. -/
theorem run_invariant {step : (o : S.Op) → σ → S.Result o × σ} {I : Φ → σ → Prop}
    (hstep : ∀ φ o s, P.allowed φ o → I φ s → I (P.next φ o (step o s).1) (step o s).2) {s : σ}
    (h : Follows P post φ p) (hI : I φ s) :
    ∃ φ', I φ' (run step p s).2 ∧ ((run step p s).1 = none → P.mayPanic φ') ∧
      ∀ a, (run step p s).1 = some a → post φ' a := by
  induction p generalizing φ s with
  | ret a =>
    refine ⟨φ, hI, (fun hb => nomatch hb), fun b hb => ?_⟩
    cases hb
    exact h
  | call o k ih => exact ih _ (h.2.2 _) (hstep φ o s h.1 hI)
  | panic => exact ⟨φ, hI, (fun _ => h), fun a ha => nomatch ha⟩

/-- Two machines in related states give a program the same result, and end in
related states, when each allowed operation keeps the relation and answers alike
unless its result is hidden. -/
theorem run_related {step step' : (o : S.Op) → σ → S.Result o × σ} {R : Φ → σ → σ → Prop}
    (hstep : ∀ φ o s t, P.allowed φ o → R φ s t →
      R (P.next φ o (step o s).1) (step o s).2 (step' o t).2 ∧
      ((step o s).1 = (step' o t).1 ∨ P.hidden φ o))
    {s t : σ} (h : Follows P post φ p) (hR : R φ s t) :
    (run step p s).1 = (run step' p t).1 ∧
      ∃ φ', R φ' (run step p s).2 (run step' p t).2 ∧ ((run step p s).1 = none → P.mayPanic φ') ∧
        ∀ a, (run step p s).1 = some a → post φ' a := by
  induction p generalizing φ s t with
  | ret a =>
    refine ⟨rfl, φ, hR, (fun hb => nomatch hb), fun b hb => ?_⟩
    cases hb
    exact h
  | call o k ih =>
    obtain ⟨hallowed, hhidden, hk⟩ := h
    obtain ⟨hR', hres⟩ := hstep φ o s t hallowed hR
    have heq : k (step' o t).1 = k (step o s).1 := by
      cases hres with
      | inl heq => rw [heq]
      | inr hh => exact hhidden hh _ _
    simp only [run, heq]
    exact ih _ (hk _) hR'
  | panic => exact ⟨rfl, φ, hR, (fun _ => h), fun a ha => nomatch ha⟩

end Follows

/-! ## Programs whose operations may answer anything -/

/-- The protocol that allows everything; `fault` says whether a panic is allowed too. -/
def Protocol.free (S : Interface) (fault : Prop) : Protocol S Unit :=
  ⟨fun _ _ => True, fun _ _ _ => (), fun _ _ => False, fun _ => fault⟩

/-- Whatever the operations answer, the program returns only results with `post`. -/
def Yields (fault : Prop) (post : α → Prop) (p : Program S α) : Prop :=
  Follows (.free S fault) (fun _ a => post a) () p

namespace Yields

variable {fault : Prop} {post : α → Prop}

theorem ret {a : α} (h : post a) : Yields fault post (pure a : Program S α) := h

variable {p : Program S α}

theorem bind {post : β → Prop} {f : α → Program S β}
    (h : Yields fault (fun a => Yields fault post (f a)) p) : Yields fault post (p >>= f) :=
  Follows.bind h

theorem mono {post' : α → Prop} (h : Yields fault post p) (himp : ∀ a, post a → post' a) :
    Yields fault post' p :=
  Follows.mono h fun _ a ha => himp a ha

/-- A program that never panics is one that may. -/
theorem weaken (h : Yields False post p) : Yields fault post p := by
  induction p with
  | ret a => exact h
  | call o k ih => exact ⟨trivial, False.elim, fun r => ih r (h.2.2 r)⟩
  | panic => exact h.elim

theorem perform {o : S.Op} {f : S.Result o → Program S α} (h : ∀ r, Yields fault post (f r)) :
    Yields fault post (Program.perform o >>= f) :=
  ⟨trivial, False.elim, h⟩

theorem invoke {o : S.Op} {f : Unit → Program S α} (h : Yields fault post (f ())) :
    Yields fault post (Program.invoke o >>= f) :=
  ⟨trivial, False.elim, fun _ => h⟩

theorem ofOption {o : Option α} {post : β → Prop} {f : α → Program S β} (hf : o = none → fault)
    (h : ∀ a, o = some a → Yields fault post (f a)) :
    Yields fault post (Program.ofOption o >>= f) := by
  cases o with
  | none => exact hf rfl
  | some a => exact h a rfl

theorem forEach {post : β → Prop} {f : ι → Program S β} {xs : List ι}
    (h : ∀ x ∈ xs, Yields fault post (f x)) :
    Yields fault (fun bs => bs.length = xs.length ∧ ∀ b ∈ bs, post b) (Program.forEach f xs) := by
  induction xs with
  | nil => exact ⟨rfl, nofun⟩
  | cons x xs ih =>
    refine bind ((h x List.mem_cons_self).mono fun b hb => ?_)
    refine bind ((ih fun y hy => h y (List.mem_cons_of_mem x hy)).mono fun bs hbs => ?_)
    exact ret ⟨congrArg Nat.succ hbs.1, List.forall_mem_cons.mpr ⟨hb, hbs.2⟩⟩

theorem performed (o : S.Op) : Yields fault (fun _ => True) (Program.perform o) :=
  ⟨trivial, False.elim, fun _ => trivial⟩

theorem invoked (o : S.Op) : Yields fault (fun _ => True) (Program.invoke o) :=
  ⟨trivial, False.elim, fun _ => trivial⟩

/-- A loop whose results do not matter. -/
theorem loop {post : α → Prop} {f : ι → Program S β} {xs : List ι} {k : List β → Program S α}
    (h : ∀ x, Yields fault (fun _ => True) (f x)) (hk : ∀ bs, Yields fault post (k bs)) :
    Yields fault post (Program.forEach f xs >>= k) :=
  bind ((forEach fun x _ => h x).mono fun bs _ => hk bs)

/-- A result of the run has the postcondition, and there is one unless a panic is allowed. -/
theorem run (step : (o : S.Op) → σ → S.Result o × σ) (h : Yields fault post p) (s : σ) :
    (∀ a, (Program.run step p s).1 = some a → post a) ∧
    ((Program.run step p s).1 = none → fault) := by
  obtain ⟨_, -, hpanic, hpost⟩ : ∃ _ : Unit, True ∧ ((Program.run step p s).1 = none → fault) ∧
      ∀ a, (Program.run step p s).1 = some a → post a :=
    Follows.run_invariant (I := fun _ _ => True) (fun _ _ _ _ _ => trivial) h (s := s) trivial
  exact ⟨hpost, hpanic⟩

end Yields

/-! ## Programs that cannot tell some results apart -/

/-- The program goes on in the same way with a result and with its image under `π`. -/
def Blind (π : (o : S.Op) → S.Result o → S.Result o) : Program S α → Prop
  | .ret _ => True
  | .call o k => (∀ r, k (π o r) = k r) ∧ ∀ r, Blind π (k r)
  | .panic => True

namespace Blind

variable {π : (o : S.Op) → S.Result o → S.Result o}

theorem bind {p : Program S α} {f : α → Program S β} (hp : Blind π p) (hf : ∀ a, Blind π (f a)) :
    Blind π (p >>= f) := by
  induction p with
  | ret a => exact hf a
  | call o k ih =>
    refine ⟨fun r => ?_, fun r => ih r (hp.2 r)⟩
    exact congrArg (fun q => Program.bind q f) (hp.1 r)
  | panic => exact trivial

theorem ofOption {o : Option α} {f : α → Program S β} (h : ∀ a, Blind π (f a)) :
    Blind π (Program.ofOption o >>= f) := by
  cases o with
  | none => exact trivial
  | some a => exact h a

theorem perform {o : S.Op} {f : S.Result o → Program S α} (heq : ∀ r, f (π o r) = f r)
    (h : ∀ r, Blind π (f r)) : Blind π (Program.perform o >>= f) :=
  ⟨heq, h⟩

theorem invoke (o : S.Op) : Blind π (Program.invoke o) := ⟨fun _ => rfl, fun _ => trivial⟩

theorem forEach {f : ι → Program S β} {xs : List ι} (h : ∀ x, Blind π (f x)) :
    Blind π (Program.forEach f xs) := by
  induction xs with
  | nil => exact trivial
  | cons x xs ih => exact (h x).bind fun b => ih.bind fun bs => trivial

/-- Machines in related states, whose results have the same image, run the program alike. -/
theorem run_related {step step' : (o : S.Op) → σ → S.Result o × σ} {R : σ → σ → Prop}
    (hstep : ∀ o s t, R s t → π o (step o s).1 = π o (step' o t).1 ∧ R (step o s).2 (step' o t).2)
    {p : Program S α} {s t : σ} (h : Blind π p) (hR : R s t) :
    (run step p s).1 = (run step' p t).1 ∧ R (run step p s).2 (run step' p t).2 := by
  induction p generalizing s t with
  | ret a => exact ⟨rfl, hR⟩
  | call o k ih =>
    obtain ⟨hres, hR'⟩ := hstep o s t hR
    have heq : k (step o s).1 = k (step' o t).1 :=
      calc k (step o s).1 = k (π o (step o s).1) := (h.1 _).symm
        _ = k (π o (step' o t).1) := by rw [hres]
        _ = k (step' o t).1 := h.1 _
    simp only [run, heq]
    exact ih _ (h.2 _) hR'
  | panic => exact ⟨rfl, hR⟩

end Blind

end Program
