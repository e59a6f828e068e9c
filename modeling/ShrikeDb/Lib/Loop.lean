/-! Code whose accesses may panic and whose loops may not end. A loop is run for a number of
rounds; one with an invariant and a variant ends within as many as the variant says, without a
panic if no round has one. -/

/-- How a piece of code ends: with a value, with a panic, or not in the rounds it was given. -/
inductive Exit (α : Type)
  | value (a : α)
  | panic
  | unfinished
  deriving DecidableEq

namespace Exit

variable {α β σ τ : Type}

protected def bind : Exit α → (α → Exit β) → Exit β
  | .value a, f => f a
  | .panic, _ => .panic
  | .unfinished, _ => .unfinished

instance : Monad Exit where
  pure := .value
  bind := Exit.bind

@[simp] theorem value_bind (a : α) (f : α → Exit β) : (value a >>= f) = f a := rfl

@[simp] theorem panic_bind (f : α → Exit β) : (panic >>= f) = panic := rfl

@[simp] theorem pure_eq_value (a : α) : (pure a : Exit α) = value a := rfl

variable (x : Exit Bool)

@[simp] theorem true_and : (value true <&&> x) = x := rfl

@[simp] theorem false_and : (value false <&&> x) = value false := rfl

@[simp] theorem true_or : (value true <||> x) = value true := rfl

@[simp] theorem false_or : (value false <||> x) = x := rfl

@[simp] theorem value_or_value (a b : Bool) : (value a <||> value b) = value (a || b) := by
  cases a <;> rfl

/-- A loop of at most so many rounds. A round goes on with a state or leaves with a result. -/
def loop (round : σ → Exit (σ ⊕ α)) : Nat → σ → Exit α
  | 0, _ => .unfinished
  | fuel + 1, s =>
    round s >>= fun
      | .inl s' => loop round fuel s'
      | .inr a => .value a

variable {round : σ → Exit (σ ⊕ α)}

theorem loop_again {s s' : σ} (h : round s = .value (.inl s')) (fuel : Nat) :
    loop round (fuel + 1) s = loop round fuel s' := by
  rw [loop, h, value_bind]

theorem loop_leave {s : σ} {a : α} (h : round s = .value (.inr a)) (fuel : Nat) :
    loop round (fuel + 1) s = .value a := by
  rw [loop, h, value_bind]

theorem loop_panic {s : σ} (h : round s = .panic) (fuel : Nat) :
    loop round (fuel + 1) s = .panic := by
  rw [loop, h, panic_bind]

end Exit

/-- Why a loop ends with a right result: its states stand for abstract ones, which keep an
invariant and lower a variant. -/
structure LoopProof (τ σ α : Type) where
  state : τ → σ
  Inv : τ → Prop
  variant : τ → Nat
  Right : τ → α → Prop

namespace LoopProof

variable {α σ τ : Type} (P : LoopProof τ σ α) {round : σ → Exit (σ ⊕ α)}

/-- What a round has to do: leave with a right result, or go on to a state with the invariant and
a smaller variant from which the right results are right here too. -/
def Round (round : σ → Exit (σ ⊕ α)) (t : τ) : Prop :=
  (∃ a, round (P.state t) = .value (.inr a) ∧ P.Right t a) ∨
    ∃ t', round (P.state t) = .value (.inl (P.state t')) ∧ P.Inv t' ∧ P.variant t' < P.variant t ∧
      ∀ a, P.Right t' a → P.Right t a

theorem total (hround : ∀ t, P.Inv t → P.Round round t) (t : τ) (ht : P.Inv t) (fuel : Nat)
    (hfuel : P.variant t < fuel) :
    ∃ a, Exit.loop round fuel (P.state t) = .value a ∧ P.Right t a := by
  induction fuel generalizing t with
  | zero => exact absurd hfuel (Nat.not_lt_zero _)
  | succ fuel ih =>
    rcases hround t ht with ⟨a, hleave, ha⟩ | ⟨t', hagain, ht', hless, hback⟩
    · exact ⟨a, Exit.loop_leave hleave fuel, ha⟩
    · obtain ⟨a, hloop, ha⟩ := ih t' ht' (by omega)
      exact ⟨a, (Exit.loop_again hagain fuel).trans hloop, hback a ha⟩

end LoopProof
