/-! Runs of a machine whose steps may fail, and their refinement by a total
specification: a relation kept by every successful step relates whole runs and
makes their outputs equal. -/

namespace Refine

variable {S M I O : Type}

/-- Run the inputs in order and collect the outputs; a failing step fails the run. -/
def run (step : S → I → Option (S × O)) (s : S) : List I → Option (S × List O)
  | [] => some (s, [])
  | i :: is =>
    match step s i with
    | none => none
    | some (s, o) => (run step s is).map fun (s, os) => (s, o :: os)

def specRun (spec : M → I → M × O) (m : M) : List I → M × List O
  | [] => (m, [])
  | i :: is => ((specRun spec (spec m i).1 is).1, (spec m i).2 :: (specRun spec (spec m i).1 is).2)

theorem run_cons_eq_some {step : S → I → Option (S × O)} {s s' : S} {i : I} {is : List I}
    {os : List O} (h : run step s (i :: is) = some (s', os)) :
    ∃ s1 o os', step s i = some (s1, o) ∧ run step s1 is = some (s', os') ∧ os = o :: os' := by
  rw [run] at h
  split at h
  · cases h
  · rename_i s1 o hstep
    obtain ⟨⟨s2, os'⟩, hrun, heq⟩ := Option.map_eq_some_iff.mp h
    cases heq
    exact ⟨s1, o, os', hstep, hrun, rfl⟩

theorem run_refines {step : S → I → Option (S × O)} {spec : M → I → M × O} {R : S → M → Prop}
    (hstep : ∀ s m i s' o, R s m → step s i = some (s', o) → R s' (spec m i).1 ∧ o = (spec m i).2)
    {s s' : S} {m : M} {is : List I} {os : List O} (h : R s m)
    (hrun : run step s is = some (s', os)) :
    R s' (specRun spec m is).1 ∧ os = (specRun spec m is).2 := by
  induction is generalizing s m os with
  | nil =>
    cases hrun
    exact ⟨h, rfl⟩
  | cons i is ih =>
    obtain ⟨s1, o, os', h1, h2, rfl⟩ := run_cons_eq_some hrun
    obtain ⟨hr, ho⟩ := hstep s m i s1 o h h1
    obtain ⟨hr', hos⟩ := ih hr h2
    exact ⟨hr', by rw [ho, hos]; rfl⟩

end Refine
