import TaintTrail.Proofs.Analysis.Run

/-!
# The order of the work does not matter

A run of the analysis may follow pending path edges in any order and go through callers, end
summaries and facts in any order. Whether it gives up a procedure does not depend on that, and if it
gives up none, neither do its tables.
-/

namespace TaintTrail

open Program

/-- Two finished runs, in whatever order they did their work, both give up a procedure or neither
does. If neither does, they have the same path edges, the same summaries and the same facts before
every instruction, and their tables are the least that are closed under the rules. -/
theorem finishedRun_order_independent {m : Program} (hm : m.Built) (config : Config)
    {run₁ run₂ : Run Nat Fact Findings} (h₁ : m.FinishedRun config run₁)
    (h₂ : m.FinishedRun config run₂) :
    (run₁.store.aborted = [] ↔ run₂.store.aborted = []) ∧
      (run₁.store.aborted = [] → run₁.tables = run₂.tables ∧
        (∀ n d, d ∈ run₁.factsAt n ↔ d ∈ run₂.factsAt n) ∧
        run₁.tables.IsLeastClosed (m.taintProblem config) m.supergraph (m.outcomes config)) := by
  have hwf := hm.wellFormed
  have hiff : run₁.store.aborted = [] ↔ run₂.store.aborted = [] := by
    rw [h₁.aborted_eq_nil_iff hwf, h₂.aborted_eq_nil_iff hwf]
  refine ⟨hiff, fun hquiet₁ => ?_⟩
  have hquiet₂ := hiff.mp hquiet₁
  refine ⟨?_, fun n d => ?_, ?_⟩
  · rw [h₁.tables_eq hwf hquiet₁, h₂.tables_eq hwf hquiet₂]
  · rw [h₁.mem_factsAt hwf hquiet₁, h₂.mem_factsAt hwf hquiet₂]
  · rw [h₁.tables_eq hwf hquiet₁]
    exact Tables.isLeastClosed_entailed

/-- Every finished run on the program finds what the solver finds. -/
theorem finishedRun_order_independent_branchOnSource :
    branchOnSourceRun.store.aborted = [] ∧ ∀ run, branchOnSource.FinishedRun {} run →
      run.store.aborted = [] ∧ run.tables = branchOnSourceRun.tables := by
  have hquiet : branchOnSourceRun.store.aborted = [] := by decide +kernel
  refine ⟨hquiet, fun run hrun => ?_⟩
  obtain ⟨hiff, htables⟩ :=
    finishedRun_order_independent (built_constructed _ _) {} finishedRun_branchOnSourceRun hrun
  exact ⟨hiff.mp hquiet, (htables hquiet).1.symm⟩

end TaintTrail
