import TaintTrail.Analysis
import TaintTrail.Proofs.Flow.Rule
import TaintTrail.Proofs.Tabulation.Growth

/-!
# Runs of the analysis

A run of the analysis that has nothing left to do and gives up no procedure records exactly what the
rules of tabulation entail. What a run records before that is entailed as well.
-/

namespace TaintTrail

open Program

/-- A run that follows the path edges of the taint problem in some order until none is left. -/
def Program.FinishedRun (m : Program) (config : Config) (run : Run Nat Fact Findings) : Prop :=
  Run.Finished (m.taintProblem config) m.supergraph {} run

section FinishedRun

variable {m : Program} {config : Config} {run : Run Nat Fact Findings}

/-- A finished run gives up a procedure exactly if a transfer that applies does. -/
theorem Program.FinishedRun.aborted_eq_nil_iff (hm : m.WellFormed) (h : m.FinishedRun config run) :
    run.store.aborted = [] ↔
      ∀ t d, Applied (m.taintProblem config) m.supergraph (m.outcomes config) t d →
        ¬m.GivesUp config t d :=
  Run.Finished.quiet_iff (m.taintProblem_steady config) hm.wellShaped_supergraph rfl h

/-- A finished run that gives up no procedure has the tables that the rules entail. -/
theorem Program.FinishedRun.tables_eq (hm : m.WellFormed) (h : m.FinishedRun config run)
    (hquiet : run.store.aborted = []) :
    run.tables = Tables.entailed (m.taintProblem config) m.supergraph (m.outcomes config) :=
  Run.Finished.tables_eq (m.taintProblem_steady config) hm.wellShaped_supergraph rfl h hquiet

/-- The path edges of a finished run that gives up no procedure. -/
theorem Program.FinishedRun.mem_edges_iff (hm : m.WellFormed) (h : m.FinishedRun config run)
    (hquiet : run.store.aborted = []) {e : PathEdge Nat Fact} :
    e ∈ run.edges ↔ Entailed (m.taintProblem config) m.supergraph (m.outcomes config) e :=
  Set.ext_iff.mp (congrArg Tables.edges (h.tables_eq hm hquiet)) e

/-- The facts before a node of a finished run that gives up no procedure. -/
theorem Program.FinishedRun.mem_factsAt (hm : m.WellFormed) (h : m.FinishedRun config run)
    (hquiet : run.store.aborted = []) {n : Nat} {d : Fact} :
    d ∈ run.factsAt n ↔ ∃ source,
      Entailed (m.taintProblem config) m.supergraph (m.outcomes config) ⟨source, n, d⟩ :=
  Run.Finished.mem_factsAt (m.taintProblem_steady config) hm.wellShaped_supergraph rfl h hquiet

/-- A fact that an instruction turns a fact into holds before the next one. -/
theorem Program.FinishedRun.mem_factsAt_of_normal (hm : m.WellFormed)
    (h : m.FinishedRun config run) (hquiet : run.store.aborted = []) {n s : Nat} {d d' : Fact}
    {inst : Instruction} {rule : Rule} (hd : d ∈ run.factsAt n)
    (hlink : (n, .normal s) ∈ m.supergraph.links) (hinst : m.inst? n = some inst)
    (hrule : m.rule? config n = some rule) (hd' : d' ∈ rule.flow m n inst.type d) :
    d' ∈ run.factsAt s := by
  obtain ⟨source, he⟩ := (h.mem_factsAt hm hquiet).mp hd
  have hgoes : ¬m.GivesUp config (.normal n s) d :=
    (h.aborted_eq_nil_iff hm).mp hquiet _ _ (.normal he hlink)
  refine (h.mem_factsAt hm hquiet).mpr ⟨source, he.normal hlink ?_⟩
  rwa [outcomes_normal hinst hrule hgoes]

/-- A fact that a call turns a fact into holds past the call. -/
theorem Program.FinishedRun.mem_factsAt_of_callToReturn (hm : m.WellFormed)
    (h : m.FinishedRun config run) (hquiet : run.store.aborted = []) {c r : Nat} {d d' : Fact}
    {site : CallSite} (hd : d ∈ run.factsAt c) (hlink : (c, .callToReturn r) ∈ m.supergraph.links)
    (hrule : m.rule? config c = some (.call site)) (hd' : d' ∈ site.pass m config d) :
    d' ∈ run.factsAt r := by
  obtain ⟨source, he⟩ := (h.mem_factsAt hm hquiet).mp hd
  refine (h.mem_factsAt hm hquiet).mpr ⟨source, he.callToReturn hlink ?_⟩
  rwa [outcomes_callToReturn hrule]

end FinishedRun

/-- The facts that are reported before an instruction are those that hold there. -/
theorem Report.mem_factsBefore {r : Report} {n : Nat} {d : Fact} :
    d ∈ r.factsBefore n ↔ d ∈ r.run.factsAt n := by
  simp [factsBefore, Fact.sorted]

/-- Control goes on from one instruction to another of the same procedure, past calls. -/
def Program.GoesOn (m : Program) (n s : Nat) : Prop :=
  (n, .normal s) ∈ m.supergraph.links ∨ (n, .callToReturn s) ∈ m.supergraph.links

/-! ## Runs that stop early -/

/-- A run that follows path edges of the taint problem in some order and stops at any time. -/
def Program.PartialRun (m : Program) (config : Config) (run : Run Nat Fact Findings) : Prop :=
  ∃ done, Run.Scheduled (m.taintProblem config) m.supergraph {} done run

/-- Before an instruction stand the facts of the path edges that end there. -/
theorem Program.PartialRun.mem_factsAt {m : Program} {config : Config}
    {run : Run Nat Fact Findings} (h : m.PartialRun config run) {n : Nat} {d : Fact} :
    d ∈ run.factsAt n ↔ ∃ source, ⟨source, n, d⟩ ∈ run.edges := by
  obtain ⟨done, hscheduled⟩ := h
  exact hscheduled.mem_factsAt

/-- The path edges of a run are entailed. -/
theorem Program.PartialRun.entailed {m : Program} {config : Config} {run : Run Nat Fact Findings}
    (hm : m.WellFormed) (h : m.PartialRun config run) {e : PathEdge Nat Fact}
    (he : e ∈ run.edges) : Entailed (m.taintProblem config) m.supergraph (m.outcomes config) e := by
  obtain ⟨done, hscheduled⟩ := h
  exact hscheduled.entailed (m.taintProblem_steady config) hm.wellShaped_supergraph rfl he

/-- What holds of the facts of entailed path edges holds of every fact in the tables. -/
theorem Program.PartialRun.forall_recorded {m : Program} {config : Config}
    {run : Run Nat Fact Findings} (hm : m.WellFormed) (h : m.PartialRun config run)
    {P : Fact → Prop}
    (hP : ∀ e, Entailed (m.taintProblem config) m.supergraph (m.outcomes config) e →
      P e.source ∧ P e.fact) {d : Fact} (hd : d ∈ run.recorded) : P d := by
  obtain ⟨done, hscheduled⟩ := h
  obtain ⟨e, he, rfl | rfl⟩ := hscheduled.exists_entailed_of_mem_recorded
    (m.taintProblem_steady config) hm.wellShaped_supergraph rfl hd
  · exact (hP e he).1
  · exact (hP e he).2

/-- The run of the analysis that follows at most so many path edges. -/
def Program.limitedRun (m : Program) (config : Config) (limit : Nat) : Run Nat Fact Findings :=
  Run.solve (m.taintProblem config) m.supergraph limit {}

/-- The run with a limit is one of the runs in any order, though not always a finished one. -/
theorem Program.partialRun_limitedRun (m : Program) (config : Config) (limit : Nat) :
    m.PartialRun config (m.limitedRun config limit) :=
  ⟨_, Run.scheduled_solve (m.taintProblem config) m.supergraph limit {}⟩

/-- With a configuration that can be used, and entry points that are there, an analysis starts. -/
theorem Program.analyze_eq_ok {m : Program} {config : Config} (hvalid : config.validate = .ok ())
    (hentries : ∀ name ∈ config.entryPoints, m.definesEntry name = true) :
    m.analyze config = .ok ⟨m, m.limitedRun config config.limit⟩ := by
  have hfind : config.entryPoints.find? (fun name => !m.definesEntry name) = none := by
    simpa using hentries
  rw [analyze, hvalid]
  simp only [hfind]
  rfl

/-- What a run records is entailed. -/
theorem Program.entailed_of_mem_limitedRun {m : Program} {config : Config}
    (hm : m.WellFormed) {limit : Nat}
    {e : PathEdge Nat Fact} (he : e ∈ (m.limitedRun config limit).edges) :
    Entailed (m.taintProblem config) m.supergraph (m.outcomes config) e :=
  (m.partialRun_limitedRun config limit).entailed hm he

/-! ## A program with a call and a region -/

/-- Passes a value from a source through a procedure, branches on it and writes to memory in the
region of the branch. -/
def Program.branchOnSource : Program :=
  constructed "branch"
    [.define "same" [.int 32] (.int 32) false, .emit (.ret (some (.param 0 0))) .void,
      .define "main" [] (.int 32) false, .block "entry", .block "if.then", .block "if.end",
      .positionAt 0, .emit (.call (.direct "getenv") []) .void, .emit (.alloca (.int 32)) .void,
      .emit (.call (.direct "same") [.result 1]) .void, .emit (.branch (.result 3) 1 2) .void,
      .positionAt 1, .emit (.store (.int 1) (.result 2)) .void, .emit (.jump 2) .void,
      .positionAt 2, .emit (.load (.result 2)) .void, .emit (.ret (some (.result 7))) .void]

/-- The run in the order of the solver. -/
def Program.branchOnSourceRun : Run Nat Fact Findings :=
  Run.solve (branchOnSource.taintProblem {}) branchOnSource.supergraph 100 {}

/-- The run over the branch on a source is finished. -/
theorem Program.finishedRun_branchOnSourceRun : branchOnSource.FinishedRun {} branchOnSourceRun :=
  Run.finished_of_isComplete (by decide +kernel)

end TaintTrail
