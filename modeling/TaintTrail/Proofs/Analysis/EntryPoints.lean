import TaintTrail.Proofs.Analysis.Run
import TaintTrail.Proofs.Tabulation.Limit
import TaintTrail.Proofs.Tabulation.Seeds

/-!
# Several entry points

The analysis of several entry points finds what the analyses of some of them and of the others find,
and nothing else, also where procedures of one part call procedures of the other. The parts need no
more work than the whole.
-/

namespace TaintTrail

/-- The configuration with other entry points. -/
def Config.startingAt (config : Config) (names : List String) : Config :=
  { config with entryPoints := names }

namespace Program

variable {m : Program} {config : Config} {names₁ names₂ : List String}

/-- The seeds of two lists of entry points are those of the one and of the other. -/
theorem mem_seeds_startingAt_append (seed : Nat × Fact) :
    seed ∈ (m.taintProblem (config.startingAt (names₁ ++ names₂))).seeds ↔
      seed ∈ (m.taintProblem (config.startingAt names₁)).seeds ∨
        seed ∈ (m.taintProblem (config.startingAt names₂)).seeds := by
  simp only [taintProblem, starts, Config.startingAt, List.filterMap_append, List.map_append,
    List.mem_append]

/-- The analysis starts where procedures begin. -/
theorem WellFormed.beginsAt_of_mem_seeds (hm : m.WellFormed) {n : Nat} {d : Fact}
    (h : (n, d) ∈ (m.taintProblem config).seeds) : m.supergraph.BeginsAt n := by
  intro entry howner
  obtain ⟨start, hstart, heq⟩ := List.mem_map.mp h
  obtain ⟨rfl, -⟩ := Prod.mk.inj heq
  obtain ⟨name, -, hentry⟩ := List.mem_filterMap.mp hstart
  obtain ⟨p, hnamed, hentry⟩ := Option.bind_eq_some_iff.mp hentry
  obtain ⟨i, -, hp⟩ := Option.bind_eq_some_iff.mp hnamed
  obtain ⟨⟨inst, hinst, rfl⟩, -⟩ := hm.exists_inst_of_entry? hp hentry
  have hself := hm.entryOf?_supergraph.mpr ⟨inst, p, hinst, hp, hentry⟩
  exact Option.some.inj (howner.symm.trans hself)

/-- Two lists of entry points together entail what the one or the other does. -/
theorem WellFormed.entailed_append_iff (hm : m.WellFormed) {e : PathEdge Nat Fact} :
    Entailed (m.taintProblem (config.startingAt (names₁ ++ names₂))) m.supergraph
        (m.outcomes config) e ↔
      Entailed (m.taintProblem (config.startingAt names₁)) m.supergraph (m.outcomes config) e ∨
        Entailed (m.taintProblem (config.startingAt names₂)) m.supergraph (m.outcomes config)
          e := by
  apply entailed_iff_of_seeds hm.wellShaped_supergraph
  · exact fun n d => eq_zero_of_mem_seeds
  · exact fun n d => hm.beginsAt_of_mem_seeds
  · rfl
  · rfl
  · exact mem_seeds_startingAt_append

/-- Two lists of entry points together entail the summaries that the one or the other does. -/
theorem WellFormed.entailedSummary_append_iff (hm : m.WellFormed) {s : Summary Nat Fact} :
    EntailedSummary (m.taintProblem (config.startingAt (names₁ ++ names₂))) m.supergraph
        (m.outcomes config) s ↔
      EntailedSummary (m.taintProblem (config.startingAt names₁)) m.supergraph
          (m.outcomes config) s ∨
        EntailedSummary (m.taintProblem (config.startingAt names₂)) m.supergraph
          (m.outcomes config) s := by
  apply entailedSummary_iff_of_seeds hm.wellShaped_supergraph
  · exact fun n d => eq_zero_of_mem_seeds
  · exact fun n d => hm.beginsAt_of_mem_seeds
  · rfl
  · rfl
  · exact mem_seeds_startingAt_append

/-! ## Some of the entry points -/

/-- More entry points entail more. -/
theorem entailed_startingAt_mono (hnames : names₁ ⊆ names₂) {e : PathEdge Nat Fact}
    (he : Entailed (m.taintProblem (config.startingAt names₁)) m.supergraph (m.outcomes config) e) :
    Entailed (m.taintProblem (config.startingAt names₂)) m.supergraph (m.outcomes config) e := by
  apply he.mono_seeds
  · rfl
  · refine List.map_subset _ fun start hstart => ?_
    obtain ⟨name, hname, hentry⟩ := List.mem_filterMap.mp hstart
    exact List.mem_filterMap.mpr ⟨name, hnames hname, hentry⟩

section Some

variable {joint run : Run Nat Fact Findings}

/-- If a run gives up no procedure, then one for some of its entry points gives up none. -/
theorem FinishedRun.aborted_eq_nil_of_subset (hm : m.WellFormed)
    (h : m.FinishedRun (config.startingAt names₂) joint) (hquiet : joint.store.aborted = [])
    (hnames : names₁ ⊆ names₂) (hrun : m.FinishedRun (config.startingAt names₁) run) :
    run.store.aborted = [] := by
  rw [hrun.aborted_eq_nil_iff hm]
  intro t d happlied
  refine (h.aborted_eq_nil_iff hm).mp hquiet t d (happlied.mono fun e he => ?_)
  exact entailed_startingAt_mono hnames he

/-- A run for some of the entry points records no more path edges than one for all has followed. -/
theorem FinishedRun.size_edges_le_of_subset (hm : m.WellFormed)
    (h : m.FinishedRun (config.startingAt names₂) joint) (hquiet : joint.store.aborted = [])
    (hnames : names₁ ⊆ names₂) (hrun : m.PartialRun (config.startingAt names₁) run) :
    run.edges.size ≤ joint.followed := by
  have hsubset : run.edges.toList ⊆ joint.edges.toList := by
    intro e he
    have hentailed := hrun.entailed hm (Array.mem_def.mpr he)
    exact Array.mem_def.mp ((h.mem_edges_iff hm hquiet).mpr
      (entailed_startingAt_mono hnames hentailed))
  obtain ⟨done, hscheduled⟩ := hrun
  rw [Run.Finished.followed_eq h]
  simpa using (List.subperm_of_subset hscheduled.nodup hsubset).length_le

end Some

end Program

open Program

/-- Of two lists of entry points, let the analysis of both together come to an end, in whatever
order it does its work, and give up no procedure. Then the analysis of each of them alone comes to
an end and gives up no procedure, whatever the order, and follows no more path edges. The path edges
of both together are those of the one and of the other, and so are the summaries and the facts
before every instruction. -/
theorem finishedRun_startingAt_append {m : Program} (hm : m.Built) (config : Config)
    {names₁ names₂ : List String} {joint : Run Nat Fact Findings}
    (h : m.FinishedRun (config.startingAt (names₁ ++ names₂)) joint)
    (hquiet : joint.store.aborted = []) :
    (∀ names ∈ [names₁, names₂],
      (∀ run, m.PartialRun (config.startingAt names) run → run.followed ≤ joint.followed) ∧
      ∀ limit, joint.followed ≤ limit →
        (m.limitedRun (config.startingAt names) limit).isComplete = true) ∧
    ∀ run₁ run₂, m.FinishedRun (config.startingAt names₁) run₁ →
      m.FinishedRun (config.startingAt names₂) run₂ →
      run₁.store.aborted = [] ∧ run₂.store.aborted = [] ∧
        joint.tables.edges = run₁.tables.edges ∪ run₂.tables.edges ∧
        joint.tables.summaries = run₁.tables.summaries ∪ run₂.tables.summaries ∧
        ∀ n d, d ∈ joint.factsAt n ↔ d ∈ run₁.factsAt n ∨ d ∈ run₂.factsAt n := by
  have hwf := hm.wellFormed
  have hnames₁ : names₁ ⊆ names₁ ++ names₂ := List.subset_append_left names₁ names₂
  have hnames₂ : names₂ ⊆ names₁ ++ names₂ := List.subset_append_right names₁ names₂
  refine ⟨fun names hnames => ?_, fun run₁ run₂ hrun₁ hrun₂ => ?_⟩
  · have hsubset : names ⊆ names₁ ++ names₂ := by
      obtain rfl | rfl := List.mem_pair.mp hnames
      · exact hnames₁
      · exact hnames₂
    refine ⟨fun run hrun => ?_, fun limit hlimit => ?_⟩
    · have hsize := h.size_edges_le_of_subset hwf hquiet hsubset hrun
      obtain ⟨done, hscheduled⟩ := hrun
      exact hscheduled.followed_le.trans hsize
    · have hsize := h.size_edges_le_of_subset hwf hquiet hsubset
        (m.partialRun_limitedRun (config.startingAt names) limit)
      exact Run.isComplete_solve_of_size_le (hsize.trans hlimit)
  · have hquiet₁ := h.aborted_eq_nil_of_subset hwf hquiet hnames₁ hrun₁
    have hquiet₂ := h.aborted_eq_nil_of_subset hwf hquiet hnames₂ hrun₂
    have htables := h.tables_eq hwf hquiet
    have htables₁ := hrun₁.tables_eq hwf hquiet₁
    have htables₂ := hrun₂.tables_eq hwf hquiet₂
    refine ⟨hquiet₁, hquiet₂, ?_, ?_, fun n d => ?_⟩
    · rw [htables, htables₁, htables₂]
      exact Set.ext fun e => hwf.entailed_append_iff
    · rw [htables, htables₁, htables₂]
      exact Set.ext fun s => hwf.entailedSummary_append_iff
    · rw [h.mem_factsAt hwf hquiet, hrun₁.mem_factsAt hwf hquiet₁, hrun₂.mem_factsAt hwf hquiet₂,
        ← exists_or]
      exact exists_congr fun source => hwf.entailed_append_iff

/-- A procedure that is called by another one, and a third one that calls neither. -/
def Program.calledByMain : Program :=
  constructed "parts"
    [.define "same" [.int 32] (.int 32) false, .emit (.ret (some (.param 0 0))) .void,
      .define "init" [] .void false, .emit (.call (.direct "getenv") []) .void,
      .emit (.ret none) .void,
      .define "main" [] (.int 32) false, .emit (.call (.direct "getenv") []) .void,
      .emit (.call (.direct "same") [.result 3]) .void, .emit (.ret (some (.result 4))) .void]

/-- The run of the solver for some of the procedures. -/
def Program.calledByMainRun (names : List String) : Run Nat Fact Findings :=
  calledByMain.limitedRun (Config.startingAt {} names) 20

/-- The callee is an entry point of the second part and is called by the first, which alone brings
taint back from it. -/
theorem finishedRun_startingAt_append_calledByMain :
    (calledByMainRun ["main", "same", "init"]).isComplete = true ∧
      (calledByMainRun ["main", "same", "init"]).store.aborted = [] ∧
      (calledByMainRun ["main", "same", "init"]).tables.edges =
        (calledByMainRun ["main"]).tables.edges ∪
          (calledByMainRun ["same", "init"]).tables.edges ∧
      .value (.result 4) ∈ (calledByMainRun ["main"]).factsAt 5 ∧
      .value (.result 4) ∉ (calledByMainRun ["same", "init"]).factsAt 5 ∧
      .value (.result 1) ∈ (calledByMainRun ["same", "init"]).factsAt 2 ∧
      .value (.result 1) ∉ (calledByMainRun ["main"]).factsAt 2 := by
  have hbuilt : calledByMain.Built := built_constructed _ _
  have hcomplete : (calledByMainRun ["main", "same", "init"]).isComplete = true := by
    decide +kernel
  have hquiet : (calledByMainRun ["main", "same", "init"]).store.aborted = [] := by decide +kernel
  have hfinished : calledByMain.FinishedRun (Config.startingAt {} (["main"] ++ ["same", "init"]))
      (calledByMainRun ["main", "same", "init"]) := Run.finished_of_isComplete hcomplete
  have hlimit : (calledByMainRun ["main", "same", "init"]).followed ≤ 20 := by decide +kernel
  obtain ⟨hends, hparts⟩ := finishedRun_startingAt_append hbuilt {} hfinished hquiet
  have hends₁ := (hends ["main"] (by simp)).2 20 hlimit
  have hends₂ := (hends ["same", "init"] (by simp)).2 20 hlimit
  obtain ⟨-, -, hedges, -⟩ := hparts _ _ (Run.finished_of_isComplete hends₁)
    (Run.finished_of_isComplete hends₂)
  exact ⟨hcomplete, hquiet, hedges, by decide +kernel, by decide +kernel, by decide +kernel,
    by decide +kernel⟩

end TaintTrail
