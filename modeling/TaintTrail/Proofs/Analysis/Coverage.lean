import TaintTrail.Proofs.Analysis.Run
import TaintTrail.Proofs.Flow.Effect
import TaintTrail.Proofs.Flow.Shape

/-!
# What a run reports

The coverage is written on the side, by flow functions that are applied in some order, some of them
from two places. In the end it depends on the path edges alone: it holds what the applications that
are worth reporting leave, and nothing else.
-/

namespace TaintTrail

namespace Program

variable {m : Program} {config : Config} {run : Run Nat Fact Findings}

/-- The taint problem is steady also if an item in the coverage counts as a disturbance. -/
theorem taintProblem_steady_item (m : Program) (config : Config) (item : CoverageItem) :
    (m.taintProblem config).Steady (m.outcomes config)
      (fun f => f.aborted = [] ∧ item ∉ f.coverage)
      (fun t d => m.GivesUp config t d ∨ item ∈ (m.effectOf config t d).items m) where
  flow_subset := (m.taintProblem_steady config).flow_subset
  flow_eq t d f hf := (m.taintProblem_steady config).flow_eq t d f hf.1
  quiet_iff t d f := by
    rw [(m.taintProblem_steady config).quiet_iff]
    by_cases hf : f.aborted = []
    · simp only [taintProblem, Flow.ofTransfer_eq_of_aborted_eq_nil m _ hf,
        Findings.mem_note_coverage, not_or, hf, true_and]
      exact and_left_comm
    · simp [hf]

/-- The coverage of a finished run that gives up no procedure holds what the transfers that are
worth reporting leave. -/
theorem FinishedRun.mem_coverage_iff (hm : m.WellFormed) (h : m.FinishedRun config run)
    (hquiet : run.store.aborted = []) {item : CoverageItem} :
    item ∈ run.store.coverage ↔
      ∃ t d, Applied (m.taintProblem config) m.supergraph (m.outcomes config) t d ∧
        m.Marks config t d ∧ item ∈ m.itemsAlong t := by
  have hgoes := (h.aborted_eq_nil_iff hm).mp hquiet
  have hiff := Run.Finished.quiet_iff (m.taintProblem_steady_item config item)
    hm.wellShaped_supergraph ⟨rfl, Coverage.notMem_empty⟩ h
  simp only [hquiet, true_and] at hiff
  constructor
  · intro hitem
    by_contra hnone
    refine hiff.mpr (fun t d happlied halarm => hnone ⟨t, d, happlied, ?_⟩) hitem
    exact (hm.mem_items_effectOf happlied.has).mp (halarm.resolve_left (hgoes t d happlied))
  · rintro ⟨t, d, happlied, hmarks⟩
    by_contra hitem
    exact hiff.mp hitem t d happlied (.inr ((hm.mem_items_effectOf happlied.has).mpr hmarks))

/-- The instructions that taint touches, by the facts and path edges of a run. -/
inductive Touched (m : Program) (config : Config) (run : Run Nat Fact Findings) : Nat → Prop
  /-- A tainted fact turns into a new one at an instruction. -/
  | within {n s : Nat} {d e : Fact} : (n, .normal s) ∈ m.supergraph.links → d ∈ run.factsAt n →
      d.isZero = false → e ∈ m.outcomes config (.normal n s) d → e ≠ d → e.list = none →
      Touched m config run n
  /-- Control reaches a source that brings taint in. -/
  | source {c r : Nat} {site : CallSite} : (c, .callToReturn r) ∈ m.supergraph.links →
      .zero ∈ run.factsAt c → m.rule? config c = some (.call site) → site.generated ≠ [] →
      Touched m config run c
  /-- A tainted fact turns into a new one past a call. -/
  | past {c r : Nat} {d e : Fact} : (c, .callToReturn r) ∈ m.supergraph.links →
      d ∈ run.factsAt c → d.isZero = false → e ∈ m.outcomes config (.callToReturn c r) d →
      e ≠ d → e.list = none → Touched m config run c
  /-- A tainted fact gets into a callee. -/
  | into {c entry : Nat} {d : Fact} : (c, .call entry) ∈ m.supergraph.links →
      d ∈ run.factsAt c → d.isZero = false → m.outcomes config (.call c entry) d ≠ [] →
      Touched m config run c
  /-- A tainted fact at an exit gets back to a call that has entered the procedure with the fact in
  whose context it holds. -/
  | outOf {x r c entry : Nat} {callerFact entryFact d : Fact} : m.supergraph.isExit x = true →
      m.supergraph.entryOf? x = some entry → ⟨entryFact, x, d⟩ ∈ run.edges → d.isZero = false →
      callerFact ∈ run.factsAt c → (c, .call entry) ∈ m.supergraph.links →
      entryFact ∈ m.outcomes config (.call c entry) callerFact →
      (x, .ret r c) ∈ m.supergraph.links → m.outcomes config (.ret x r c) d ≠ [] →
      Touched m config run x

/-- A procedure that a tainted fact of a call gets into. -/
def Entered (m : Program) (config : Config) (run : Run Nat Fact Findings) (p : Procedure) : Prop :=
  ∃ c entry d, (c, .call entry) ∈ m.supergraph.links ∧ m.callTarget? c = some p ∧
    d ∈ run.factsAt c ∧ d.isZero = false ∧ m.outcomes config (.call c entry) d ≠ []

section Touched

variable (hm : m.WellFormed) (h : m.FinishedRun config run) (hquiet : run.store.aborted = [])

include hm h hquiet

/-- An instruction is touched if a transfer that is worth reporting leaves it. -/
theorem FinishedRun.touched_of_marks {t : Transfer Nat} {d : Fact}
    (happlied : Applied (m.taintProblem config) m.supergraph (m.outcomes config) t d)
    (hmarks : m.Marks config t d) : m.Touched config run t.source := by
  obtain ⟨source, hsource⟩ := happlied.exists_entailed
  have hfact : d ∈ run.factsAt t.source := (h.mem_factsAt hm hquiet).mpr ⟨source, hsource⟩
  cases happlied with
  | normal _ hlink =>
    obtain ⟨hzero, e, he, hne, hlist⟩ := hmarks
    exact .within hlink hfact hzero he hne hlist
  | @callToReturn edge r _ hlink =>
    obtain ⟨context, c, d⟩ := edge
    obtain ⟨e, he, hne, hlist⟩ := id hmarks
    cases hzero : d.isZero with
    | true =>
      -- There is only one zero fact, and what comes of it is what the call brings in.
      obtain rfl := (hm.shaped_of_entailed hsource).2.eq_zero hzero
      obtain ⟨site, hrule, -⟩ := hm.outcomes_callToReturn_of_has config hlink
      exact .source hlink hfact hrule ((marks_callToReturn_zero_iff hrule).mp hmarks)
    | false => exact .past hlink hfact hzero he hne hlist
  | call _ hlink => exact .into hlink hfact hmarks.1 hmarks.2
  | ret hcross =>
    obtain ⟨entry, entryFact, hcaller, hcall, hentry, hexit, hisExit, howner, hret⟩ := hcross
    exact .outOf hisExit howner ((h.mem_edges_iff hm hquiet).mpr hexit) hmarks.1
      ((h.mem_factsAt hm hquiet).mpr ⟨_, hcaller⟩) hcall hentry hret hmarks.2

/-- A transfer that is worth reporting leaves every touched instruction. -/
theorem FinishedRun.exists_marks_of_touched {n : Nat} (htouched : m.Touched config run n) :
    ∃ t d, Applied (m.taintProblem config) m.supergraph (m.outcomes config) t d ∧
      m.Marks config t d ∧ t.source = n := by
  cases htouched with
  | within hlink hfact hzero he hne hlist =>
    obtain ⟨source, hsource⟩ := (h.mem_factsAt hm hquiet).mp hfact
    exact ⟨_, _, .normal hsource hlink, ⟨hzero, _, he, hne, hlist⟩, rfl⟩
  | source hlink hfact hrule hgenerated =>
    obtain ⟨source, hsource⟩ := (h.mem_factsAt hm hquiet).mp hfact
    exact ⟨_, _, .callToReturn hsource hlink, (marks_callToReturn_zero_iff hrule).mpr hgenerated,
      rfl⟩
  | past hlink hfact _ he hne hlist =>
    obtain ⟨source, hsource⟩ := (h.mem_factsAt hm hquiet).mp hfact
    exact ⟨_, _, .callToReturn hsource hlink, ⟨_, he, hne, hlist⟩, rfl⟩
  | into hlink hfact hzero hsome =>
    obtain ⟨source, hsource⟩ := (h.mem_factsAt hm hquiet).mp hfact
    exact ⟨_, _, .call hsource hlink, ⟨hzero, hsome⟩, rfl⟩
  | outOf hisExit howner hedge hzero hcaller hcall hentry hret hsome =>
    obtain ⟨source, hsource⟩ := (h.mem_factsAt hm hquiet).mp hcaller
    have hexit := (h.mem_edges_iff hm hquiet).mp hedge
    exact ⟨_, _, .ret ⟨_, _, hsource, hcall, hentry, hexit, hisExit, howner, hret⟩,
      ⟨hzero, hsome⟩, rfl⟩

/-- A procedure is entered exactly if a call into it is worth reporting. -/
theorem FinishedRun.entered_iff {p : Procedure} : m.Entered config run p ↔ ∃ c entry d,
    Applied (m.taintProblem config) m.supergraph (m.outcomes config) (.call c entry) d ∧
      m.Marks config (.call c entry) d ∧ m.callTarget? c = some p := by
  constructor
  · rintro ⟨c, entry, d, hlink, hcallee, hfact, hmarks⟩
    obtain ⟨source, hsource⟩ := (h.mem_factsAt hm hquiet).mp hfact
    exact ⟨c, entry, d, .call hsource hlink, hmarks, hcallee⟩
  · rintro ⟨c, entry, d, happlied, hmarks, hcallee⟩
    exact ⟨c, entry, d, happlied.has, hcallee,
      (h.mem_factsAt hm hquiet).mpr happlied.exists_entailed, hmarks⟩

end Touched

end Program

open Program

/-- Let a run of the analysis come to an end, in whatever order it does its work, and give up no
procedure. Then its coverage holds a line exactly if taint touches an instruction of that line, and
it lists a procedure under a file exactly if taint touches an instruction of the procedure in that
file, or gets into the procedure by a call and the file is that of the procedure. -/
theorem mem_coverage_iff_touched {m : Program} (hm : m.Built) (config : Config)
    {run : Run Nat Fact Findings} (h : m.FinishedRun config run)
    (hquiet : run.store.aborted = []) :
    (∀ file line, .line file line ∈ run.store.coverage ↔
      ∃ n, m.lineOf? n = some ⟨file, line⟩ ∧ m.Touched config run n) ∧
    ∀ file name, .procedure file name ∈ run.store.coverage ↔
      (∃ n line p, m.lineOf? n = some ⟨file, line⟩ ∧ m.procedureOf? n = some p ∧ p.name = name ∧
        m.Touched config run n) ∨
      ∃ p, p.sourceFile = some file ∧ p.name = name ∧ m.Entered config run p := by
  have hwf := hm.wellFormed
  refine ⟨fun file line => ?_, fun file name => ?_⟩ <;> rw [h.mem_coverage_iff hwf hquiet]
  · constructor
    · rintro ⟨t, d, happlied, hmarks, hitem⟩
      exact ⟨t.source, hwf.line_mem_itemsAlong_iff.mp hitem,
        h.touched_of_marks hwf hquiet happlied hmarks⟩
    · rintro ⟨n, hline, htouched⟩
      obtain ⟨t, d, happlied, hmarks, rfl⟩ := h.exists_marks_of_touched hwf hquiet htouched
      exact ⟨t, d, happlied, hmarks, hwf.line_mem_itemsAlong_iff.mpr hline⟩
  · constructor
    · rintro ⟨t, d, happlied, hmarks, hitem⟩
      obtain ⟨line, p, hline, hp, hname⟩ | ⟨c, entry, p, rfl, hcallee, hfile, hname⟩ :=
        procedure_mem_itemsAlong_iff.mp hitem
      · exact .inl ⟨t.source, line, p, hline, hp, hname,
          h.touched_of_marks hwf hquiet happlied hmarks⟩
      · exact .inr ⟨p, hfile, hname,
          (h.entered_iff hwf hquiet).mpr ⟨c, entry, d, happlied, hmarks, hcallee⟩⟩
    · rintro (⟨n, line, p, hline, hp, hname, htouched⟩ | ⟨p, hfile, hname, hentered⟩)
      · obtain ⟨t, d, happlied, hmarks, rfl⟩ := h.exists_marks_of_touched hwf hquiet htouched
        exact ⟨t, d, happlied, hmarks,
          procedure_mem_itemsAlong_iff.mpr (.inl ⟨line, p, hline, hp, hname⟩)⟩
      · obtain ⟨c, entry, d, happlied, hmarks, hcallee⟩ := (h.entered_iff hwf hquiet).mp hentered
        exact ⟨_, d, happlied, hmarks,
          procedure_mem_itemsAlong_iff.mpr (.inr ⟨c, entry, p, rfl, hcallee, hfile, hname⟩)⟩

/-- Declares a variable and fills it from a source on the same line, and passes it through a
procedure of another file. -/
def Program.passedThroughLibrary : Program :=
  constructed "lines"
    [.define "same" [.int 32] (.int 32) false, .sourceFile "lib.c", .atLine 9,
      .emit (.ret (some (.param 0 0))) .void,
      .define "main" [] (.int 32) false, .sourceFile "main.c", .atLine 2,
      .emit (.alloca (.int 32)) .void, .emit (.call (.direct "getenv") []) .void, .atLine 3,
      .emit (.call (.direct "same") [.result 2]) .void, .atLine 4,
      .emit (.ret (some (.result 3))) .void]

/-- The run in the order of the solver. -/
def Program.passedThroughLibraryRun : Run Nat Fact Findings :=
  passedThroughLibrary.limitedRun {} 20

/-- Taint touches the source, the call and the exit of the library, and enters the library. It does
not touch the exit of the main procedure, which nothing calls. -/
theorem mem_coverage_iff_touched_passedThroughLibrary :
    passedThroughLibraryRun.isComplete = true ∧ passedThroughLibraryRun.store.aborted = [] ∧
      .line "lib.c" 9 ∈ passedThroughLibraryRun.store.coverage ∧
      (∃ n, passedThroughLibrary.lineOf? n = some ⟨"lib.c", 9⟩ ∧
        passedThroughLibrary.Touched {} passedThroughLibraryRun n) ∧
      ¬∃ n, passedThroughLibrary.lineOf? n = some ⟨"main.c", 4⟩ ∧
        passedThroughLibrary.Touched {} passedThroughLibraryRun n := by
  have hcomplete : passedThroughLibraryRun.isComplete = true := by decide +kernel
  have hquiet : passedThroughLibraryRun.store.aborted = [] := by decide +kernel
  have hline : .line "lib.c" 9 ∈ passedThroughLibraryRun.store.coverage := by decide +kernel
  have hother : .line "main.c" 4 ∉ passedThroughLibraryRun.store.coverage := by decide +kernel
  have hbuilt : passedThroughLibrary.Built := built_constructed _ _
  obtain ⟨hlines, -⟩ :=
    mem_coverage_iff_touched hbuilt {} (Run.finished_of_isComplete hcomplete) hquiet
  exact ⟨hcomplete, hquiet, hline, (hlines _ _).mp hline, mt (hlines _ _).mpr hother⟩

/-- A line is covered although taint does not touch the first of its instructions. -/
theorem line_mem_coverage_of_not_touched :
    passedThroughLibraryRun.isComplete = true ∧ passedThroughLibraryRun.store.aborted = [] ∧
      passedThroughLibrary.lineOf? 1 = some ⟨"main.c", 2⟩ ∧
      .line "main.c" 2 ∈ passedThroughLibraryRun.store.coverage ∧
      .procedure "main.c" "main" ∈ passedThroughLibraryRun.store.coverage ∧
      ¬passedThroughLibrary.Touched {} passedThroughLibraryRun 1 := by
  have hfacts : ∀ d ∈ passedThroughLibraryRun.factsAt 1, d.isZero = true := by decide +kernel
  have hrule : passedThroughLibrary.rule? {} 1 = some .keep := by decide +kernel
  have hrun := passedThroughLibrary.partialRun_limitedRun {} 20
  refine ⟨by decide +kernel, by decide +kernel, by decide +kernel, by decide +kernel,
    by decide +kernel, fun htouched => ?_⟩
  cases htouched with
  | within _ hfact hzero => simp [hfacts _ hfact] at hzero
  | source _ _ hcall => simp [hrule] at hcall
  | past _ hfact hzero => simp [hfacts _ hfact] at hzero
  | into _ hfact hzero => simp [hfacts _ hfact] at hzero
  | outOf _ _ hedge hzero => simp [hfacts _ (hrun.mem_factsAt.mpr ⟨_, hedge⟩)] at hzero

end TaintTrail
