import TaintTrail.Proofs.Analysis.Run
import TaintTrail.Proofs.Tabulation.Production

/-!
# Programs without sources

Taint comes into a program by the calls that are sources and by nothing else. So where no call names
a source, a run never knows more than the zero fact, however long it lasts, and never takes note of
anything. This needs no well-formed program: numbers may lead nowhere, blocks may be missing,
addresses may be computed from themselves and regions may have no end.
-/

namespace TaintTrail

/-- No call of the program directly names a source. -/
def Program.CallsNoSource (m : Program) (config : Config) : Prop :=
  ∀ inst ∈ m.instructions, ∀ name args, inst.operation = .call (.direct name) args →
    ∀ source ∈ config.sources, source.procedure ≠ name

/-- Nothing but the zero fact is reported before any instruction, and nothing else is reported. -/
structure Report.Untainted (r : Report) : Prop where
  factsBefore : ∀ n, ∀ d ∈ r.factsBefore n, d = .zero
  coverage : r.coverage = {}
  taintedInsts : r.taintedInsts = []
  aborted : r.aborted = []

/-! ## The zero fact -/

/-- The flow functions other than those past a source turn the zero fact into nothing else, touch no
line, enter no procedure and give up none. -/
theorem Flow.apply_zero (m : Program) (config : Config) {flow : Flow}
    (hsource : ∀ site, flow = .callToReturn site → site.source = none) :
    flow.apply m config .zero = { facts := [.zero] } ∨
      flow.apply m config .zero = { facts := [] } := by
  cases flow with
  | normal inst type rule => exact .inl rfl
  | unclosed inst type condition e =>
    have hdecides : decides m inst condition .zero = false := by
      simp [decides, Fact.isBranch, Fact.isPlainValue, Fact.value?, Fact.zero]
    rw [apply, hdecides]
    exact .inl rfl
  | call site callee => exact .inl rfl
  | ret site exit => exact .inl rfl
  | callToReturn site =>
    have hgenerated : site.generated = [] := by rw [CallSite.generated, hsource site rfl]
    have hpass : site.pass m config .zero = .zero :: site.generated := rfl
    rw [apply, hpass, hgenerated]
    exact .inl rfl
  | identity => exact .inl rfl
  | kill => exact .inr rfl

namespace Program

variable {m : Program} {config : Config}

/-- The name that a call site calls directly is that of some call of the program, even if the site
has the number of another instruction. -/
theorem CallsNoSource.source_eq_none (h : m.CallsNoSource config) {c : Nat} {site : CallSite}
    (hrule : m.rule? config c = some (.call site)) : site.source = none := by
  obtain ⟨inst, callee, args, -, -, rfl⟩ := eq_callSite_of_rule? hrule
  cases hname : m.calleeName? inst.id with
  | none => simp [CallSite.ofInstruction, hname]
  | some name =>
    have hnone : config.source? name = none := by
      unfold calleeName? at hname
      split at hname
      · next name' args' hop =>
        obtain rfl := Option.some.inj hname
        obtain ⟨inst', hinst', hcall⟩ := operation?_eq_some.mp hop
        refine List.find?_eq_none.mpr fun source hsource => ?_
        simpa using h inst' (Array.mem_of_getElem? hinst') name' args' hcall source hsource
      · cases hname
    simp [CallSite.ofInstruction, hname, hnone]

/-- Where no call names a source, no flow function past a call is that of a source. -/
theorem CallsNoSource.source_eq_none_of_ofTransfer (h : m.CallsNoSource config) {f : Findings}
    {t : Transfer Nat} {site : CallSite}
    (hflow : Flow.ofTransfer m (m.rules config) f t = .callToReturn site) :
    site.source = none := by
  cases t with
  | callToReturn c r =>
    rw [Flow.ofTransfer] at hflow
    split at hflow
    · cases hflow
    · rw [Flow.past, rules_getElem?_join] at hflow
      split at hflow
      · next hrule =>
        obtain rfl := Flow.callToReturn.inj hflow
        exact h.source_eq_none hrule
      · cases hflow
  | normal n s =>
    simp only [Flow.ofTransfer, Flow.within] at hflow
    split at hflow
    · cases hflow
    · split at hflow
      · split at hflow <;> cases hflow
      · cases hflow
  | call c entry =>
    simp only [Flow.ofTransfer, Flow.into] at hflow
    split at hflow
    · cases hflow
    · split at hflow <;> cases hflow
  | ret x r c =>
    simp only [Flow.ofTransfer, Flow.outOf] at hflow
    split at hflow
    · cases hflow
    · split at hflow <;> cases hflow

/-- Where no call names a source, a flow function applied to the zero fact gives nothing else and
leaves the store as it is. -/
theorem CallsNoSource.flow_zero (h : m.CallsNoSource config) (t : Transfer Nat) (f : Findings) :
    (∀ d ∈ ((m.taintProblem config).flow t .zero f).1, d = .zero) ∧
      ((m.taintProblem config).flow t .zero f).2 = f := by
  have hzero := Flow.apply_zero m config fun site hflow =>
    h.source_eq_none_of_ofTransfer (f := f) (t := t) hflow
  simp only [taintProblem]
  rcases hzero with heffect | heffect
  · rw [heffect]
    exact ⟨by simp, rfl⟩
  · rw [heffect]
    exact ⟨by simp, rfl⟩

/-! ## Runs -/

/-- Where no call names a source, only the zero fact can be produced, and nothing is noted. -/
theorem CallsNoSource.eq_zero_of_produces (h : m.CallsNoSource config) {g : Supergraph Nat}
    {facts : List Fact} {f : Findings} (hproduces : (m.taintProblem config).Produces g {} facts f) :
    (∀ d ∈ facts, d = .zero) ∧ f = {} := by
  induction hproduces with
  | start =>
    refine ⟨fun d hd => ?_, rfl⟩
    obtain ⟨seed, hseed, rfl⟩ := List.mem_map.mp hd
    exact eq_zero_of_mem_seeds hseed
  | @apply facts f t d _ _ hd ih =>
    obtain ⟨hfacts, rfl⟩ := ih
    obtain rfl := hfacts d hd
    obtain ⟨hflow, hstore⟩ := h.flow_zero t {}
    refine ⟨fun d' hd' => ?_, hstore⟩
    rcases List.mem_append.mp hd' with hold | hnew
    · exact hfacts d' hold
    · exact hflow d' hnew

/-- The path edges of such a run are about the zero fact, and the store is as it was. -/
theorem CallsNoSource.fact_eq_zero (h : m.CallsNoSource config) {run : Run Nat Fact Findings}
    (hrun : m.PartialRun config run) : (∀ e ∈ run.edges, e.fact = .zero) ∧ run.store = {} := by
  obtain ⟨done, hscheduled⟩ := hrun
  obtain ⟨facts, hproduces, hedges⟩ := hscheduled.exists_produces
  obtain ⟨hfacts, hstore⟩ := h.eq_zero_of_produces hproduces
  refine ⟨fun e he => ?_, hstore⟩
  obtain ⟨-, hfact, -⟩ := hedges e he
  exact hfacts e.fact hfact

end Program

/-- A run that has recorded only the zero fact and noted nothing is reported as untainted. -/
theorem Report.untainted_of_eq_zero {r : Report} {config : Config}
    (hrun : r.program.PartialRun config r.run) (hedges : ∀ e ∈ r.run.edges, e.fact = .zero)
    (hstore : r.run.store = {}) : r.Untainted where
  factsBefore n d hd := by
    obtain ⟨source, he⟩ := hrun.mem_factsAt.mp (mem_factsBefore.mp hd)
    exact hedges _ he
  coverage := by
    rw [coverage, hstore]
    rfl
  taintedInsts := by
    have hvalues : r.taintedValues = [] := by
      refine List.filterMap_eq_nil_iff.mpr fun e he => ?_
      rw [hedges e (Array.mem_toList_iff.mp he)]
      rfl
    rw [taintedInsts, hvalues]
    rfl
  aborted := by
    rw [aborted, hstore]
    rfl

open Program

/-- Where no call directly names a source, nothing is tainted, whatever the configuration asks and
however the program is made: not in any run, in whatever order it does its work and whenever it
stops, and so not in the report of the analysis, which starts if the configuration can be used and
the entry points are there. -/
theorem untainted_of_callsNoSource {m : Program} {config : Config} (h : m.CallsNoSource config) :
    (∀ run, m.PartialRun config run → (Report.mk m run).Untainted) ∧
      (config.validate = .ok () → (∀ name ∈ config.entryPoints, m.definesEntry name = true) →
        ∃ r, m.analyze config = .ok r ∧ r.Untainted) := by
  have hreport : ∀ run, m.PartialRun config run → (Report.mk m run).Untainted := by
    intro run hrun
    obtain ⟨hedges, hstore⟩ := h.fact_eq_zero hrun
    exact Report.untainted_of_eq_zero hrun hedges hstore
  refine ⟨hreport, fun hvalid hentries => ⟨_, analyze_eq_ok hvalid hentries, ?_⟩⟩
  exact hreport _ (m.partialRun_limitedRun config config.limit)

/-- A program that nothing built. The entry point has the number of another procedure, a call has
the number of another call, which no block lists, two addresses are computed from each other, a
block lists an instruction that is missing, and the region of the branch has no end. -/
def Program.tangled : Program where
  name := "tangled"
  procedures := #[
    { id := 1, name := "main", params := [], result := .void, isVariadic := false },
    { id := 4, name := "helper", params := [], result := .void, isVariadic := true,
      sourceFile := some "tangled.c", blocks := #[⟨"entry", [0, 1, 2, 3]⟩, ⟨"next", [12]⟩] }]
  instructions := #[
    { id := 4, proc := 1, block := 7, operation := .call (.indirect (.int 0)) [.result 2],
      type := .int 32 },
    { id := 1, proc := 9, block := 0, operation := .addressOf (.int 32) (.result 2) [.zero],
      type := .pointer (.int 32) },
    { id := 2, proc := 1, block := 0, operation := .addressOf (.int 32) (.result 1) [.zero],
      type := .pointer (.int 32) },
    { id := 3, proc := 1, block := 0, operation := .branch (.result 4) 0 1, type := .void },
    { id := 4, proc := 1, block := 0, operation := .call (.direct "getenv") [], type := .int 32,
      source := some ⟨"tangled.c", 5⟩ }]

/-- The tangled program calls no source. -/
theorem Program.callsNoSource_tangled :
    tangled.CallsNoSource { sources := [.returning "secret"] } := by
  intro inst hinst name args hop source hsource
  obtain rfl := List.mem_singleton.mp hsource
  simp only [tangled, List.mem_toArray, List.mem_cons, List.not_mem_nil, or_false] at hinst
  rcases hinst with rfl | rfl | rfl | rfl | rfl
  all_goals simp at hop
  obtain ⟨rfl, -⟩ := hop
  decide

/-- The program is untainted if its only direct call is no source. Otherwise a result is tainted, a
line is touched, and the procedure is given up. -/
theorem untainted_of_callsNoSource_tangled :
    (∃ r, tangled.analyze { sources := [.returning "secret"] } = .ok r ∧ r.Untainted) ∧
      (Report.mk tangled (tangled.limitedRun {} 50)).taintedInsts = [4] ∧
      (Report.mk tangled (tangled.limitedRun {} 50)).coverage.files ≠ [] ∧
      (Report.mk tangled (tangled.limitedRun {} 50)).aborted ≠ [] := by
  refine ⟨?_, by decide +kernel, by decide +kernel, by decide +kernel⟩
  exact (untainted_of_callsNoSource callsNoSource_tangled).2 (by decide +kernel) (by decide +kernel)

end TaintTrail
