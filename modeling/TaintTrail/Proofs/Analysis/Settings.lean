import TaintTrail.Proofs.Analysis.Coverage
import TaintTrail.Proofs.Tabulation.Enlargement

/-!
# Asking for more

Following implicit flows or taint through external procedures, or making one more procedure a
source, loses nothing that was found without. A procedure that becomes a source no longer passes
taint from its arguments to its result, but its result is tainted anyway, in the context of the zero
fact.
-/

namespace TaintTrail

/-- The second configuration asks for more taint than the first. -/
inductive Config.AsksMore (c : Config) : Config → Prop
  | implicitFlows : AsksMore c { c with implicitFlows := true }
  | throughExternals : AsksMore c { c with throughExternals := true }
  /-- One more procedure is a source of results. -/
  | source {s : Source} : s.taintsResult = true → (∀ s' ∈ c.sources, s'.procedure ≠ s.procedure) →
      AsksMore c { c with sources := c.sources ++ [s] }

open Program

variable {m : Program} {c c' : Config} {d d' : Fact}

/-! ## Calls -/

/-- Taint that gets past a call also gets past it when taint is followed through external
procedures. -/
theorem CallSite.mem_pass_throughExternals {site : CallSite} (h : d' ∈ site.pass m c d) :
    d' ∈ site.pass m { c with throughExternals := true } d := by
  unfold pass at h
  split at h
  · next hzero => simpa [pass, hzero] using h
  next hzero =>
  split at h
  · next hbranch => simpa [pass, hzero, hbranch] using h
  next hbranch =>
  split at h
  · next hthrough =>
    simp only [Bool.and_eq_true] at hthrough
    obtain ⟨⟨⟨-, hcallee⟩, hsource⟩, hreached⟩ := hthrough
    simpa [pass, hzero, hbranch, hcallee, hsource, hreached] using h
  · obtain rfl := List.mem_singleton.mp h
    simp only [pass, hzero, hbranch, Bool.false_eq_true, if_false]
    split <;> exact List.mem_cons_self

/-- Taint that gets past a call also gets past it when the call becomes a source, except that the
result is then tainted whatever the arguments are. -/
theorem CallSite.mem_pass_or_of_source {site : CallSite} {s : Source} (hnone : site.source = none)
    (htaints : s.taintsResult = true) (h : d' ∈ site.pass m c d) :
    d' ∈ { site with source := some s }.pass m c d ∨
      d' = .value site.result ∧ d' ∈ { site with source := some s }.pass m c .zero := by
  have hresult : .value site.result ∈ { site with source := some s }.pass m c .zero := by
    simp [pass, generated, htaints, result, Fact.isZero, Fact.zero]
  unfold pass at h
  split at h
  · next hzero =>
    obtain rfl : d' = d := by simpa [generated, hnone] using h
    exact .inl (by simp [pass, hzero])
  next hzero =>
  split at h
  · next hbranch => exact .inl (by simpa [pass, hzero, hbranch, result] using h)
  next hbranch =>
  have hself : d ∈ { site with source := some s }.pass m c d := by
    simp [pass, hzero, hbranch]
  split at h
  · obtain rfl | rfl := List.mem_pair.mp h
    · exact .inl hself
    · exact .inr ⟨rfl, hresult⟩
  · obtain rfl := List.mem_singleton.mp h
    exact .inl hself

/-- One more source makes a call a source that was none, or changes nothing. -/
theorem CallSite.ofInstruction_append_source {s : Source}
    (hnew : ∀ s' ∈ c.sources, s'.procedure ≠ s.procedure) (inst : Instruction)
    (args : List Value) :
    ofInstruction m { c with sources := c.sources ++ [s] } inst args = ofInstruction m c inst args ∨
      (ofInstruction m c inst args).source = none ∧
        ofInstruction m { c with sources := c.sources ++ [s] } inst args =
          { ofInstruction m c inst args with source := some s } := by
  cases hname : m.calleeName? inst.id with
  | none => exact .inl (by simp [ofInstruction, hname])
  | some name =>
    by_cases hsame : s.procedure = name
    · have hnone : c.sources.find? (·.procedure = name) = none := by
        rw [List.find?_eq_none]
        intro s' hs'
        simpa [hsame] using hnew s' hs'
      exact .inr (by simp [ofInstruction, hname, Config.source?, List.find?_append, hnone, hsame])
    · exact .inl (by simp [ofInstruction, hname, Config.source?, List.find?_append, hsame])

namespace Program

/-- The sites of a call in two configurations are those of one instruction. -/
theorem exists_callSites {n : Nat} {site site' : CallSite}
    (hsite : m.rule? c n = some (.call site)) (hsite' : m.rule? c' n = some (.call site')) :
    ∃ inst args, site = .ofInstruction m c inst args ∧ site' = .ofInstruction m c' inst args := by
  obtain ⟨inst, callee, args, hinst, hop, rfl⟩ := eq_callSite_of_rule? hsite
  obtain ⟨inst', callee', args', hinst', hop', rfl⟩ := eq_callSite_of_rule? hsite'
  obtain rfl := Option.some.inj (hinst.symm.trans hinst')
  obtain ⟨-, rfl⟩ := Operation.call.inj (hop.symm.trans hop')
  exact ⟨inst, args, rfl, rfl⟩

/-- Taint that gets past a call in the first configuration does so in the second, or it is the
result of the call and the call is a source. -/
theorem WellFormed.mem_outcomes_callToReturn_or (hm : m.WellFormed) (h : c.AsksMore c')
    {n r : Nat} (hlink : m.supergraph.Has (.callToReturn n r))
    (hd : d' ∈ m.outcomes c (.callToReturn n r) d) :
    d' ∈ m.outcomes c' (.callToReturn n r) d ∨
      d' = .value (.result n) ∧ d' ∈ m.outcomes c' (.callToReturn n r) .zero := by
  obtain ⟨site, hsite, houtcomes⟩ := hm.outcomes_callToReturn_of_has c hlink
  obtain ⟨site', hsite', houtcomes'⟩ := hm.outcomes_callToReturn_of_has c' hlink
  have hresult : site.result = .result n := by rw [CallSite.result, hm.callSite_call hsite]
  obtain ⟨inst, args, rfl, rfl⟩ := exists_callSites hsite hsite'
  rw [houtcomes] at hd
  rw [houtcomes', houtcomes', ← hresult]
  cases h with
  | implicitFlows => exact .inl hd
  | throughExternals => exact .inl (CallSite.mem_pass_throughExternals hd)
  | source htaints hnew =>
    obtain hsame | ⟨hnone, hnow⟩ := CallSite.ofInstruction_append_source hnew inst args
    · rw [hsame]
      exact .inl hd
    · rw [hnow]
      exact CallSite.mem_pass_or_of_source hnone htaints hd

/-- What gets into a callee does not depend on the configuration. -/
theorem WellFormed.outcomes_call_eq (hm : m.WellFormed) (c c' : Config) {n entry : Nat}
    (hlink : m.supergraph.Has (.call n entry)) (d : Fact) :
    m.outcomes c (.call n entry) d = m.outcomes c' (.call n entry) d := by
  obtain ⟨site, callee, hsite, hcallee, houtcomes⟩ := hm.outcomes_call_of_has c hlink
  obtain ⟨site', callee', hsite', hcallee', houtcomes'⟩ := hm.outcomes_call_of_has c' hlink
  obtain rfl := Option.some.inj (hcallee.symm.trans hcallee')
  obtain ⟨inst, args, rfl, rfl⟩ := exists_callSites hsite hsite'
  rw [houtcomes, houtcomes']
  rfl

/-- What gets out of a callee does not depend on the configuration. -/
theorem WellFormed.outcomes_ret_eq (hm : m.WellFormed) (c c' : Config) {x r n : Nat}
    (hlink : m.supergraph.Has (.ret x r n)) (d : Fact) :
    m.outcomes c (.ret x r n) d = m.outcomes c' (.ret x r n) d := by
  obtain ⟨site, exit, hsite, hexit, houtcomes⟩ := hm.outcomes_ret_of_has c hlink
  obtain ⟨site', exit', hsite', hexit', houtcomes'⟩ := hm.outcomes_ret_of_has c' hlink
  obtain ⟨inst, args, rfl, rfl⟩ := exists_callSites hsite hsite'
  obtain ⟨ret, value, hinst, hop, rfl⟩ := eq_exitSite_of_rule? hexit
  obtain ⟨ret', value', hinst', hop', rfl⟩ := eq_exitSite_of_rule? hexit'
  obtain rfl := Option.some.inj (hinst.symm.trans hinst')
  obtain rfl := Operation.ret.inj (hop.symm.trans hop')
  rw [houtcomes, houtcomes']
  rfl

/-! ## Within a procedure -/

/-- The rule of an instruction that does not call is the same in both configurations, or that of a
branch whose region the first one does not follow. -/
theorem WellFormed.rule?_eq_or_untracked (hm : m.WellFormed) (h : c.AsksMore c') {n : Nat}
    {inst : Instruction} (hinst : m.inst? n = some inst) (hcall : ¬inst.operation.IsCall) :
    m.rule? c' n = m.rule? c n ∨ c.implicitFlows = false ∧ ∃ condition region,
      m.rule? c n = some (.branch condition .untracked) ∧
        m.rule? c' n = some (.branch condition region) := by
  obtain ⟨p, hp, hrule⟩ := hm.rule?_eq c hinst
  obtain ⟨p', hp', hrule'⟩ := hm.rule?_eq c' hinst
  obtain rfl := Option.some.inj (hp.symm.trans hp')
  rw [hrule, hrule']
  cases hop : inst.operation with
  | call callee args => exact absurd ⟨callee, args, hop⟩ hcall
  | branch condition _ _ | switch condition _ _ =>
    cases h with
    | implicitFlows =>
      cases hflows : c.implicitFlows with
      | true => exact .inl (by simp [Rule.ofInstruction, hop, hflows])
      | false =>
        refine .inr ⟨rfl, condition, m.regionIn c.mergeLabels p inst.id, ?_, ?_⟩
        · simp [Rule.ofInstruction, hop, hflows]
        · simp [Rule.ofInstruction, hop]
    | throughExternals | source => exact .inl (by simp [Rule.ofInstruction, hop])
  | _ => exact .inl (by simp [Rule.ofInstruction, hop])

/-- The effect of an instruction within its procedure depends on the configuration only through the
rule. -/
theorem effectOf_normal_eq {n s : Nat} (hrule : m.rule? c' n = m.rule? c n) :
    m.effectOf c' (.normal n s) d = m.effectOf c (.normal n s) d := by
  simp only [effectOf, flowOf_normal, Flow.within, rules_getElem?_join, hrule]
  split
  · split <;> rfl
  · rfl

/-- An instruction that gives up its procedure in the first configuration does so in the second. -/
theorem WellFormed.givesUp_of_asksMore (hm : m.WellFormed) (h : c.AsksMore c') {t : Transfer Nat}
    (hgives : m.GivesUp c t d) : m.GivesUp c' t d := by
  obtain ⟨n, s, condition, e, rfl, hrule⟩ := exists_unclosed_of_givesUp hgives
  obtain ⟨inst, p, hinst, hconditional, -⟩ := branch_of_rule? hrule
  have hcall : ¬inst.operation.IsCall := by
    rintro ⟨callee, args, hop⟩
    simp [hop, Operation.isConditional] at hconditional
  obtain hsame | ⟨-, condition', region, huntracked, -⟩ := hm.rule?_eq_or_untracked h hinst hcall
  · rwa [GivesUp, effectOf_normal_eq hsame]
  · simp [hrule] at huntracked

/-- No region is open if implicit flows are not followed. -/
theorem WellFormed.isBranch_eq_false_of_entailed (hm : m.WellFormed)
    (hflows : c.implicitFlows = false) {e : PathEdge Nat Fact}
    (he : Entailed (m.taintProblem c) m.supergraph (m.outcomes c) e) :
    e.fact.isBranch = false := by
  refine (he.forall_facts (P := fun d => d.isBranch = false) rfl (fun n d hseed => ?_)
    fun t d d' hlink hd h => ?_).2
  · rw [eq_zero_of_mem_seeds hseed]
    rfl
  · cases hm.arises hlink h with
    | zero | kept | passed => exact hd
    | opened hrule =>
      obtain ⟨inst, p, -, -, hregion⟩ := branch_of_rule? hrule
      simp [hflows] at hregion
    | started | advanced | copied => exact hd
    | _ => rfl

/-- Outside of regions a branch lets every fact through. -/
theorem mem_flow_branch_self {condition : Value} {region : Region} {n : Nat} {type : Ty}
    (hbranch : d.isBranch = false) : d ∈ (Rule.branch condition region).flow m n type d := by
  simp only [Rule.flow, hbranch, Rule.apply, Bool.false_eq_true, if_false]
  split
  · exact List.mem_cons_self
  · split
    · split <;> exact List.mem_cons_self
    · exact List.mem_cons_self

/-- Taint that an instruction lets through in the first configuration it lets through in the
second, unless it gives up its procedure there. -/
theorem WellFormed.mem_outcomes_normal_of_asksMore (hm : m.WellFormed) (h : c.AsksMore c')
    {n s : Nat} (hlink : m.supergraph.Has (.normal n s))
    (hbranch : c.implicitFlows = false → d.isBranch = false)
    (hgoes : ¬m.GivesUp c' (.normal n s) d) (hd : d' ∈ m.outcomes c (.normal n s) d) :
    d' ∈ m.outcomes c' (.normal n s) d := by
  obtain ⟨inst, hinst, hkind⟩ := hm.normal_mem_links_iff.mp hlink
  have hcall : ¬inst.operation.IsCall := by
    obtain ⟨hterminator, -⟩ | ⟨-, hcall, -⟩ := hkind
    · exact fun hcall => by simp [hcall.not_isTerminator] at hterminator
    · exact hcall
  obtain hsame | ⟨hflows, condition, region, hrule, hrule'⟩ :=
    hm.rule?_eq_or_untracked h hinst hcall
  · rwa [outcomes, effectOf_normal_eq hsame]
  · have hmem := mem_flow_of_mem_outcomes hinst hrule hd
    obtain rfl : d' = d := by
      simpa [Rule.flow, hbranch hflows, Rule.apply, Region.endLabel?] using hmem
    rw [outcomes_normal hinst hrule' hgoes]
    exact mem_flow_branch_self (hbranch hflows)

/-! ## Runs -/

/-- The zero fact goes wherever control goes. -/
theorem WellFormed.zero_mem_outcomes (hm : m.WellFormed) (c : Config) {t : Transfer Nat}
    (hlink : m.supergraph.Has t) : .zero ∈ m.outcomes c t .zero := by
  cases t with
  | normal n s =>
    obtain ⟨inst, hinst, -⟩ := hm.normal_mem_links_iff.mp hlink
    obtain ⟨p, -, hrule⟩ := hm.rule?_eq c hinst
    have hgoes : ¬m.GivesUp c (.normal n s) .zero := by
      rw [givesUp_normal_iff hinst hrule]
      rintro ⟨condition, e, -, hdecides⟩
      simp [Flow.decides, Fact.isBranch, Fact.isPlainValue, Fact.value?, Fact.zero] at hdecides
    rw [outcomes_normal hinst hrule hgoes]
    exact List.mem_cons_self
  | call n entry =>
    obtain ⟨site, callee, -, -, houtcomes⟩ := hm.outcomes_call_of_has c hlink
    rw [houtcomes]
    exact List.mem_cons_self
  | ret x r n =>
    obtain ⟨site, exit, -, -, houtcomes⟩ := hm.outcomes_ret_of_has c hlink
    rw [houtcomes]
    exact List.mem_cons_self
  | callToReturn n r =>
    obtain ⟨site, -, houtcomes⟩ := hm.outcomes_callToReturn_of_has c hlink
    rw [houtcomes]
    exact List.mem_cons_self

section Runs

variable {run run' : Run Nat Fact Findings} (hm : m.WellFormed) (h : c.AsksMore c')
  (hrun' : m.FinishedRun c' run') (hquiet' : run'.store.aborted = [])

include hm h hrun' hquiet'

/-- Where the second configuration gives up no procedure, an instruction lets through what it lets
through in the first. -/
theorem FinishedRun.outcomes_normal_subset {n s : Nat} (hlink : m.supergraph.Has (.normal n s))
    (hd : ∃ source,
      Entailed (m.taintProblem c) m.supergraph (m.outcomes c) ⟨source, n, d⟩)
    (hd' : ∃ source,
      Entailed (m.taintProblem c') m.supergraph (m.outcomes c') ⟨source, n, d⟩) :
    m.outcomes c (.normal n s) d ⊆ m.outcomes c' (.normal n s) d := by
  obtain ⟨source, he⟩ := hd
  obtain ⟨source', he'⟩ := hd'
  intro e hmem
  refine hm.mem_outcomes_normal_of_asksMore h hlink ?_ ?_ hmem
  · exact fun hflows => hm.isBranch_eq_false_of_entailed hflows he
  · exact (hrun'.aborted_eq_nil_iff hm).mp hquiet' _ _ (.normal he' hlink)

/-- The taint problem of the second configuration finds all that the first one does. -/
theorem FinishedRun.enlarges : Problem.Enlarges (m.taintProblem c) (m.taintProblem c')
    m.supergraph (m.outcomes c) (m.outcomes c') where
  zero_eq := rfl
  seeds_subset := by cases h <;> exact List.Subset.refl _
  eq_zero_of_mem_seeds n d hseed := eq_zero_of_mem_seeds hseed
  zero_mem t hlink := hm.zero_mem_outcomes c' hlink
  mem_or_mem t d hlink hd hd' e he := by
    cases t with
    | normal n s => exact .inl (hrun'.outcomes_normal_subset hm h hquiet' hlink hd hd' he)
    | call n entry => exact .inl (hm.outcomes_call_eq c c' hlink d ▸ he)
    | ret x r n => exact .inl (hm.outcomes_ret_eq c c' hlink d ▸ he)
    | callToReturn n r => exact (hm.mem_outcomes_callToReturn_or h hlink he).imp_right (·.2)

/-- If the second configuration gives up no procedure, then the first one gives up none. -/
theorem FinishedRun.aborted_eq_nil_of_asksMore (hrun : m.FinishedRun c run) :
    run.store.aborted = [] := by
  rw [hrun.aborted_eq_nil_iff hm]
  intro t d happlied hgives
  have happlied' := ((hrun'.enlarges hm h hquiet').applied happlied).1
  exact (hrun'.aborted_eq_nil_iff hm).mp hquiet' t d happlied' (hm.givesUp_of_asksMore h hgives)

/-- What is worth reporting along a transfer in the first configuration is worth reporting along it
in the second, for the same fact or for the zero fact. -/
theorem FinishedRun.exists_marks_of_asksMore {t : Transfer Nat}
    (happlied : Applied (m.taintProblem c) m.supergraph (m.outcomes c) t d)
    (hmarks : m.Marks c t d) : ∃ d',
      Applied (m.taintProblem c') m.supergraph (m.outcomes c') t d' ∧ m.Marks c' t d' := by
  obtain ⟨happlied', hzero⟩ := (hrun'.enlarges hm h hquiet').applied happlied
  have hlink := happlied.has
  cases t with
  | normal n s =>
    obtain ⟨hnonzero, e, he, hnew⟩ := hmarks
    have hsubset := hrun'.outcomes_normal_subset hm h hquiet' hlink happlied.exists_entailed
      happlied'.exists_entailed
    exact ⟨d, happlied', hnonzero, e, hsubset he, hnew⟩
  | call n entry =>
    rw [Marks, hm.outcomes_call_eq c c' hlink d] at hmarks
    exact ⟨d, happlied', hmarks⟩
  | ret x r n =>
    rw [Marks, hm.outcomes_ret_eq c c' hlink d] at hmarks
    exact ⟨d, happlied', hmarks⟩
  | callToReturn n r =>
    obtain ⟨e, he, hne, hlist⟩ := hmarks
    obtain he | ⟨rfl, he⟩ := hm.mem_outcomes_callToReturn_or h hlink he
    · exact ⟨d, happlied', e, he, hne, hlist⟩
    · exact ⟨.zero, hzero, _, he, by simp [Fact.value, Fact.zero], hlist⟩

end Runs

end Program

/-- Let the analysis come to an end with two configurations, of which the second asks for more
taint, and let it give up no procedure with the second. Then it gives up none with the first, every
fact that it finds before an instruction with the first it also finds with the second, and the same
holds of every line and procedure in the coverage. -/
theorem factsAt_subset_of_asksMore {m : Program} (hm : m.Built) {c c' : Config}
    (h : c.AsksMore c') {run run' : Run Nat Fact Findings} (hrun : m.FinishedRun c run)
    (hrun' : m.FinishedRun c' run') (hquiet' : run'.store.aborted = []) :
    run.store.aborted = [] ∧ (∀ n, run.factsAt n ⊆ run'.factsAt n) ∧
      ∀ item ∈ run.store.coverage, item ∈ run'.store.coverage := by
  have hwf := hm.wellFormed
  have hquiet := hrun'.aborted_eq_nil_of_asksMore hwf h hquiet' hrun
  refine ⟨hquiet, fun n d hd => ?_, fun item hitem => ?_⟩
  · rw [hrun.mem_factsAt hwf hquiet] at hd
    rw [hrun'.mem_factsAt hwf hquiet']
    exact (hrun'.enlarges hwf h hquiet').exists_entailed hd
  · rw [hrun.mem_coverage_iff hwf hquiet] at hitem
    rw [hrun'.mem_coverage_iff hwf hquiet']
    obtain ⟨t, d, happlied, hmarks, hleft⟩ := hitem
    obtain ⟨d', happlied', hmarks'⟩ :=
      hrun'.exists_marks_of_asksMore hwf h hquiet' happlied hmarks
    exact ⟨t, d', happlied', hmarks', hleft⟩

/-- Passes a value from a source to a procedure, which has an external procedure parse it. -/
def Program.parsedSource : Program :=
  constructed "parsed"
    [.define "parse" [.int 32] (.int 32) false, .sourceFile "parse.c", .atLine 5,
      .emit (.call (.direct "atoi") [.param 0 0]) .void, .emit (.ret (some (.result 0))) .void,
      .define "main" [] (.int 32) false, .sourceFile "main.c", .atLine 2,
      .emit (.call (.direct "getenv") []) .void, .emit (.call (.direct "parse") [.result 2]) .void,
      .emit (.ret (some (.result 3))) .void]

/-- The run of the solver with more sources than usual. -/
def Program.parsedSourceRun (more : List Source) : Run Nat Fact Findings :=
  let usual : Config := {}
  parsedSource.limitedRun { usual with sources := usual.sources ++ more } 40

/-- When the external procedure becomes a source, the result of parsing is no longer tainted in the
context of the argument, but in that of the zero fact, and comes back to the caller all the same. -/
theorem factsAt_subset_of_asksMore_parsedSource :
    (parsedSourceRun []).isComplete = true ∧
      (parsedSourceRun [.returning "atoi"]).isComplete = true ∧
      (parsedSourceRun [.returning "atoi"]).store.aborted = [] ∧
      .value (.result 0) ∈ (parsedSourceRun []).factsFrom 1 (.value (.param 0 0)) ∧
      .value (.result 0) ∉
        (parsedSourceRun [.returning "atoi"]).factsFrom 1 (.value (.param 0 0)) ∧
      .value (.result 3) ∈ (parsedSourceRun []).factsAt 4 ∧
      .value (.result 3) ∈ (parsedSourceRun [.returning "atoi"]).factsAt 4 ∧
      .procedure "parse.c" "parse" ∈ (parsedSourceRun [.returning "atoi"]).store.coverage := by
  have hbuilt : parsedSource.Built := built_constructed _ _
  have hcomplete : (parsedSourceRun []).isComplete = true := by decide +kernel
  have hcomplete' : (parsedSourceRun [.returning "atoi"]).isComplete = true := by decide +kernel
  have hquiet : (parsedSourceRun [.returning "atoi"]).store.aborted = [] := by decide +kernel
  have hreturned : .value (.result 3) ∈ (parsedSourceRun []).factsAt 4 := by decide +kernel
  have hentered : .procedure "parse.c" "parse" ∈ (parsedSourceRun []).store.coverage := by
    decide +kernel
  have hmore : Config.AsksMore {} { ({} : Config) with
      sources := ({} : Config).sources ++ [.returning "atoi"] } := .source rfl (by decide)
  obtain ⟨-, hfacts, hitems⟩ := factsAt_subset_of_asksMore hbuilt hmore
    (Run.finished_of_isComplete hcomplete) (Run.finished_of_isComplete hcomplete') hquiet
  exact ⟨hcomplete, hcomplete', hquiet, by decide +kernel, by decide +kernel, hreturned,
    hfacts 4 hreturned, hitems _ hentered⟩

end TaintTrail
