import TaintTrail.Proofs.Analysis.Run
import TaintTrail.Proofs.Flow.Shape

/-!
# The regions of tainted branches

The fact that the region of a branch is open holds exactly where control gets from a tainted branch
without passing the label that ends the region. Where it holds, whatever is computed or written is
tainted.
-/

namespace TaintTrail

open Program

/-- Control gets from a branch to an instruction, and the instructions that it passes in between are
not in blocks with the given label. -/
inductive Program.RegionPath (m : Program) (b : Nat) (label : String) : Nat → Prop
  | first {n : Nat} : m.GoesOn b n → RegionPath m b label n
  | step {k n : Nat} : RegionPath m b label k → m.blockLabel? k ≠ some label → m.GoesOn k n →
      RegionPath m b label n

/-- A branch is tainted: its condition is, or it stands in the open region of another branch. -/
def Program.TaintedBranch (m : Program) (run : Run Nat Fact Findings) (b : Nat)
    (condition : Value) : Prop :=
  .value condition ∈ run.factsAt b ∨ ∃ b' label, b' ≠ b ∧
    .branch (.result b') label ∈ run.factsAt b ∧ m.blockLabel? b ≠ some label

/-! ## Branch facts at one instruction -/

/-- A fact that a region is open comes from the same fact, outside the block that ends the region,
or from the branch. -/
theorem Arises.branch_cases {m : Program} {config : Config} {t : Transfer Nat} {d : Fact}
    {v : Value} {label : String} (h : Arises m config t d (.branch v label)) :
    (∃ n s, (t = .normal n s ∨ t = .callToReturn n s) ∧ d = .branch v label ∧
      m.blockLabel? n ≠ some label) ∨
    ∃ n s condition, t = .normal n s ∧ v = .result n ∧
      m.rule? config n = some (.branch condition (.endsAt label)) ∧
      (d.isPlainValue condition = true ∨
        d.isBranch = true ∧ m.blockLabel? n ≠ d.endLabel ∧ d.value? ≠ some (.result n)) := by
  generalize hfact : Fact.branch v label = d' at h
  cases h with
  | zero hzero =>
    subst hfact
    simp [Fact.isZero, Fact.branch] at hzero
  | kept hlabel =>
    subst hfact
    exact .inl ⟨_, _, .inl rfl, rfl, hlabel rfl⟩
  | passed hlabel =>
    subst hfact
    exact .inl ⟨_, _, .inr rfl, rfl, hlabel rfl⟩
  | opened hrule htaints =>
    simp only [Fact.branch, Fact.mk.injEq, Subject.value.injEq, Option.some.injEq] at hfact
    obtain ⟨rfl, -, -, -, -, rfl⟩ := hfact
    exact .inr ⟨_, _, _, rfl, rfl, hrule, htaints⟩
  | started | advanced | copied => simp_all [Fact.branch]
  | _ => simp [Fact.branch, Fact.value, Fact.memory, Fact.varArg] at hfact

namespace Fact

variable {v : Value} {label : String}

/-- A tainted region is some taint. -/
@[simp] theorem isZero_branch : (branch v label).isZero = false := rfl

/-- A tainted region is known as one. -/
@[simp] theorem isBranch_branch : (branch v label).isBranch = true := rfl

/-- A tainted region carries the label that it ends at. -/
@[simp] theorem endLabel_branch : (branch v label).endLabel = some label := rfl

/-- A tainted region carries its condition. -/
@[simp] theorem value?_branch : (branch v label).value? = some v := rfl

/-- A tainted value is the taint of that value. -/
@[simp] theorem isPlainValue_value : (value v).isPlainValue v = true := by
  simp [isPlainValue, value, value?, isBranch, isVarArg]

end Fact

namespace Rule

variable {m : Program} {rule : Rule} {n : Nat} {type : Ty} {v : Value} {label : String}

/-- A region stays open outside the block that ends it. -/
theorem branch_mem_flow (hlabel : m.blockLabel? n ≠ some label) :
    .branch v label ∈ rule.flow m n type (.branch v label) := by
  by_cases hv : v = .result n
  · simp [flow, applyBranch, hlabel, hv]
  · cases rule <;> simp [flow, applyBranch, hlabel, hv]

/-- A tainted condition opens the region of a branch. -/
theorem opened_mem_flow_of_value {condition : Value} : .branch (.result n) label ∈
    (Rule.branch condition (.endsAt label)).flow m n type (.value condition) := by
  have hzero : (Fact.value condition).isZero = false := rfl
  have hbranch : (Fact.value condition).isBranch = false := rfl
  simp [flow, apply, hzero, hbranch, Region.endLabel?]

section Inside

variable (hlabel : m.blockLabel? n ≠ some label) (hv : v ≠ .result n)

include hlabel hv

/-- An open region opens the region of a branch inside. -/
theorem opened_mem_flow_of_branch {condition : Value} {inner : String} :
    .branch (.result n) inner ∈
      (Rule.branch condition (.endsAt inner)).flow m n type (.branch v label) := by
  simp [flow, applyBranch, hlabel, hv, Region.endLabel?]

/-- In an open region every result is tainted. -/
theorem value_mem_flow (hrule : ∀ condition region, rule ≠ .branch condition region)
    (htype : type ≠ .void) : .value (.result n) ∈ rule.flow m n type (.branch v label) := by
  cases rule with
  | branch condition region => exact absurd rfl (hrule condition region)
  | _ => simp [flow, applyBranch, hlabel, hv, htype]

/-- In an open region all memory that is written is tainted. -/
theorem memory_mem_flow {target : Location} (htarget : rule.written? = some target) :
    .memory target ∈ rule.flow m n type (.branch v label) := by
  cases rule with
  | branch condition region => simp [written?] at htarget
  | _ => simp [flow, applyBranch, hlabel, hv, htarget]

end Inside

/-- Only a conditional branch has the rule of a branch. -/
theorem ofInstruction_ne_branch {m : Program} {config : Config} {p : Procedure}
    {inst : Instruction} (h : inst.operation.isConditional = false) (condition : Value)
    (region : Region) : ofInstruction m config p inst ≠ .branch condition region := by
  unfold ofInstruction
  split <;> simp_all [Operation.isConditional]

end Rule

/-- In an open region a call passes on the region and has a tainted result. -/
theorem CallSite.pass_branch {m : Program} {config : Config} {site : CallSite} {v : Value}
    {label : String} (hlabel : m.blockLabel? site.call ≠ some label) :
    site.pass m config (.branch v label) = [.branch v label, .value site.result] := by
  simp [pass, hlabel]

/-! ## Branch facts along a run -/

section FinishedRun

variable {m : Program} {config : Config} {run : Run Nat Fact Findings} {b : Nat}
  {condition : Value} {label : String}

/-- The fact that taints a branch says that its condition is tainted or that it stands in an open
region. -/
theorem Program.taintedBranch_of_shaped {d : Fact} (hshaped : Shaped m config d)
    (hd : d ∈ run.factsAt b)
    (htaints : d.isPlainValue condition = true ∨
      d.isBranch = true ∧ m.blockLabel? b ≠ d.endLabel ∧ d.value? ≠ some (.result b)) :
    m.TaintedBranch run b condition := by
  obtain hplain | ⟨hbranch, hlabel, hother⟩ := htaints
  · obtain rfl := hshaped.eq_value hplain
    exact .inl hd
  · obtain ⟨b', label, rfl⟩ := hshaped.eq_branch hbranch
    refine .inr ⟨b', label, ?_, hd, hlabel⟩
    rintro rfl
    exact hother rfl

/-- A branch fact comes from a tainted branch over a path inside the region. -/
theorem Program.FinishedRun.regionPath_of_entailed (hm : m.WellFormed)
    (h : m.FinishedRun config run) (hquiet : run.store.aborted = [])
    (hb : m.rule? config b = some (.branch condition (.endsAt label))) {e : PathEdge Nat Fact}
    (he : Entailed (m.taintProblem config) m.supergraph (m.outcomes config) e)
    (hfact : e.fact = .branch (.result b) label) :
    m.TaintedBranch run b condition ∧ m.RegionPath b label e.node := by
  -- One way back from the fact: along the path, or to the branch itself.
  have hback {t : Transfer Nat} {d : Fact} (hlink : m.supergraph.Has t)
      (hd : .branch (.result b) label ∈ m.outcomes config t d) :=
    (hm.arises hlink hd).branch_cases
  induction he with
  | seed hseed =>
    rw [eq_zero_of_mem_seeds hseed] at hfact
    simp [Fact.zero, Fact.branch] at hfact
  | @normal e s d he hlink hd ih =>
    obtain rfl : d = .branch (.result b) label := hfact
    obtain ⟨n, s', ht, hkept, hlabel⟩ | ⟨n, s', condition', ht, hv, hrule, htaints⟩ :=
      hback (t := .normal e.node s) hlink hd
    · obtain ⟨rfl, rfl⟩ : n = e.node ∧ s' = s := by simpa [eq_comm] using ht
      obtain ⟨htainted, hpath⟩ := ih hkept
      exact ⟨htainted, hpath.step hlabel (.inl hlink)⟩
    · obtain ⟨hn, rfl⟩ : e.node = n ∧ s = s' := by simpa using ht
      obtain rfl : b = n := by simpa using hv
      obtain rfl : condition = condition' := by simpa using hb.symm.trans hrule
      have hmem : e.fact ∈ run.factsAt b :=
        (h.mem_factsAt hm hquiet).mpr ⟨e.source, hn ▸ he⟩
      exact ⟨taintedBranch_of_shaped (hm.shaped_of_entailed he).2 hmem htaints,
        .first (.inl (hn ▸ hlink))⟩
  | @callToReturn e r d he hlink hd ih =>
    obtain rfl : d = .branch (.result b) label := hfact
    obtain ⟨n, s', ht, hkept, hlabel⟩ | ⟨n, s', condition', ht, -⟩ :=
      hback (t := .callToReturn e.node r) hlink hd
    · obtain ⟨rfl, rfl⟩ : n = e.node ∧ s' = r := by simpa [eq_comm] using ht
      obtain ⟨htainted, hpath⟩ := ih hkept
      exact ⟨htainted, hpath.step hlabel (.inr hlink)⟩
    · simp at ht
  | @call e entry d he hlink hd ih =>
    obtain rfl : d = .branch (.result b) label := hfact
    obtain ⟨n, s', ht, -⟩ | ⟨n, s', -, ht, -⟩ := hback (t := .call e.node entry) hlink hd
    · simp at ht
    · simp at ht
  | @ret caller entry exit r entryFact exitFact d _ _ _ _ _ _ hlink hd =>
    obtain rfl : d = .branch (.result b) label := hfact
    obtain ⟨n, s', ht, -⟩ | ⟨n, s', -, ht, -⟩ := hback (t := .ret exit r caller.node) hlink hd
    · simp at ht
    · simp at ht

/-- A tainted branch opens its region where control goes on. -/
theorem Program.FinishedRun.branch_mem_factsAt_of_tainted (hm : m.WellFormed)
    (h : m.FinishedRun config run) (hquiet : run.store.aborted = [])
    (hb : m.rule? config b = some (.branch condition (.endsAt label)))
    (htainted : m.TaintedBranch run b condition) {n : Nat} (hgoes : m.GoesOn b n) :
    .branch (.result b) label ∈ run.factsAt n := by
  obtain hlink | hlink := hgoes
  · obtain ⟨inst, hinst, -⟩ := hm.normal_mem_links_iff.mp hlink
    obtain hvalue | ⟨b', outer, hne, hbranch, hlabel⟩ := htainted
    · exact h.mem_factsAt_of_normal hm hquiet hvalue hlink hinst hb Rule.opened_mem_flow_of_value
    · have hv : Value.result b' ≠ .result b := by simpa using hne
      exact h.mem_factsAt_of_normal hm hquiet hbranch hlink hinst hb
        (Rule.opened_mem_flow_of_branch hlabel hv)
  · -- A branch is no call.
    obtain ⟨site, hrule, -⟩ := hm.outcomes_callToReturn_of_has config hlink
    simp [hb] at hrule

/-- A region stays open outside the block that ends it. -/
theorem Program.FinishedRun.branch_mem_factsAt_of_goesOn (hm : m.WellFormed)
    (h : m.FinishedRun config run) (hquiet : run.store.aborted = []) {v : Value} {k n : Nat}
    (hbranch : .branch v label ∈ run.factsAt k) (hlabel : m.blockLabel? k ≠ some label)
    (hgoes : m.GoesOn k n) : .branch v label ∈ run.factsAt n := by
  obtain hlink | hlink := hgoes
  · obtain ⟨inst, hinst, -⟩ := hm.normal_mem_links_iff.mp hlink
    obtain ⟨p, -, hrule⟩ := hm.rule?_eq config hinst
    exact h.mem_factsAt_of_normal hm hquiet hbranch hlink hinst hrule (Rule.branch_mem_flow hlabel)
  · obtain ⟨site, hrule, -⟩ := hm.outcomes_callToReturn_of_has config hlink
    refine h.mem_factsAt_of_callToReturn hm hquiet hbranch hlink hrule ?_
    rw [CallSite.pass_branch (hm.callSite_call hrule ▸ hlabel)]
    exact List.mem_cons_self

/-- Along a path inside the region of a tainted branch the region is open. -/
theorem Program.FinishedRun.branch_mem_factsAt_of_regionPath (hm : m.WellFormed)
    (h : m.FinishedRun config run) (hquiet : run.store.aborted = [])
    (hb : m.rule? config b = some (.branch condition (.endsAt label)))
    (htainted : m.TaintedBranch run b condition) {n : Nat} (hpath : m.RegionPath b label n) :
    .branch (.result b) label ∈ run.factsAt n := by
  induction hpath with
  | first hgoes => exact h.branch_mem_factsAt_of_tainted hm hquiet hb htainted hgoes
  | step _ hlabel hgoes ih => exact h.branch_mem_factsAt_of_goesOn hm hquiet ih hlabel hgoes

/-- In an open region results are tainted, those of calls whatever their type. -/
theorem Program.FinishedRun.value_mem_factsAt_of_branch (hm : m.WellFormed)
    (h : m.FinishedRun config run) (hquiet : run.store.aborted = []) {v : Value} {n s : Nat}
    {inst : Instruction} (hbranch : .branch v label ∈ run.factsAt n)
    (hlabel : m.blockLabel? n ≠ some label) (hv : v ≠ .result n) (hinst : m.inst? n = some inst)
    (hgoes : m.GoesOn n s) (hop : inst.operation.isConditional = false)
    (hresult : inst.type ≠ .void ∨ inst.operation.IsCall) :
    .value (.result n) ∈ run.factsAt s := by
  obtain hlink | hlink := hgoes
  · obtain ⟨p, -, hrule⟩ := hm.rule?_eq config hinst
    have htype : inst.type ≠ .void := by
      refine hresult.resolve_right fun hcall => ?_
      obtain ⟨inst', hinst', ⟨hterminator, -⟩ | ⟨-, hnot, -⟩⟩ := hm.normal_mem_links_iff.mp hlink
      · obtain rfl := Option.some.inj (hinst.symm.trans hinst')
        exact absurd hterminator (by simp [hcall.not_isTerminator])
      · obtain rfl := Option.some.inj (hinst.symm.trans hinst')
        exact hnot hcall
    exact h.mem_factsAt_of_normal hm hquiet hbranch hlink hinst hrule
      (Rule.value_mem_flow hlabel hv (Rule.ofInstruction_ne_branch hop) htype)
  · obtain ⟨site, hrule, -⟩ := hm.outcomes_callToReturn_of_has config hlink
    have hcall := hm.callSite_call hrule
    refine h.mem_factsAt_of_callToReturn hm hquiet hbranch hlink hrule ?_
    rw [CallSite.pass_branch (hcall ▸ hlabel), CallSite.result, hcall]
    exact List.mem_cons_of_mem _ (List.mem_singleton_self _)

/-- In an open region memory that is written is tainted. -/
theorem Program.FinishedRun.memory_mem_factsAt_of_branch (hm : m.WellFormed)
    (h : m.FinishedRun config run) (hquiet : run.store.aborted = []) {v : Value} {n s : Nat}
    {inst : Instruction} {address : Value} {target : Location}
    (hbranch : .branch v label ∈ run.factsAt n) (hlabel : m.blockLabel? n ≠ some label)
    (hv : v ≠ .result n) (hinst : m.inst? n = some inst) (hgoes : m.GoesOn n s)
    (haddress : inst.operation.writtenAddress? = some address)
    (htarget : m.locationOf? address = some target) : .memory target ∈ run.factsAt s := by
  obtain ⟨p, -, hrule⟩ := hm.rule?_eq config hinst
  have hwritten : (Rule.ofInstruction m config p inst).written? = some target := by
    simp [Rule.written?_ofInstruction, haddress, htarget]
  obtain hlink | hlink := hgoes
  · exact h.mem_factsAt_of_normal hm hquiet hbranch hlink hinst hrule
      (Rule.memory_mem_flow hlabel hv hwritten)
  · -- A call does not write at an address.
    obtain ⟨site, hsite, -⟩ := hm.outcomes_callToReturn_of_has config hlink
    rw [Option.some.inj (hrule.symm.trans hsite)] at hwritten
    simp [Rule.written?] at hwritten

end FinishedRun

/-- In a finished run that gives up no procedure, the fact that the region of a branch is open holds
exactly before the instructions that control gets to from the branch, if the branch is tainted,
without passing the label that ends the region. Where it holds before any other instruction, outside
the block with that label, the instruction taints its result, unless it is a branch or has none, and
the memory that it writes. -/
theorem branch_mem_factsAt_iff_regionPath {m : Program} (hm : m.Built) (config : Config)
    {run : Run Nat Fact Findings} (h : m.FinishedRun config run)
    (hquiet : run.store.aborted = []) {b : Nat} {condition : Value} {label : String}
    (hb : m.rule? config b = some (.branch condition (.endsAt label))) :
    (∀ n, .branch (.result b) label ∈ run.factsAt n ↔
      m.TaintedBranch run b condition ∧ m.RegionPath b label n) ∧
    ∀ n s inst, .branch (.result b) label ∈ run.factsAt n → n ≠ b →
      m.blockLabel? n ≠ some label → m.inst? n = some inst → m.GoesOn n s →
      (inst.operation.isConditional = false → inst.type ≠ .void ∨ inst.operation.IsCall →
        .value (.result n) ∈ run.factsAt s) ∧
      ∀ address target, inst.operation.writtenAddress? = some address →
        m.locationOf? address = some target → .memory target ∈ run.factsAt s := by
  have hwf := hm.wellFormed
  refine ⟨fun n => ⟨fun hbranch => ?_, fun ⟨htainted, hpath⟩ => ?_⟩,
    fun n s inst hbranch hne hlabel hinst hgoes => ?_⟩
  · obtain ⟨source, he⟩ := (h.mem_factsAt hwf hquiet).mp hbranch
    exact h.regionPath_of_entailed hwf hquiet hb he rfl
  · exact h.branch_mem_factsAt_of_regionPath hwf hquiet hb htainted hpath
  · have hv : Value.result b ≠ .result n := by simpa [eq_comm] using hne
    refine ⟨fun hop hresult => ?_, fun address target haddress htarget => ?_⟩
    · exact h.value_mem_factsAt_of_branch hwf hquiet hbranch hlabel hv hinst hgoes hop hresult
    · exact h.memory_mem_factsAt_of_branch hwf hquiet hbranch hlabel hv hinst hgoes haddress htarget

/-- A branch on a tainted value: its region reaches the store, which taints its memory, and does not
go on past the first instruction of the block that ends it. -/
theorem branch_mem_factsAt_iff_regionPath_branchOnSource :
    branchOnSource.rule? {} 4 = some (.branch (.result 3) (.endsAt "if.end")) ∧
      branchOnSourceRun.store.aborted = [] ∧
      branchOnSource.TaintedBranch branchOnSourceRun 4 (.result 3) ∧
      branchOnSource.RegionPath 4 "if.end" 5 ∧ ¬branchOnSource.RegionPath 4 "if.end" 8 ∧
      .memory (.ofFrame (.stack 2)) ∈ branchOnSourceRun.factsAt 6 := by
  have hrule : branchOnSource.rule? {} 4 = some (.branch (.result 3) (.endsAt "if.end")) := by
    decide +kernel
  have hquiet : branchOnSourceRun.store.aborted = [] := by decide +kernel
  obtain ⟨hiff, hinside⟩ := branch_mem_factsAt_iff_regionPath (built_constructed _ _) {}
    finishedRun_branchOnSourceRun hquiet hrule
  have hstore : .branch (.result 4) "if.end" ∈ branchOnSourceRun.factsAt 5 := by decide +kernel
  obtain ⟨htainted, hpath⟩ := (hiff 5).mp hstore
  refine ⟨hrule, hquiet, htainted, hpath, fun hpast => ?_, ?_⟩
  · have hnot : .branch (.result 4) "if.end" ∉ branchOnSourceRun.factsAt 8 := by decide +kernel
    exact hnot ((hiff 8).mpr ⟨htainted, hpast⟩)
  · have hlabel : branchOnSource.blockLabel? 5 ≠ some "if.end" := by decide +kernel
    have hinst : branchOnSource.inst? 5 =
        some ⟨5, 1, 1, .store (.int 1) (.result 2), .void, none⟩ := by decide +kernel
    have hgoes : branchOnSource.GoesOn 5 6 := .inl (by decide +kernel)
    have htarget : branchOnSource.locationOf? (.result 2) = some (.ofFrame (.stack 2)) := by
      decide +kernel
    exact (hinside 5 6 _ hstore (by decide) hlabel hinst hgoes).2 _ _ rfl htarget

end TaintTrail
